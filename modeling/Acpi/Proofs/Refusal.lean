import Mathlib.Data.List.Forall2

/-!
# Results that may be refused

When a computation in `Except` is accepted: one fact for each way in which it is put together.  With
these a computation is taken apart from its result, and put together again, without being unfolded.
-/

namespace Acpi

variable {ε ε' α β : Type}

theorem pure_eq_ok_iff {a b : α} : (pure a : Except ε α) = .ok b ↔ a = b := by
  show Except.ok a = Except.ok b ↔ _
  rw [Except.ok.injEq]

theorem throw_ne_ok {error : ε} {a : α} : ¬ (throw error : Except ε α) = .ok a := by
  rintro ⟨⟩

theorem bind_eq_ok_iff {x : Except ε α} {f : α → Except ε β} {b : β} :
    x >>= f = .ok b ↔ ∃ a, x = .ok a ∧ f a = .ok b := by
  cases x with
  | error error => exact ⟨nofun, nofun⟩
  | ok a =>
      constructor
      · intro h
        exact ⟨a, rfl, h⟩
      · rintro ⟨_, ⟨⟩, h⟩
        exact h

theorem bind_of_ok {x : Except ε α} {f : α → Except ε β} {a : α} (h : x = .ok a) :
    x >>= f = f a := by
  rw [h]
  rfl

theorem mapError_eq_ok_iff {x : Except ε α} {f : ε → ε'} {a : α} :
    x.mapError f = .ok a ↔ x = .ok a := by
  cases x with
  | error error => exact ⟨nofun, nofun⟩
  | ok b =>
      show Except.ok b = Except.ok a ↔ _
      rw [Except.ok.injEq, Except.ok.injEq]

/-- A list of results is accepted if each of them is. -/
theorem mapM_eq_ok_iff {build : α → Except ε β} {items : List α} {results : List β} :
    items.mapM build = .ok results ↔
      List.Forall₂ (fun item result => build item = .ok result) items results := by
  induction items generalizing results with
  | nil =>
      rw [List.mapM_nil, List.forall₂_nil_left_iff]
      constructor
      · rintro ⟨⟩
        rfl
      · rintro rfl
        rfl
  | cons item items ih =>
      rw [List.mapM_cons, bind_eq_ok_iff, List.forall₂_cons_left_iff]
      simp only [bind_eq_ok_iff, ih]
      constructor
      · rintro ⟨result, hItem, results, hItems, ⟨⟩⟩
        exact ⟨result, results, hItem, hItems, rfl⟩
      · rintro ⟨result, results, hItem, hItems, rfl⟩
        exact ⟨result, hItem, results, hItems, rfl⟩

end Acpi
