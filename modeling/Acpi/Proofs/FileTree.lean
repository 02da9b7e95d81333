import Acpi.Command.FileTree
import Acpi.Proofs.Refusal

/-!
# What a write leaves behind

A write changes the tree at one place only, and what it puts there is no directory.  So every
directory that could be entered before can be entered afterwards, and the path of a file that was
written leads to it again.

Main statement: `written_of_write`, by which a write that succeeds has `Written` the file.
-/

namespace Acpi.Command.FileTree

/-! ## Places -/

theorem get?_put (tree : FileTree) (name : String) (directory : Place) (bytes : ByteArray) :
    (tree.put (name :: directory) bytes).get? (name :: directory) = some (.file bytes) :=
  List.lookup_cons_self

theorem lookup_filter_of_ne (entries : List (Place × Entry)) {place other : Place}
    (h : other ≠ place) :
    (entries.filter (·.1 != place)).lookup other = entries.lookup other := by
  induction entries with
  | nil => rfl
  | cons entry rest ih =>
      by_cases hPlace : entry.1 = place
      · have hOther : (other == entry.1) = false := by simp [hPlace, h]
        rw [List.filter_cons_of_neg (by simp [hPlace]), ih, List.lookup_cons, hOther]
      · rw [List.filter_cons_of_pos (by simp [hPlace]), List.lookup_cons, List.lookup_cons, ih]

theorem get?_put_of_ne (tree : FileTree) (bytes : ByteArray) {place other : Place}
    (h : other ≠ place) : (tree.put place bytes).get? other = tree.get? other := by
  cases other with
  | nil => rfl
  | cons name directory =>
      have hOther : (name :: directory == place) = false := by simp [h]
      simp only [get?, put, List.lookup_cons, hOther, lookup_filter_of_ne tree.entries h]

/-! ## Paths -/

variable {tree : FileTree} {place : Place}

theorem enter_eq_ok_iff {here next : Place} {part : String} :
    tree.enter here part = .ok next ↔
      (part = "." ∧ next = here) ∨ (part = ".." ∧ next = here.tail) ∨
        (part ≠ "." ∧ part ≠ ".." ∧ part.utf8ByteSize ≤ maxName ∧
          tree.get? (part :: here) = some .directory ∧ next = part :: here) := by
  by_cases hSame : part = "."
  · simp [enter, hSame, eq_comm]
  by_cases hUp : part = ".."
  · simp [enter, hUp, eq_comm]
  by_cases hLong : part.utf8ByteSize > maxName
  · simp [enter, hSame, hUp, hLong, Nat.not_le.2 hLong]
  · cases hEntry : tree.get? (part :: here) with
    | none => simp [enter, hSame, hUp, hLong, hEntry]
    | some entry =>
        cases entry <;>
          simp [enter, hSame, hUp, hLong, Nat.not_lt.1 hLong, hEntry, eq_comm]

/-- A part of a path is entered as before: a file is put nowhere where a directory stands. -/
theorem enter_put {here next : Place} {part : String} (bytes : ByteArray)
    (hPlace : tree.get? place ≠ some .directory) (h : tree.enter here part = .ok next) :
    (tree.put place bytes).enter here part = .ok next := by
  rcases enter_eq_ok_iff.1 h with hSame | hUp | ⟨hSame, hUp, hShort, hEntry, hNext⟩
  · exact enter_eq_ok_iff.2 (.inl hSame)
  · exact enter_eq_ok_iff.2 (.inr (.inl hUp))
  · have hOther : part :: here ≠ place := by
      rintro rfl
      exact hPlace hEntry
    rw [← get?_put_of_ne tree bytes hOther] at hEntry
    exact enter_eq_ok_iff.2 (.inr (.inr ⟨hSame, hUp, hShort, hEntry, hNext⟩))

theorem foldlM_enter_put {here there : Place} {parts : List String} (bytes : ByteArray)
    (hPlace : tree.get? place ≠ some .directory) (h : parts.foldlM tree.enter here = .ok there) :
    parts.foldlM (tree.put place bytes).enter here = .ok there := by
  induction parts generalizing here with
  | nil => exact h
  | cons part parts ih =>
      rw [List.foldlM_cons] at h ⊢
      obtain ⟨next, hNext, hRest⟩ := bind_eq_ok_iff.1 h
      exact bind_eq_ok_iff.2 ⟨next, enter_put bytes hPlace hNext, ih hRest⟩

theorem locate_eq_named_iff {path name : String} {directory : Place} {slash : Bool} :
    tree.locate path = .ok (.named name directory slash) ↔
      path.isEmpty = false ∧ path.utf8ByteSize ≤ maxPath ∧ (parts path).getLast? = some name ∧
        (parts path).dropLast.foldlM tree.enter (tree.start path) = .ok directory ∧
        name ≠ "." ∧ name ≠ ".." ∧ (path.toList.getLast? == some '/') = slash := by
  by_cases hEmpty : path.isEmpty = true
  · simp [locate, hEmpty, bind_eq_ok_iff, throw_ne_ok]
  by_cases hLong : path.utf8ByteSize > maxPath
  · simp [locate, hEmpty, hLong, Nat.not_le.2 hLong, bind_eq_ok_iff, throw_ne_ok]
  cases hLast : (parts path).getLast? with
  | none => simp [locate, hEmpty, hLong, hLast, pure_eq_ok_iff]
  | some last =>
      simp only [locate, hEmpty, hLong, hLast, ↓reduceIte, Bool.false_eq_true, bind_eq_ok_iff]
      by_cases hDots : last = "." ∨ last = ".." <;> simp [hDots, pure_eq_ok_iff] <;> grind

/-- A path to a name leads there as before. -/
theorem locate_put {path name : String} {directory : Place} {slash : Bool} (bytes : ByteArray)
    (hPlace : tree.get? place ≠ some .directory)
    (h : tree.locate path = .ok (.named name directory slash)) :
    (tree.put place bytes).locate path = .ok (.named name directory slash) := by
  obtain ⟨hSome, hShort, hLast, hEnter, hName⟩ := locate_eq_named_iff.1 h
  exact locate_eq_named_iff.2 ⟨hSome, hShort, hLast, foldlM_enter_put bytes hPlace hEnter, hName⟩

/-! ## Writing -/

/-- What a write has made of a tree.  A device that keeps nothing leaves it as it was; otherwise the
bytes stand where the path leads, are read back from there, and are the only thing that is new. -/
inductive Written (before : FileTree) (path : String) (bytes : ByteArray) : FileTree → Prop where
  | discarded {name : String} {directory : Place}
      (located : before.locate path = .ok (.named name directory false))
      (device : before.get? (name :: directory) = some .null) : Written before path bytes before
  | stored {after : FileTree} {name : String} {directory : Place}
      (located : before.locate path = .ok (.named name directory false))
      (here : after.get? (name :: directory) = some (.file bytes))
      (elsewhere : ∀ other, other ≠ name :: directory → after.get? other = before.get? other)
      (work_eq : after.work = before.work)
      (read_eq : after.read path = .ok bytes) : Written before path bytes after

theorem read_of_locate {path name : String} {directory : Place} {bytes : ByteArray}
    (hLocate : tree.locate path = .ok (.named name directory false))
    (hShort : name.utf8ByteSize ≤ maxName)
    (hEntry : tree.get? (name :: directory) = some (.file bytes)) : tree.read path = .ok bytes := by
  refine bind_eq_ok_iff.2 ⟨_, hLocate, ?_⟩
  simp [Nat.not_lt.2 hShort, hEntry, pure_eq_ok_iff]

/-- Where no directory stood a file can be put: the path to it still leads there. -/
theorem written_put {path name : String} {directory : Place} (bytes : ByteArray)
    (hLocate : tree.locate path = .ok (.named name directory false))
    (hShort : name.utf8ByteSize ≤ maxName)
    (hPlace : tree.get? (name :: directory) ≠ some .directory) :
    Written tree path bytes (tree.put (name :: directory) bytes) := by
  have hHere := get?_put tree name directory bytes
  have hLocated := locate_put bytes hPlace hLocate
  exact .stored hLocate hHere (fun _ => get?_put_of_ne tree bytes) rfl
    (read_of_locate hLocated hShort hHere)

theorem written_of_write {before after : FileTree} {path : String} {bytes : ByteArray}
    (h : before.write path bytes = .ok after) : Written before path bytes after := by
  obtain ⟨target, hLocate, hWrite⟩ := bind_eq_ok_iff.1 h
  cases target with
  | entered => cases hWrite
  | named name directory slash =>
      cases slash with
      | true => cases hWrite
      | false =>
          by_cases hLong : name.utf8ByteSize > maxName
          · simp [hLong, bind_eq_ok_iff, throw_ne_ok] at hWrite
          simp only [hLong, ↓reduceIte, Bool.false_eq_true] at hWrite
          have hPut := written_put bytes hLocate (Nat.not_lt.1 hLong)
          cases hEntry : before.get? (name :: directory) with
          | none =>
              simp only [hEntry, pure_eq_ok_iff] at hWrite
              exact hWrite ▸ hPut (by simp [hEntry])
          | some entry =>
              cases entry with
              | directory => simp [hEntry, throw_ne_ok] at hWrite
              | null =>
                  simp only [hEntry, pure_eq_ok_iff] at hWrite
                  exact hWrite ▸ .discarded hLocate hEntry
              | file old =>
                  simp only [hEntry, pure_eq_ok_iff] at hWrite
                  exact hWrite ▸ hPut (by simp [hEntry])

end Acpi.Command.FileTree
