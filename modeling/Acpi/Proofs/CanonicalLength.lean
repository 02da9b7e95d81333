import Acpi.Proofs.PkgLength
import Mathlib.Order.Bounds.Basic

/-!
# Canonical package lengths

The width of a length field depends on its value and the value on the width.  Here the field that is
chosen is compared with all others: no narrower field is read as payload and field together, and
no field that is read as the same value is shorter.

The search is made on 32-bit numbers and gives up as soon as a sum leaves the 32 bits or no width
holds it.  That loses no payload, because a sum that is too large for every width comes from a
payload that is too large for every width (`search?_eq`).

Main result: `ofPayload?_canonical`.
-/

namespace Acpi.PkgLength

/-! ## What can be read -/

/-- A field that is read has one of the four widths and a value within it. -/
theorem bounds_of_read? {bytes rest : List UInt8} {length : PkgLength}
    (h : read? bytes = some (length, rest)) :
    length.width ∈ widths ∧ length.value ≤ capacity length.width := by
  rw [mem_widths_iff]
  cases bytes with
  | nil => cases h
  | cons lead tail =>
      have hLead : lead.toNat < 256 := lead.toNat_lt
      unfold read? at h
      dsimp only at h
      split at h
      next hNone =>
        cases h
        simp only [capacity]
        omega
      next hSome =>
        split at h
        next hRoom =>
          cases h
          have hLe : lead.toNat / 64 ≤ 3 := by omega
          have hCapacity := capacity_succ hSome hLe
          have hHigh := LittleEndian.decode_lt (tail.take (lead.toNat / 64))
          rw [List.length_take_of_le hRoom.2] at hHigh
          simp only
          omega
        next => cases h

/-- The widths at which some field is read as a payload and the field itself. -/
def widthsFor (payload : Nat) : Set Nat :=
  {width | ∃ field : List UInt8, field.length = width ∧
    read? field = some (⟨payload + width, width⟩, [])}

theorem mem_widthsFor_iff {payload width : Nat} :
    width ∈ widthsFor payload ↔ width ∈ widths ∧ payload + width ≤ capacity width := by
  constructor
  · rintro ⟨field, -, hRead⟩
    exact bounds_of_read? hRead
  · rintro ⟨hWidth, hValue⟩
    rw [mem_widths_iff] at hWidth
    have hFits : Fits ⟨payload + width, width⟩ :=
      ⟨hWidth.1, hWidth.2, hValue, Nat.le_add_left width payload⟩
    refine ⟨_, length_bytes hFits, ?_⟩
    simpa using read?_bytes hFits []

/-! ## The least width -/

/-- The widths are tried from the shortest on, so the first that will do is the least. -/
theorem isLeast_of_find?_widths {holds : Nat → Bool} {width : Nat}
    (h : widths.find? holds = some width) :
    IsLeast {width | width ∈ widths ∧ holds width = true} width := by
  refine ⟨⟨List.mem_of_find?_eq_some h, List.find?_some h⟩, ?_⟩
  rintro other ⟨hMem, hHolds⟩
  have hSorted : widths.Pairwise (· < ·) := by decide
  obtain ⟨-, shorter, wider, hSplit, hShorter⟩ := List.find?_eq_some_iff_append.1 h
  rw [hSplit] at hMem hSorted
  rcases List.mem_append.1 hMem with hMem | hMem
  · have hNot := hShorter other hMem
    rw [hHolds] at hNot
    cases hNot
  · rcases List.mem_cons.1 hMem with rfl | hMem
    · exact Nat.le_refl _
    · have hBehind := (List.pairwise_cons.1 (List.pairwise_append.1 hSorted).2.1).1
      exact Nat.le_of_lt (hBehind other hMem)

theorem find?_widths_eq_some_iff {holds : Nat → Bool} {width : Nat} :
    widths.find? holds = some width ↔
      IsLeast {width | width ∈ widths ∧ holds width = true} width := by
  refine ⟨isLeast_of_find?_widths, fun h => ?_⟩
  obtain ⟨found, hFound⟩ : ∃ found, widths.find? holds = some found := by
    rw [← Option.isSome_iff_exists, List.find?_isSome]
    exact ⟨width, h.1⟩
  have hLeast := isLeast_of_find?_widths hFound
  have hSame : found = width := Nat.le_antisymm (hLeast.2 h.1) (h.2 hLeast.1)
  rw [hFound, hSame]

/-- The field of a payload has the least width at which a field can count payload and field. -/
theorem isLeast_of_ofPayload? {payload : Nat} {length : PkgLength}
    (h : ofPayload? payload = some length) : IsLeast (widthsFor payload) length.width := by
  unfold ofPayload? at h
  obtain ⟨width, hFind, rfl⟩ := Option.map_eq_some_iff.1 h
  have hLeast := isLeast_of_find?_widths hFind
  refine ⟨mem_widthsFor_iff.2 ⟨hLeast.1.1, of_decide_eq_true hLeast.1.2⟩, fun other hOther => ?_⟩
  obtain ⟨hMem, hFits⟩ := mem_widthsFor_iff.1 hOther
  exact hLeast.2 ⟨hMem, decide_eq_true hFits⟩

/-- A field is as wide as its value alone asks for: a narrower field that holds the value would
also hold the smaller sum of the payload and its own width. -/
theorem leastWidth?_of_ofPayload? {payload : Nat} {length : PkgLength}
    (h : ofPayload? payload = some length) :
    leastWidth? length.value = some length.width := by
  have hLeast := isLeast_of_ofPayload? h
  have hValue := (fits_of_ofPayload? h).2
  obtain ⟨hWidth, hFits⟩ := mem_widthsFor_iff.1 hLeast.1
  apply find?_widths_eq_some_iff.2
  refine ⟨⟨hWidth, decide_eq_true (hValue ▸ hFits)⟩, ?_⟩
  rintro other ⟨hMem, hHolds⟩
  rw [decide_eq_true_eq] at hHolds
  by_contra hNarrower
  have hOther : other ∈ widthsFor payload := mem_widthsFor_iff.2 ⟨hMem, by omega⟩
  exact hNarrower (hLeast.2 hOther)

/-- No field that is read as the value of a payload's field is shorter than that one. -/
theorem width_le_of_read? {payload : Nat} {length other : PkgLength} {bytes rest : List UInt8}
    (h : ofPayload? payload = some length) (hRead : read? bytes = some (other, rest))
    (hValue : other.value = length.value) : length.width ≤ other.width := by
  obtain ⟨hWidth, hCapacity⟩ := bounds_of_read? hRead
  have hLeast := find?_widths_eq_some_iff.1 (leastWidth?_of_ofPayload? h)
  exact hLeast.2 ⟨hWidth, decide_eq_true (hValue ▸ hCapacity)⟩

/-- A larger payload has a larger value. -/
theorem value_lt_of_lt {payload payload' : Nat} {length length' : PkgLength}
    (h : ofPayload? payload = some length) (h' : ofPayload? payload' = some length')
    (hLt : payload < payload') : length.value < length'.value := by
  have hWidth := neededWidth_mono (Nat.le_of_lt hLt)
  rw [← width_of_ofPayload? h, ← width_of_ofPayload? h'] at hWidth
  have hValue := (fits_of_ofPayload? h).2
  have hValue' := (fits_of_ofPayload? h').2
  omega

/-! ## The search on 32-bit numbers -/

/-- A payload above the limit fits at no width. -/
theorem capacity_lt {payload width : Nat} (h : maxPayload < payload) (hWidth : width ∈ widths) :
    capacity width < payload + width := by
  have hNone : ¬ (ofPayload? payload).isSome := by
    rw [isSome_ofPayload?_iff]
    omega
  by_contra hFits
  apply hNone
  rw [ofPayload?, Option.isSome_map, List.find?_isSome]
  exact ⟨width, hWidth, decide_eq_true (Nat.le_of_not_lt hFits)⟩

theorem find?_eq_none {payload : Nat} (h : maxPayload < payload) {list : List Nat}
    (hList : ∀ width ∈ list, width ∈ widths) :
    (list.find? fun width => payload + width ≤ capacity width) = none := by
  rw [List.find?_eq_none]
  intro width hMem
  have hLt := capacity_lt h (hList width hMem)
  rw [decide_eq_true_eq]
  omega

/-- A wider field holds whatever a narrower one does. -/
theorem capacity_mono :
    ∀ narrow ∈ widths, ∀ wide ∈ widths, narrow ≤ wide → capacity narrow ≤ capacity wide := by
  decide

theorem leastWidth?_le_iff {value needed width : Nat} (h : leastWidth? value = some needed)
    (hWidth : width ∈ widths) : needed ≤ width ↔ value ≤ capacity width := by
  obtain ⟨⟨hNeeded, hHolds⟩, hLeast⟩ := isLeast_of_find?_widths h
  rw [decide_eq_true_eq] at hHolds
  constructor
  · intro hLe
    exact Nat.le_trans hHolds (capacity_mono needed hNeeded width hWidth hLe)
  · intro hLe
    exact hLeast ⟨hWidth, decide_eq_true hLe⟩

theorem search?_eq_find? (payload : UInt32) {list : List Nat}
    (h : ∀ width ∈ list, width ∈ widths) :
    search? payload list =
      (list.find? fun width => payload.toNat + width ≤ capacity width).map fun width =>
        ⟨payload.toNat + width, width⟩ := by
  induction list with
  | nil => rfl
  | cons width wider ih =>
      obtain ⟨hWidth, hWider⟩ := List.forall_mem_cons.1 h
      have hSmall := mem_widths_iff.1 hWidth
      have hWord : (UInt32.ofNat width).toNat = width := by
        rw [UInt32.toNat_ofNat']
        omega
      rw [search?, addChecked?, hWord]
      by_cases hSum : payload.toNat + width < UInt32.size
      · have hValue : (payload + UInt32.ofNat width).toNat = payload.toNat + width := by
          rw [UInt32.toNat_add, hWord]
          exact Nat.mod_eq_of_lt hSum
        rw [if_pos hSum]
        simp only [Option.bind_eq_bind, Option.bind_some, hValue]
        cases hNeeded : leastWidth? (payload.toNat + width) with
        | none =>
            -- Not even the widest field holds the sum, so the payload is above the limit.
            have hWidest := List.find?_eq_none.1 hNeeded 4 (by decide)
            rw [decide_eq_true_eq] at hWidest
            have hLimit : maxPayload < payload.toNat := by
              simp only [capacity] at hWidest
              unfold maxPayload
              omega
            rw [find?_eq_none hLimit h]
            rfl
        | some needed =>
            rw [Option.bind_some, List.find?_cons]
            by_cases hFits : payload.toNat + width ≤ capacity width
            · rw [if_pos ((leastWidth?_le_iff hNeeded hWidth).2 hFits), decide_eq_true hFits]
              rfl
            · rw [if_neg (mt (leastWidth?_le_iff hNeeded hWidth).1 hFits), decide_eq_false hFits]
              exact ih hWider
      · have hLimit : maxPayload < payload.toNat := by
          have hSize : UInt32.size = 4294967296 := rfl
          unfold maxPayload
          omega
        rw [if_neg hSum, find?_eq_none hLimit h]
        rfl

/-- Giving up early loses no payload. -/
theorem search?_eq (payload : UInt32) : search? payload widths = ofPayload? payload.toNat :=
  search?_eq_find? payload fun _ hMem => hMem

/-! ## The field of a payload -/

/-- The field of a payload is the shortest that counts the payload and itself, and the shortest of
its value.  Of the four bytes that it is given, as many as its width are used, and these are read as
the field, whatever follows. -/
structure Canonical (payload : Nat) (length : PkgLength) : Prop where
  width_least : IsLeast (widthsFor payload) length.width
  width_mem : 1 ≤ length.width ∧ length.width ≤ 4
  value_eq : length.value = payload + length.width
  value_lt : length.value < UInt32.size
  payload_eq : length.payload = payload
  leastWidth?_value : leastWidth? length.value = some length.width
  shortest : ∀ other bytes rest, read? bytes = some (other, rest) →
    other.value = length.value → length.width ≤ other.width
  increasing : ∀ smaller < payload, ∀ other, ofPayload? smaller = some other →
    other.value < length.value
  used : length.paddedBytes.take length.width = length.bytes ∧ length.bytes.length = length.width
  length_padded : length.paddedBytes.length = 4
  unused : ∀ byte ∈ length.paddedBytes.drop length.width, byte = 0
  reads : ∀ rest, read? (length.paddedBytes.take length.width ++ rest) = some (length, rest)

theorem canonical_of_ofPayload? {payload : Nat} {length : PkgLength}
    (h : ofPayload? payload = some length) : Canonical payload length := by
  obtain ⟨hFits, hValue⟩ := fits_of_ofPayload? h
  have hWidth := length_bytes hFits
  have hUsed : length.paddedBytes.take length.width = length.bytes := List.take_left' hWidth
  have hLt := payload_lt_of_ofPayload? h
  have hPos := hFits.width_pos
  have hLe := hFits.width_le
  exact {
    width_least := isLeast_of_ofPayload? h
    width_mem := ⟨hPos, hLe⟩
    value_eq := hValue
    value_lt := by
      have hSize : UInt32.size = 4294967296 := rfl
      omega
    payload_eq := payload_of_ofPayload? h
    leastWidth?_value := leastWidth?_of_ofPayload? h
    shortest := fun _ _ _ hRead hSame => width_le_of_read? h hRead hSame
    increasing := fun _ hSmaller _ hOther => value_lt_of_lt hOther h hSmaller
    used := ⟨hUsed, hWidth⟩
    length_padded := by
      rw [paddedBytes, List.length_append, List.length_replicate]
      omega
    unused := by
      intro byte hMem
      rw [paddedBytes, List.drop_left' hWidth] at hMem
      exact List.eq_of_mem_replicate hMem
    reads := by
      intro rest
      rw [hUsed, read?_bytes hFits] }

/-- **Package lengths are canonical.**  A payload has a length field exactly up to the limit, the
search on 32-bit numbers finds the same field, and the field is canonical. -/
theorem ofPayload?_canonical (payload : UInt32) :
    search? payload widths = ofPayload? payload.toNat ∧
      ((ofPayload? payload.toNat).isSome ↔ payload.toNat ≤ 0x0FFFFFFB) ∧
      ∀ length, ofPayload? payload.toNat = some length → Canonical payload.toNat length := by
  refine ⟨search?_eq payload, isSome_ofPayload?_iff, ?_⟩
  intro length hLength
  exact canonical_of_ofPayload? hLength

example : ofPayload? 0x3F = some ⟨0x41, 2⟩ ∧ paddedBytes ⟨0x41, 2⟩ = [0x41, 0x04, 0, 0] := by decide

end Acpi.PkgLength
