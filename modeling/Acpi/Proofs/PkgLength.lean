import Acpi.PkgLength

/-!
# Reading package lengths

The lead byte of a package length tells how many bytes follow it: their number stands in its top
two bits.  Without any, the other six bits are the value; with some, its low four bits are the low
bits of the value, the bytes behind it are the rest, and the two bits between are clear.

Main statements:

* `length_bytes`: a field has as many bytes as its width says;
* `read?_bytes`: reading takes exactly the field off the front of any bytes;
* `split?_bytes`: the value of a field leads exactly to the end of the payload that it was made for.
-/

namespace Acpi.PkgLength

theorem mem_widths_iff {width : Nat} : width ∈ widths ↔ 1 ≤ width ∧ width ≤ 4 := by
  simp only [widths, List.mem_cons, List.not_mem_nil, or_false]
  omega

/-- A field of several bytes holds four bits in its lead byte and eight in each byte behind it. -/
theorem capacity_succ {follow : Nat} (hPos : follow ≠ 0) (hLe : follow ≤ 3) :
    capacity (follow + 1) + 1 = 16 * LittleEndian.span follow := by
  have hCases : follow = 1 ∨ follow = 2 ∨ follow = 3 := by omega
  rcases hCases with rfl | rfl | rfl <;> rfl

/-- A length field as the grammar allows it: the width is one of the four, the value can be written
in that width, and it covers at least the field itself. -/
structure Fits (length : PkgLength) : Prop where
  width_pos : 1 ≤ length.width
  width_le : length.width ≤ 4
  value_le : length.value ≤ capacity length.width
  width_le_value : length.width ≤ length.value

/-- The length field in front of `payload` bytes, if the object can be encoded at all: its width is
the first at which payload and width together fit. -/
def ofPayload? (payload : Nat) : Option PkgLength :=
  (widths.find? fun width => payload + width ≤ capacity width).map fun width =>
    ⟨payload + width, width⟩

/-- The field of a payload is well formed and counts the payload and itself. -/
theorem fits_of_ofPayload? {payload : Nat} {length : PkgLength}
    (h : ofPayload? payload = some length) :
    length.Fits ∧ length.value = payload + length.width := by
  unfold ofPayload? at h
  obtain ⟨width, hFind, rfl⟩ := Option.map_eq_some_iff.1 h
  have hValue : payload + width ≤ capacity width := by simpa using List.find?_some hFind
  have hWidth := mem_widths_iff.1 (List.mem_of_find?_eq_some hFind)
  exact ⟨⟨hWidth.1, hWidth.2, hValue, Nat.le_add_left width payload⟩, rfl⟩

/-- The bytes that the length field of a payload takes: the least width that can hold payload and
field together, and the largest width if none can. -/
def neededWidth (payload : Nat) : Nat :=
  (widths.find? fun width => payload + width ≤ capacity width).getD 4

theorem width_of_ofPayload? {payload : Nat} {length : PkgLength}
    (h : ofPayload? payload = some length) : length.width = neededWidth payload := by
  unfold ofPayload? at h
  obtain ⟨width, hFind, rfl⟩ := Option.map_eq_some_iff.1 h
  rw [neededWidth, hFind, Option.getD_some]

/-- What stands behind the field of a payload is the payload. -/
theorem payload_of_ofPayload? {payload : Nat} {length : PkgLength}
    (h : ofPayload? payload = some length) : length.payload = payload := by
  have hValue := (fits_of_ofPayload? h).2
  unfold PkgLength.payload
  omega

/-- A payload that a length field can count takes at most 28 bits. -/
theorem payload_lt_of_ofPayload? {payload : Nat} {length : PkgLength}
    (h : ofPayload? payload = some length) : payload < 0x10000000 := by
  obtain ⟨hFits, hValue⟩ := fits_of_ofPayload? h
  have hCapacity : capacity length.width ≤ 0xFFFFFFF := by
    unfold capacity
    split <;> omega
  have hLe := hFits.value_le
  omega

/-- The largest payload that a length field can count. -/
def maxPayload : Nat := 0xFFFFFFB

theorem isSome_ofPayload?_iff {payload : Nat} :
    (ofPayload? payload).isSome ↔ payload ≤ maxPayload := by
  unfold ofPayload? maxPayload
  rw [Option.isSome_map, List.find?_isSome]
  simp only [widths, List.mem_cons, List.not_mem_nil, or_false, decide_eq_true_eq,
    exists_eq_or_imp, exists_eq_left, capacity]
  omega

/-- The widths in numbers: a field grows where it and its payload no longer fit together. -/
theorem neededWidth_eq (payload : Nat) :
    neededWidth payload =
      if payload + 1 ≤ 0x3F then 1
      else if payload + 2 ≤ 0xFFF then 2
      else if payload + 3 ≤ 0xFFFFF then 3
      else 4 := by
  unfold neededWidth
  simp only [widths, List.find?_cons, List.find?_nil, capacity]
  by_cases hOne : payload + 1 ≤ 0x3F
  · simp only [hOne, decide_true, if_true, Option.getD_some]
  · by_cases hTwo : payload + 2 ≤ 0xFFF
    · simp only [hOne, hTwo, decide_true, decide_false, if_true, if_false, Option.getD_some]
    · by_cases hThree : payload + 3 ≤ 0xFFFFF
      · simp only [hOne, hTwo, hThree, decide_true, decide_false, if_true, if_false,
          Option.getD_some]
      · simp only [hOne, hTwo, hThree, decide_false, if_false]
        cases decide (payload + 4 ≤ 0xFFFFFFF) <;> rfl

/-- A larger payload never gets a narrower field. -/
theorem neededWidth_mono {payload payload' : Nat} (h : payload ≤ payload') :
    neededWidth payload ≤ neededWidth payload' := by
  rw [neededWidth_eq, neededWidth_eq]
  grind

theorem length_bytes {length : PkgLength} (h : length.Fits) :
    length.bytes.length = length.width := by
  have hPos := h.width_pos
  unfold bytes
  split
  · simp only [List.length_cons, List.length_nil]
    omega
  · simp only [List.length_cons, LittleEndian.length_encode]
    omega

/-! ## The rule of reading -/

/-- Takes a length field off the front of some bytes. -/
def read? : List UInt8 → Option (PkgLength × List UInt8)
  | [] => none
  | lead :: rest =>
      let follow := lead.toNat / 64
      if follow = 0 then
        some (⟨lead.toNat, 1⟩, rest)
      else if lead.toNat / 16 % 4 = 0 ∧ follow ≤ rest.length then
        some (⟨lead.toNat % 16 + 16 * LittleEndian.decode (rest.take follow), follow + 1⟩,
          rest.drop follow)
      else
        none

/-- Takes a length field and the payload that it counts off the front of some bytes, and gives the
payload and what stands behind it.  A field that does not cover itself, or that leads beyond the
bytes, is refused. -/
def split? (bytes : List UInt8) : Option (List UInt8 × List UInt8) :=
  match read? bytes with
  | some (length, rest) =>
      if length.width ≤ length.value ∧ length.payload ≤ rest.length then
        some (rest.take length.payload, rest.drop length.payload)
      else
        none
  | none => none

theorem length_le_of_read? {bytes rest : List UInt8} {length : PkgLength}
    (h : read? bytes = some (length, rest)) : rest.length ≤ bytes.length := by
  cases bytes with
  | nil => cases h
  | cons lead tail =>
      unfold read? at h
      dsimp only at h
      split at h
      · cases h
        exact Nat.le_succ _
      · split at h
        · cases h
          rw [List.length_drop, List.length_cons]
          omega
        · cases h

/-- A payload is not longer than the bytes that it was taken from. -/
theorem length_le_of_split? {bytes content rest : List UInt8}
    (h : split? bytes = some (content, rest)) : content.length ≤ bytes.length := by
  unfold split? at h
  split at h
  next length behind hRead =>
    have hBehind := length_le_of_read? hRead
    split at h
    · cases h
      rw [List.length_take]
      omega
    · cases h
  next => cases h

/-- In a field of more than one byte, the value is spread over the low four bits of the lead byte
and the bytes behind it. -/
private theorem value_div_lt {length : PkgLength} (h : length.Fits) (hWide : ¬ length.width ≤ 1) :
    length.value / 16 < LittleEndian.span (length.width - 1) := by
  have hLe := h.width_le
  have hValue := h.value_le
  have hCapacity := @capacity_succ (length.width - 1) (by omega) (by omega)
  rw [show length.width - 1 + 1 = length.width by omega] at hCapacity
  omega

/-- Reading takes exactly the field off the front. -/
theorem read?_bytes {length : PkgLength} (h : length.Fits) (rest : List UInt8) :
    read? (length.bytes ++ rest) = some (length, rest) := by
  unfold bytes
  split
  next hNarrow =>
    have hWidth : length.width = 1 := Nat.le_antisymm hNarrow h.width_pos
    have hValue : length.value ≤ 0x3F := by simpa [hWidth, capacity] using h.value_le
    have hLead : (UInt8.ofNat length.value).toNat = length.value := by
      rw [UInt8.toNat_ofNat']
      omega
    have hShort : length.value / 64 = 0 := by omega
    simp only [List.cons_append, List.nil_append, read?, hLead, hShort, if_true]
    rw [← hWidth]
  next hWide =>
    have hLe := h.width_le
    have hLead : (UInt8.ofNat (64 * (length.width - 1) + length.value % 16)).toNat =
        64 * (length.width - 1) + length.value % 16 := by
      rw [UInt8.toNat_ofNat']
      omega
    have hFollow : (64 * (length.width - 1) + length.value % 16) / 64 = length.width - 1 := by omega
    have hClear : (64 * (length.width - 1) + length.value % 16) / 16 % 4 = 0 := by omega
    have hLow : (64 * (length.width - 1) + length.value % 16) % 16 = length.value % 16 := by omega
    have hHigh : LittleEndian.decode (LittleEndian.encode (length.width - 1) (length.value / 16)) =
        length.value / 16 :=
      LittleEndian.decode_encode_of_lt (value_div_lt h hWide)
    have hTake : (LittleEndian.encode (length.width - 1) (length.value / 16) ++ rest).take
        (length.width - 1) = LittleEndian.encode (length.width - 1) (length.value / 16) :=
      List.take_left' (LittleEndian.length_encode _ _)
    have hDrop : (LittleEndian.encode (length.width - 1) (length.value / 16) ++ rest).drop
        (length.width - 1) = rest :=
      List.drop_left' (LittleEndian.length_encode _ _)
    have hBehind : ¬ length.width - 1 = 0 := by omega
    have hValue : length.value % 16 + 16 * (length.value / 16) = length.value := by omega
    have hWidth : length.width - 1 + 1 = length.width := by omega
    rw [List.cons_append, read?]
    simp only [hLead, hFollow, hClear, hLow, hTake, hDrop, hHigh, hBehind, hValue, hWidth,
      List.length_append, LittleEndian.length_encode, Nat.le_add_right, and_self, if_true, if_false]

/-- The field made for a payload leads exactly to its end. -/
theorem split?_bytes {content : List UInt8} {length : PkgLength}
    (h : ofPayload? content.length = some length) (rest : List UInt8) :
    split? (length.bytes ++ content ++ rest) = some (content, rest) := by
  have hFits := (fits_of_ofPayload? h).1
  have hPayload := payload_of_ofPayload? h
  unfold split?
  rw [List.append_assoc, read?_bytes hFits]
  have hRoom : length.width ≤ length.value ∧ length.payload ≤ (content ++ rest).length := by
    refine ⟨hFits.width_le_value, ?_⟩
    rw [hPayload, List.length_append]
    exact Nat.le_add_right _ _
  show (if length.width ≤ length.value ∧ length.payload ≤ (content ++ rest).length then _ else none)
    = some (content, rest)
  rw [if_pos hRoom, hPayload, List.take_left, List.drop_left]

end Acpi.PkgLength
