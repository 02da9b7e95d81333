import Acpi.Proofs.Checksum
import Acpi.Proofs.Header
import Acpi.Proofs.Table
import Acpi.Table.Check

/-!
# Sound and damaged tables

`Table.Sound` says in terms of the bytes alone what a check asks of a table, and
`Table.check_eq_ok_iff` that nothing else is asked.  Two facts about sound tables tell damage apart:

* the sum of the bytes fixes each byte, once the others are known (`Sound.byte_eq`);
* the length field stands in front of all that could be cut off or added, so of two sound tables
  neither is the start of the other (`Sound.eq_nil_of_append`).

Every table that a write finishes is sound (`sound_of_write`).
-/

namespace Acpi.Table

/-- A sound table. -/
structure Sound (table : ByteArray) : Prop where
  /-- There is room for a header. -/
  size_ge : 36 ≤ table.size
  /-- The double word at byte 4 is the length of the table. -/
  length_eq : LittleEndian.decode ((table.data.toList.drop 4).take 4) = table.size
  /-- The bytes add up to a multiple of 256. -/
  sum_eq : (table.data.toList.map UInt8.toNat).sum % 256 = 0

/-! ## Checking -/

theorem isValid_iff (table : ByteArray) :
    Checksum.isValid table = true ↔ Checksum.listSum table.data.toList = 0 := by
  rw [Checksum.isValid, Checksum.compute, Checksum.sum_eq_listSum, beq_iff_eq]
  constructor
  · intro h
    exact UInt8.neg_inj.1 (h.trans UInt8.neg_zero.symm)
  · intro h
    rw [h, UInt8.neg_zero]

/-- The length field of a header, found by its place. -/
theorem decode_length (header : Header) (rest : List UInt8) :
    LittleEndian.decode (((header.bytes ++ rest).drop 4).take 4) = header.length.toNat := by
  have hSignature : header.signature.toList.length = 4 := Vector.length_toList
  have hLength := LittleEndian.length_encode 4 header.length.toNat
  rw [Header.bytes_eq, Header.beforeChecksum]
  simp only [List.append_assoc]
  rw [List.drop_left' hSignature, List.take_left' hLength]
  exact LittleEndian.decode_encode_of_lt header.length.toNat_lt

/-- What a check asks of a table. -/
theorem check_eq_ok_iff {table : ByteArray} {header : Header} :
    check table = .ok header ↔
      Header.ofTable? table = some header ∧ header.length.toNat = table.size ∧
        Checksum.listSum table.data.toList = 0 := by
  unfold check
  cases Header.ofTable? table with
  | none => simp
  | some found =>
      by_cases hLength : found.length.toNat = table.size
      · by_cases hSum : Checksum.isValid table = true
        · simp only [hLength, ne_eq, not_true_eq_false, if_false, hSum, if_true, Except.ok.injEq,
            Option.some.injEq, (isValid_iff table).1 hSum, and_true]
          constructor
          · rintro rfl
            exact ⟨rfl, hLength⟩
          · exact And.left
        · have hNot : ¬ Checksum.listSum table.data.toList = 0 :=
            fun h => hSum ((isValid_iff table).2 h)
          simp [hLength, hSum, hNot]
      · simp only [ne_eq, hLength, not_false_eq_true, if_true, reduceCtorEq, Option.some.injEq,
          false_iff]
        rintro ⟨rfl, h, -⟩
        exact hLength h

/-- A check accepts the sound tables. -/
theorem check_ok_iff_sound (table : ByteArray) :
    (∃ header, check table = .ok header) ↔ Sound table := by
  constructor
  · rintro ⟨header, h⟩
    obtain ⟨hHeader, hLength, hSum⟩ := check_eq_ok_iff.1 h
    obtain ⟨rest, hBytes⟩ := Header.ofTable?_eq_some_iff.1 hHeader
    have hSize : table.size = 36 + rest.length := by
      show table.data.toList.length = _
      rw [hBytes, List.length_append, Header.length_bytes, Header.size]
    refine ⟨by omega, ?_, Checksum.sum_eq_iff.2 hSum⟩
    rw [hBytes, decode_length, hLength]
  · rintro ⟨hSize, hLength, hSum⟩
    have hRoom : Header.size ≤ table.data.toList.length := hSize
    obtain ⟨header, rest, hBytes⟩ := Header.exists_bytes hRoom
    rw [hBytes, decode_length] at hLength
    exact ⟨header, check_eq_ok_iff.2
      ⟨Header.ofTable?_of_bytes hBytes, hLength, Checksum.sum_eq_iff.1 hSum⟩⟩

/-- A table that is not sound is rejected. -/
theorem check_error_of_not_sound {table : ByteArray} (h : ¬ Sound table) :
    ∃ error, check table = .error error := by
  cases hCheck : check table with
  | error error => exact ⟨error, rfl⟩
  | ok header => exact absurd ((check_ok_iff_sound table).1 ⟨header, hCheck⟩) h

/-! ## Damage -/

/-- Two sound tables that agree in all places but one agree there as well. -/
theorem Sound.byte_eq {table table' : ByteArray} (h : Sound table) (h' : Sound table')
    {front back : List UInt8} {byte byte' : UInt8}
    (hBytes : table.data.toList = front ++ byte :: back)
    (hBytes' : table'.data.toList = front ++ byte' :: back) : byte = byte' := by
  have hSum := Checksum.sum_eq_iff.1 h.sum_eq
  have hSum' := Checksum.sum_eq_iff.1 h'.sum_eq
  rw [hBytes, Checksum.listSum_eq_zero_iff] at hSum
  rw [hBytes', Checksum.listSum_eq_zero_iff] at hSum'
  rw [hSum, hSum']

/-- A sound table that starts with a sound table is no longer than it. -/
theorem Sound.eq_nil_of_append {table table' : ByteArray} (h : Sound table) (h' : Sound table')
    {more : List UInt8} (hBytes : table'.data.toList = table.data.toList ++ more) : more = [] := by
  have hRoom : 8 ≤ table.data.toList.length := Nat.le_trans (by decide) h.size_ge
  have hField : (table'.data.toList.drop 4).take 4 = (table.data.toList.drop 4).take 4 := by
    rw [hBytes, List.drop_append_of_le_length (by omega),
      List.take_append_of_le_length (by rw [List.length_drop]; omega)]
  -- The length fields are the same bytes, so both tables are as long as these say.
  have hSize : table'.size = table.size := by rw [← h'.length_eq, hField, h.length_eq]
  have hLengths : table'.data.toList.length = table.data.toList.length + more.length := by
    rw [hBytes, List.length_append]
  have hSame : table'.data.toList.length = table.data.toList.length := hSize
  exact List.eq_nil_of_length_eq_zero (by omega)

theorem Sound.rejects_set {table : ByteArray} (h : Sound table) {index : Nat} {byte old : UInt8}
    (hOld : table.data.toList[index]? = some old) (hNew : byte ≠ old) :
    ∃ error, check (table.data.toList.set index byte).toByteArray = .error error := by
  apply check_error_of_not_sound
  intro hSet
  obtain ⟨hIndex, rfl⟩ := List.getElem?_eq_some_iff.1 hOld
  have hBytes := (List.take_append_drop index table.data.toList).symm
  rw [List.drop_eq_getElem_cons hIndex] at hBytes
  refine hNew (hSet.byte_eq h ?_ hBytes)
  rw [List.data_toByteArray, List.set_eq_take_append_cons_drop, if_pos hIndex]

theorem Sound.rejects_truncation {table : ByteArray} (h : Sound table) {count : Nat}
    (hShort : count < table.size) : ∃ error, check (table.extract 0 count) = .error error := by
  apply check_error_of_not_sound
  intro hFront
  have hBytes : table.data.toList =
      (table.extract 0 count).data.toList ++ table.data.toList.drop count := by
    rw [ByteArray.data_extract, Array.toList_extract, List.extract, List.drop_zero, Nat.sub_zero,
      List.take_append_drop]
  have hDropped := congrArg List.length (hFront.eq_nil_of_append h hBytes)
  rw [List.length_drop, List.length_nil] at hDropped
  have hSize : count < table.data.toList.length := hShort
  omega

theorem Sound.rejects_extension {table : ByteArray} (h : Sound table) {more : ByteArray}
    (hMore : more.size ≠ 0) : ∃ error, check (table ++ more) = .error error := by
  apply check_error_of_not_sound
  intro hLong
  have hBytes : (table ++ more).data.toList = table.data.toList ++ more.data.toList := by
    rw [ByteArray.data_append, Array.toList_append]
  exact hMore (congrArg List.length (h.eq_nil_of_append hLong hBytes))

/-! ## Finished tables -/

theorem sound_of_image {header : Header} {body : List Node} {layout : Layout} {table : ByteArray}
    (hLayout : Layout.ofBody body = .ok layout)
    (hBytes : table.data.toList = image header layout.total body) : Sound table := by
  have hSize := size_of_image hLayout hBytes
  have hTotal := Layout.total_ofBody hLayout
  unfold Header.size at hTotal
  refine ⟨by omega, ?_, ?_⟩
  · rw [hBytes, image, decode_length, hSize]
    rfl
  · rw [hBytes]
    exact Checksum.sum_eq_iff.2 (listSum_image header layout.total body)

/-- What a write finishes is the table of a block, as long as the write says. -/
theorem image_of_write {node : Node} {buffer : ByteArray} {total : Nat}
    (h : (write node buffer).result = .ok total) :
    ∃ header body layout, Layout.ofBody body = .ok layout ∧ total = layout.total.toNat ∧
      ((write node buffer).buffer.extract 0 total).data.toList =
        image header layout.total body := by
  cases node with
  | block header body =>
      obtain ⟨layout, hLayout, hTotal, -, -⟩ := write_ok_inv h
      refine ⟨header, body, layout, hLayout, hTotal, ?_⟩
      rw [ByteArray.data_extract, Array.toList_extract, List.extract, List.drop_zero, Nat.sub_zero]
      exact take_write hLayout h
  | object head fixed body => cases h
  | data bytes => cases h

theorem sound_of_write {node : Node} {buffer : ByteArray} {total : Nat}
    (h : (write node buffer).result = .ok total) :
    Sound ((write node buffer).buffer.extract 0 total) := by
  obtain ⟨header, body, layout, hLayout, -, hBytes⟩ := image_of_write h
  exact sound_of_image hLayout hBytes

theorem size_of_write {node : Node} {buffer : ByteArray} {total : Nat}
    (h : (write node buffer).result = .ok total) :
    ((write node buffer).buffer.extract 0 total).size = total := by
  obtain ⟨header, body, layout, hLayout, hTotal, hBytes⟩ := image_of_write h
  rw [size_of_image hLayout hBytes, hTotal]

end Acpi.Table
