import Acpi.Table.Header

/-!
# Headers in bytes

The nine fields of a header fill its 36 bytes in order and without gaps.  So a header can be read
back from the front of any bytes that start with it (`ofTable?_of_bytes`), and the two fields that
the table writer fills in stand at fixed places: changing them changes bytes 4 to 7 and byte 9 and
no others (`bytes_patched`, `getElem?_patched`).
-/

namespace Acpi

/-- Another segment of the same length changes nothing outside of it. -/
theorem getElem?_segment {α : Type} {front segment segment' : List α} (back : List α)
    (hLength : segment'.length = segment.length) {i : Nat}
    (hOutside : i < front.length ∨ front.length + segment.length ≤ i) :
    (front ++ segment' ++ back)[i]? = (front ++ segment ++ back)[i]? := by
  rw [List.append_assoc, List.append_assoc]
  rcases hOutside with hFront | hBack
  · rw [List.getElem?_append_left hFront, List.getElem?_append_left hFront]
  · rw [List.getElem?_append_right (by omega), List.getElem?_append_right (by omega),
      List.getElem?_append_right (by omega), List.getElem?_append_right (by omega), hLength]

namespace Header

theorem length_bytes (header : Header) : header.bytes.length = size := by
  simp [bytes, size]

/-! ## Reading back -/

theorem take?_append {count : Nat} (word : Vector UInt8 count) (rest : List UInt8) :
    take? count (word.toList ++ rest) = some (word, rest) := by
  have hLength : word.toList.length = count := Vector.length_toList
  have hFits : count ≤ (word.toList ++ rest).length := by
    rw [List.length_append]
    omega
  unfold take?
  rw [dif_pos hFits]
  simp only [List.take_left' hLength, List.drop_left' hLength]
  rfl

theorem ofNat_decode_encode (word : UInt32) :
    UInt32.ofNat (LittleEndian.decode (LittleEndian.encode 4 word.toNat)) = word := by
  rw [LittleEndian.decode_encode_of_lt word.toNat_lt, UInt32.ofNat_toNat]

theorem takeDword?_append (word : UInt32) (rest : List UInt8) :
    takeDword? (LittleEndian.encode 4 word.toNat ++ rest) = some (word, rest) := by
  have hLength : (LittleEndian.encode 4 word.toNat).toArray.size = 4 := by
    rw [List.size_toArray, LittleEndian.length_encode]
  have hTake := take?_append ⟨(LittleEndian.encode 4 word.toNat).toArray, hLength⟩ rest
  unfold takeDword?
  rw [show LittleEndian.encode 4 word.toNat =
    (⟨(LittleEndian.encode 4 word.toNat).toArray, hLength⟩ : Vector UInt8 4).toList from rfl, hTake]
  exact congrArg (fun word => some (word, rest)) (ofNat_decode_encode word)

theorem read?_bytes (header : Header) (rest : List UInt8) :
    read? (header.bytes ++ rest) = some header := by
  unfold read? bytes
  simp only [List.append_assoc, List.cons_append, List.nil_append, take?_append,
    takeDword?_append, takeByte?, Option.bind_eq_bind, Option.bind_some]
  rfl

/-- A table that starts with the bytes of a header gives the header back. -/
theorem ofTable?_of_bytes {table : ByteArray} {header : Header} {rest : List UInt8}
    (h : table.data.toList = header.bytes ++ rest) : ofTable? table = some header := by
  have hFront : (table.extract 0 size).data.toList = header.bytes := by
    rw [ByteArray.data_extract, Array.toList_extract, List.extract, List.drop_zero, Nat.sub_zero, h,
      List.take_left' header.length_bytes]
  rw [ofTable?, hFront]
  simpa using read?_bytes header []

/-! ## Bytes that hold a header -/

theorem exists_vector (count : Nat) {bytes : List UInt8} (h : count ≤ bytes.length) :
    ∃ (word : Vector UInt8 count) (rest : List UInt8), bytes = word.toList ++ rest :=
  ⟨⟨(bytes.take count).toArray, by simp [h]⟩, bytes.drop count,
    (List.take_append_drop count bytes).symm⟩

theorem exists_dword {bytes : List UInt8} (h : 4 ≤ bytes.length) :
    ∃ (word : UInt32) (rest : List UInt8),
      bytes = LittleEndian.encode 4 word.toNat ++ rest := by
  obtain ⟨word, rest, rfl⟩ := exists_vector 4 h
  have hLength : word.toList.length = 4 := Vector.length_toList
  have hDecode : LittleEndian.decode word.toList < UInt32.size := by
    have hLt := LittleEndian.decode_lt word.toList
    rwa [hLength] at hLt
  refine ⟨UInt32.ofNat (LittleEndian.decode word.toList), rest, ?_⟩
  have hEncode := LittleEndian.encode_decode word.toList
  rw [hLength] at hEncode
  rw [UInt32.toNat_ofNat_of_lt' hDecode, hEncode]

/-- Bytes with room for a header start with the bytes of one. -/
theorem exists_bytes {bytes : List UInt8} (h : size ≤ bytes.length) :
    ∃ (header : Header) (rest : List UInt8), bytes = header.bytes ++ rest := by
  unfold size at h
  -- One field after the other is taken off the front, and what is left has room for the others.
  obtain ⟨signature, bytes, rfl⟩ := exists_vector 4 (show 4 ≤ bytes.length by omega)
  rw [List.length_append, Vector.length_toList] at h
  obtain ⟨length, bytes, rfl⟩ := exists_dword (show 4 ≤ bytes.length by omega)
  rw [List.length_append, LittleEndian.length_encode] at h
  obtain ⟨flags, bytes, rfl⟩ := exists_vector 2 (show 2 ≤ bytes.length by omega)
  rw [List.length_append, Vector.length_toList] at h
  obtain ⟨oemId, bytes, rfl⟩ := exists_vector 6 (show 6 ≤ bytes.length by omega)
  rw [List.length_append, Vector.length_toList] at h
  obtain ⟨oemTableId, bytes, rfl⟩ := exists_vector 8 (show 8 ≤ bytes.length by omega)
  rw [List.length_append, Vector.length_toList] at h
  obtain ⟨oemRevision, bytes, rfl⟩ := exists_dword (show 4 ≤ bytes.length by omega)
  rw [List.length_append, LittleEndian.length_encode] at h
  obtain ⟨creatorId, bytes, rfl⟩ := exists_dword (show 4 ≤ bytes.length by omega)
  rw [List.length_append, LittleEndian.length_encode] at h
  obtain ⟨creatorRevision, bytes, rfl⟩ := exists_dword (show 4 ≤ bytes.length by omega)
  have hFlags : flags.toList = [flags[0], flags[1]] := by
    obtain ⟨⟨flags⟩, hSize⟩ := flags
    match flags, hSize with
    | [revision, checksum], _ => rfl
  refine ⟨⟨signature, length, flags[0], flags[1], oemId, oemTableId, oemRevision, creatorId,
    creatorRevision⟩, bytes, ?_⟩
  rw [hFlags]
  simp only [Header.bytes, List.append_assoc, List.cons_append, List.nil_append]

theorem length_of_take? {count : Nat} {bytes rest : List UInt8} {word : Vector UInt8 count}
    (h : take? count bytes = some (word, rest)) : bytes.length = count + rest.length := by
  unfold take? at h
  split at h
  · rename_i hFits
    cases h
    rw [List.length_drop]
    omega
  · cases h

theorem length_of_takeDword? {bytes rest : List UInt8} {word : UInt32}
    (h : takeDword? bytes = some (word, rest)) : bytes.length = 4 + rest.length := by
  obtain ⟨⟨found, rest⟩, hTake, ⟨⟩⟩ := Option.bind_eq_some_iff.mp h
  exact length_of_take? hTake

theorem length_of_takeByte? {bytes rest : List UInt8} {byte : UInt8}
    (h : takeByte? bytes = some (byte, rest)) : bytes.length = 1 + rest.length := by
  cases bytes with
  | nil => cases h
  | cons first bytes =>
      cases h
      rw [List.length_cons, Nat.add_comm]

/-- Bytes that a header is read from have room for one. -/
theorem size_le_of_read? {bytes : List UInt8} {header : Header} (h : read? bytes = some header) :
    size ≤ bytes.length := by
  unfold read? at h
  simp only [Option.bind_eq_bind, Option.bind_eq_some_iff, Prod.exists] at h
  obtain ⟨_, _, hSignature, _, _, hLength, _, _, hRevision, _, _, hChecksum, _, _, hOemId, _, _,
    hOemTableId, _, _, hOemRevision, _, _, hCreatorId, _, _, hCreatorRevision, _⟩ := h
  rw [length_of_take? hSignature, length_of_takeDword? hLength, length_of_takeByte? hRevision,
    length_of_takeByte? hChecksum, length_of_take? hOemId, length_of_take? hOemTableId,
    length_of_takeDword? hOemRevision, length_of_takeDword? hCreatorId,
    length_of_takeDword? hCreatorRevision, size]
  omega

/-- A table gives a header exactly if it starts with the bytes of it. -/
theorem ofTable?_eq_some_iff {table : ByteArray} {header : Header} :
    ofTable? table = some header ↔ ∃ rest, table.data.toList = header.bytes ++ rest := by
  constructor
  · intro h
    have hSize : size ≤ table.data.toList.length := by
      have hFront := size_le_of_read? h
      rw [ByteArray.data_extract, Array.toList_extract, List.extract, List.length_take] at hFront
      simp only [List.drop_zero] at hFront
      omega
    obtain ⟨found, rest, hBytes⟩ := exists_bytes hSize
    rw [ofTable?_of_bytes hBytes] at h
    cases h
    exact ⟨rest, hBytes⟩
  · rintro ⟨rest, hBytes⟩
    exact ofTable?_of_bytes hBytes

/-! ## The two fields that are filled in -/

/-- The bytes in front of the checksum. -/
def beforeChecksum (header : Header) : List UInt8 :=
  header.signature.toList ++ LittleEndian.encode 4 header.length.toNat ++ [header.revision]

/-- The bytes of a header behind the checksum. -/
def afterChecksum (header : Header) : List UInt8 :=
  header.oemId.toList ++ header.oemTableId.toList ++
    LittleEndian.encode 4 header.oemRevision.toNat ++
    LittleEndian.encode 4 header.creatorId.toNat ++
    LittleEndian.encode 4 header.creatorRevision.toNat

theorem bytes_eq (header : Header) :
    header.bytes = header.beforeChecksum ++ header.checksum :: header.afterChecksum := by
  simp only [bytes, beforeChecksum, afterChecksum, List.append_assoc, List.cons_append,
    List.nil_append]

theorem length_beforeChecksum (header : Header) :
    header.beforeChecksum.length = checksumOffset := by
  simp [beforeChecksum, checksumOffset]

/-- The length field stands at offset 4. -/
theorem take_four_drop_four (header : Header) (rest : List UInt8) :
    ((header.bytes ++ rest).drop 4).take 4 = LittleEndian.encode 4 header.length.toNat := by
  have hSignature : header.signature.toList.length = 4 := Vector.length_toList
  have hLength : (LittleEndian.encode 4 header.length.toNat).length = 4 :=
    LittleEndian.length_encode _ _
  simp only [bytes, List.append_assoc]
  rw [List.drop_left' hSignature, List.take_left' hLength]

/-- Another length and another checksum change bytes 4 to 7 and byte 9, and no others. -/
theorem bytes_patched (header : Header) (length : UInt32) (checksum : UInt8) :
    Header.bytes { header with length, checksum } =
      header.bytes.take 4 ++ LittleEndian.encode 4 length.toNat ++ (header.bytes.drop 8).take 1 ++
        [checksum] ++ header.bytes.drop 10 := by
  have hBytes : header.bytes = header.signature.toList ++
      (LittleEndian.encode 4 header.length.toNat ++
        header.revision :: header.checksum :: header.afterChecksum) := by
    rw [bytes_eq, beforeChecksum]
    simp only [List.append_assoc, List.cons_append, List.nil_append]
  have hSignature : header.signature.toList.length = 4 := Vector.length_toList
  have hLength : (LittleEndian.encode 4 header.length.toNat).length = 4 :=
    LittleEndian.length_encode _ _
  have hTake : header.bytes.take 4 = header.signature.toList := by
    rw [hBytes, List.take_left' hSignature]
  have hDrop : header.bytes.drop 8 =
      header.revision :: header.checksum :: header.afterChecksum := by
    rw [hBytes, show 8 = 4 + 4 from rfl, ← List.drop_drop, List.drop_left' hSignature,
      List.drop_left' hLength]
  have hRest : header.bytes.drop 10 = header.afterChecksum := by
    rw [show 10 = 8 + 2 from rfl, ← List.drop_drop, hDrop]
    rfl
  rw [hTake, hDrop, hRest, bytes_eq, beforeChecksum]
  simp only [afterChecksum, List.append_assoc, List.cons_append, List.nil_append,
    List.take_succ_cons, List.take_zero]

/-- Outside of the two fields a header with another length and another checksum has the same
bytes. -/
theorem getElem?_patched (header : Header) (length : UInt32) (checksum : UInt8) {i : Nat}
    (h : i < 4 ∨ i = 8 ∨ 10 ≤ i) :
    (Header.bytes { header with length, checksum })[i]? = header.bytes[i]? := by
  have hSignature : header.signature.toList.length = 4 := Vector.length_toList
  -- First the length is replaced, and then the checksum behind it.
  calc (Header.bytes { header with length, checksum })[i]?
      = (header.signature.toList ++ LittleEndian.encode 4 length.toNat ++
          (header.revision :: checksum :: header.afterChecksum))[i]? := by
        simp only [bytes_eq, beforeChecksum, afterChecksum, List.append_assoc, List.cons_append,
          List.nil_append]
    _ = (header.signature.toList ++ LittleEndian.encode 4 header.length.toNat ++
          (header.revision :: checksum :: header.afterChecksum))[i]? := by
        apply getElem?_segment _ (by simp)
        rw [hSignature, LittleEndian.length_encode]
        omega
    _ = (header.beforeChecksum ++ [checksum] ++ header.afterChecksum)[i]? := by
        simp only [beforeChecksum, List.append_assoc, List.cons_append, List.nil_append]
    _ = (header.beforeChecksum ++ [header.checksum] ++ header.afterChecksum)[i]? := by
        apply getElem?_segment _ (by simp)
        rw [length_beforeChecksum, checksumOffset, List.length_singleton]
        omega
    _ = header.bytes[i]? := by rw [bytes_eq, List.append_assoc, List.singleton_append]

end Header

end Acpi
