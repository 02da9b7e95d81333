import Acpi.Proofs.CheckedWriter

/-!
# The places of the fields of a header

A header is written field by field to fixed places and read back field by field.  Its nine places
join without a gap (`Header.joined_places`), and that alone decides where everything stands: in
bytes that are put together from joining fields each field is found at its place
(`Cursor.Joined.window_eq`), and every byte belongs to one field only
(`Cursor.Joined.existsUnique_place`).

So reading and writing undo each other in both directions: a header is read back from whatever
starts with its bytes, and whatever a header is read from starts with its bytes.  It makes no
difference whether the fields are taken off the front or each is read at its offset
(`Header.readAt?_eq`).

Main result: `Header.places_tile`.
-/

namespace Acpi

/-! ## Fields that join -/

namespace Cursor.Joined

variable {first last : Nat} {fields : List (Nat × Nat × List UInt8)}

/-- Every place is as long as its field and lies between the first and the last. -/
theorem bounds (h : Joined first fields last) :
    ∀ entry ∈ fields,
      first ≤ entry.1 ∧ entry.1 + entry.2.2.length = entry.2.1 ∧ entry.2.1 ≤ last := by
  induction fields generalizing first with
  | nil => simp
  | cons entry fields ih =>
      obtain ⟨rfl, hStop, hFields⟩ := h
      have hLe := hFields.le
      have hRest := ih hFields
      intro other hMem
      rcases List.mem_cons.1 hMem with rfl | hMem
      · exact ⟨Nat.le_refl _, hStop, hLe⟩
      · obtain ⟨hStart, hPlace, hEnd⟩ := hRest other hMem
        exact ⟨by omega, hPlace, hEnd⟩

/-- Fields that join are found at their places, whatever follows the last one. -/
theorem window_eq (h : Joined first fields last) (rest : List UInt8) :
    ∀ entry ∈ fields,
      (((fields.flatMap fun entry => entry.2.2) ++ rest).drop (entry.1 - first)).take
        (entry.2.1 - entry.1) = entry.2.2 := by
  induction fields generalizing first with
  | nil => simp
  | cons entry fields ih =>
      obtain ⟨start, stop, field⟩ := entry
      obtain ⟨rfl, hStop, hFields⟩ := h
      intro other hMem
      rw [List.flatMap_cons, List.append_assoc]
      rcases List.mem_cons.1 hMem with rfl | hMem
      · simp only [Nat.sub_self, List.drop_zero]
        exact List.take_left' (by omega)
      · -- The first field is skipped as a whole, and the others are counted from its end.
        have hStart := (hFields.bounds other hMem).1
        have hSkip : other.1 - start = field.length + (other.1 - stop) := by omega
        simp only
        rw [hSkip, ← List.drop_drop, List.drop_left]
        exact ih hFields other hMem

/-- Every byte between the first place and the last belongs to exactly one of the places. -/
theorem existsUnique_place (h : Joined first fields last) {i : Nat} (hFirst : first ≤ i)
    (hLast : i < last) :
    ∃! k : Nat, ∃ start stop field,
      fields[k]? = some (start, stop, field) ∧ start ≤ i ∧ i < stop := by
  induction fields generalizing first with
  | nil =>
      have hEnd : first = last := h
      omega
  | cons entry fields ih =>
      obtain ⟨start, stop, field⟩ := entry
      obtain ⟨rfl, hStop, hFields⟩ := h
      by_cases hHere : i < stop
      · refine ⟨0, ⟨start, stop, field, rfl, hFirst, hHere⟩, ?_⟩
        rintro (_ | k) ⟨start', stop', field', hOther, hLe, -⟩
        · rfl
        · have hBehind : stop ≤ start' := (hFields.bounds _ (List.mem_of_getElem? hOther)).1
          omega
      · obtain ⟨k, hBelongs, hUnique⟩ := ih hFields (Nat.le_of_not_lt hHere)
        refine ⟨k + 1, hBelongs, ?_⟩
        rintro (_ | k') ⟨start', stop', field', hOther, hLe, hLt⟩
        · cases hOther
          omega
        · rw [hUnique k' ⟨start', stop', field', hOther, hLe, hLt⟩]

end Cursor.Joined

/-! ## Headers -/

namespace Header

/-- In a table that starts with a header every field of the header stands at its place. -/
theorem extract_place {table : ByteArray} {header : Header} {rest : List UInt8}
    (h : table.data.toList = header.bytes ++ rest) :
    ∀ place ∈ header.places,
      (table.extract place.1 place.2.1).data.toList = place.2.2 := by
  intro place hMem
  rw [ByteArray.data_extract, Array.toList_extract, List.extract, h, ← header.flatMap_places]
  exact header.joined_places.window_eq rest place hMem

theorem ofTable?_of_le {table : ByteArray} (h : size ≤ table.size) :
    ∃ header rest, ofTable? table = some header ∧ table.data.toList = header.bytes ++ rest := by
  obtain ⟨header, rest, hBytes⟩ := exists_bytes (show size ≤ table.data.toList.length from h)
  exact ⟨header, rest, ofTable?_of_bytes hBytes, hBytes⟩

theorem ofTable?_eq_none_iff {table : ByteArray} : ofTable? table = none ↔ table.size < size := by
  constructor
  · intro hNone
    by_contra hLong
    obtain ⟨header, rest, hSome, -⟩ := ofTable?_of_le (Nat.le_of_not_lt hLong)
    rw [hNone] at hSome
    cases hSome
  · intro hShort
    rw [Option.eq_none_iff_forall_ne_some]
    intro header hSome
    obtain ⟨rest, hBytes⟩ := ofTable?_eq_some_iff.1 hSome
    have hSize : table.size = (header.bytes ++ rest).length := by rw [← hBytes]; rfl
    rw [List.length_append, length_bytes] at hSize
    omega

/-! ## Reading by offsets -/

/-- The bytes from an offset on, copied to where there is room for just so many. -/
def bytesAt? (data : ByteArray) (offset count : Nat) : Option (Vector UInt8 count) := do
  let chunk ← Cursor.slice? data offset (offset + count)
  if h : chunk.data.size = count then some ⟨chunk.data, h⟩ else none

/-- The double word at an offset, put together from its four bytes. -/
def dwordAt? (data : ByteArray) (offset : Nat) : Option UInt32 := do
  let word := [← data.data[offset]?, ← data.data[offset + 1]?, ← data.data[offset + 2]?,
    ← data.data[offset + 3]?]
  return UInt32.ofNat (LittleEndian.decode word)

/-- The fields of a header, each read at its offset. -/
def fieldsAt? (data : ByteArray) : Option Header := do
  let signature ← bytesAt? data 0 4
  let oemId ← bytesAt? data 10 6
  let oemTableId ← bytesAt? data 16 8
  return {
    signature
    length := ← dwordAt? data 4
    revision := ← data.data[8]?
    checksum := ← data.data[9]?
    oemId
    oemTableId
    oemRevision := ← dwordAt? data 24
    creatorId := ← dwordAt? data 28
    creatorRevision := ← dwordAt? data 32 }

/-- The header at the front of a table.  Every index is checked, and a check that fails ends the
reading with `none`; that the table is too short for a header is no failure. -/
def readAt? (table : ByteArray) : Option (Option Header) :=
  match Cursor.slice? table 0 36 with
  | none => some none
  | some data => (fieldsAt? data).map some

section Offsets

variable {data : ByteArray} {offset stop : Nat}

theorem getElem?_of_extract {field : List UInt8}
    (h : (data.extract offset stop).data.toList = field) {i : Nat} (hi : i < field.length) :
    data.data[offset + i]? = field[i]? := by
  have hStop : i < stop - offset := by
    rw [← h, ByteArray.data_extract, Array.toList_extract, List.extract, List.length_take] at hi
    omega
  rw [← h, ByteArray.data_extract, Array.toList_extract, List.extract,
    List.getElem?_take_of_lt hStop, List.getElem?_drop, Array.getElem?_toList]

theorem bytesAt?_of_extract {count : Nat} {field : Vector UInt8 count}
    (h : (data.extract offset (offset + count)).data.toList = field.toList)
    (hSize : offset + count ≤ data.size) : bytesAt? data offset count = some field := by
  have hChunk : (data.extract offset (offset + count)).data = field.toArray :=
    Array.toList_inj.1 h
  have hCount : (data.extract offset (offset + count)).data.size = count := by
    rw [hChunk, Vector.size_toArray]
  rw [bytesAt?, Cursor.slice?, if_pos ⟨Nat.le_add_right _ _, hSize⟩]
  show dite _ _ _ = _
  rw [dif_pos hCount]
  exact congrArg some (Vector.toArray_inj.1 hChunk)

theorem dwordAt?_of_extract {word : UInt32}
    (h : (data.extract offset stop).data.toList = LittleEndian.encode 4 word.toNat) :
    dwordAt? data offset = some word := by
  have hByte (i : Nat) (hi : i < 4) : data.data[offset + i]? =
      (LittleEndian.encode 4 word.toNat)[i]? :=
    getElem?_of_extract h (by rwa [LittleEndian.length_encode])
  have hFirst : data.data[offset]? = (LittleEndian.encode 4 word.toNat)[0]? :=
    hByte 0 (by decide)
  rw [dwordAt?, hFirst, hByte 1 (by decide), hByte 2 (by decide), hByte 3 (by decide)]
  exact congrArg some (ofNat_decode_encode word)

theorem fieldsAt?_of_bytes {header : Header} (h : data.data.toList = header.bytes) :
    fieldsAt? data = some header := by
  have hSize : data.size = 36 := (congrArg List.length h).trans header.length_bytes
  have hPlaces := extract_place (h.trans (List.append_nil _).symm)
  simp only [places, List.forall_mem_cons, checksumOffset] at hPlaces
  obtain ⟨hSignature, hLength, hRevision, hChecksum, hOemId, hOemTableId, hOemRevision, hCreatorId,
    hCreatorRevision, -⟩ := hPlaces
  have hSignature : bytesAt? data 0 4 = some header.signature :=
    bytesAt?_of_extract hSignature (by omega)
  have hOemId : bytesAt? data 10 6 = some header.oemId := bytesAt?_of_extract hOemId (by omega)
  have hOemTableId : bytesAt? data 16 8 = some header.oemTableId :=
    bytesAt?_of_extract hOemTableId (by omega)
  have hRevision : data.data[8]? = some header.revision :=
    getElem?_of_extract hRevision (i := 0) (by simp)
  have hChecksum : data.data[9]? = some header.checksum :=
    getElem?_of_extract hChecksum (i := 0) (by simp)
  simp only [fieldsAt?, hSignature, hOemId, hOemTableId, dwordAt?_of_extract hLength,
    hRevision, hChecksum, dwordAt?_of_extract hOemRevision, dwordAt?_of_extract hCreatorId,
    dwordAt?_of_extract hCreatorRevision, Option.bind_eq_bind, Option.bind_some]
  rfl

end Offsets

/-- **Reading by offsets.**  No check fails, and what is read is the header that taking the fields
off the front one after the other gives. -/
theorem readAt?_eq (table : ByteArray) : readAt? table = some (ofTable? table) := by
  by_cases hSize : 36 ≤ table.size
  · obtain ⟨header, rest, hRead, hBytes⟩ := ofTable?_of_le hSize
    have hFront : (table.extract 0 36).data.toList = header.bytes := by
      rw [ByteArray.data_extract, Array.toList_extract, List.extract, hBytes]
      exact List.take_left' header.length_bytes
    rw [readAt?, Cursor.slice?, if_pos ⟨Nat.zero_le _, hSize⟩, hRead]
    show (fieldsAt? (table.extract 0 36)).map some = _
    rw [fieldsAt?_of_bytes hFront, Option.map_some]
  · have hNone := ofTable?_eq_none_iff.2 (Nat.lt_of_not_le hSize)
    rw [readAt?, Cursor.slice?, if_neg fun h => hSize h.2, hNone]

/-- **The fields of a header tile its bytes.**  A header is read back from anything that starts with
its bytes.  A header can be read exactly if there are 36 bytes; then its bytes are the first 36, and
each of its fields is what stands at the place of that field.  Reading the fields at their offsets
never leaves the bytes and gives the same header.  Copying the nine fields to their places gives the
bytes of a header, each field has as many bytes as its place, and each of the 36 bytes belongs to
one of the places and to no other. -/
theorem places_tile :
    (∀ (header : Header) (rest : ByteArray),
      ofTable? (header.bytes.toByteArray ++ rest) = some header) ∧
    (∀ table : ByteArray, ofTable? table = none ↔ table.size < 36) ∧
    (∀ table : ByteArray, readAt? table = some (ofTable? table)) ∧
    (∀ table : ByteArray, 36 ≤ table.size → ∃ header, ofTable? table = some header ∧
      header.bytes = table.data.toList.take 36 ∧
      ∀ start stop field, (start, stop, field) ∈ header.places →
        (table.extract start stop).data.toList = field) ∧
    ∀ header : Header, header.bytes? = some header.bytes.toByteArray ∧
      header.places.length = 9 ∧
      (∀ start stop field, (start, stop, field) ∈ header.places →
        start + field.length = stop ∧ stop ≤ 36) ∧
      ∀ i < 36, ∃! k : Nat, ∃ start stop field,
        header.places[k]? = some (start, stop, field) ∧ start ≤ i ∧ i < stop := by
  refine ⟨fun header rest => ?_, fun table => ofTable?_eq_none_iff, readAt?_eq,
    fun table hSize => ?_, fun header => ⟨header.bytes?_eq, rfl, ?_, fun i hi => ?_⟩⟩
  · apply ofTable?_of_bytes
    show _ = header.bytes ++ rest.data.toList
    simp
  · obtain ⟨header, rest, hRead, hBytes⟩ := ofTable?_of_le hSize
    have hPlaces := extract_place hBytes
    refine ⟨header, hRead, ?_, fun start stop field hMem => hPlaces (start, stop, field) hMem⟩
    rw [hBytes]
    exact (List.take_left' header.length_bytes).symm
  · intro start stop field hMem
    exact (header.joined_places.bounds _ hMem).2
  · exact header.joined_places.existsUnique_place (Nat.zero_le i) hi

end Header

end Acpi
