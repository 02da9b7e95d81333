import Acpi.Stream

/-!
# Chunks and runs of chunks

A forward stream does not show where one chunk ended and the next began: two chunks leave the same
stream as one chunk with the bytes of both (`put_append`).  So a whole run of chunks can be replaced
by a single one, and what a single chunk does to the buffer is one equation (`toList_put_forward`).
-/

namespace Acpi.Stream

/-! ## Overwriting a part of a buffer -/

/-- Overwriting puts the chunk between what stands in front of it and what stands behind it. -/
theorem toList_overwrite (buffer : ByteArray) (offset : Nat) (chunk : ByteArray) :
    (overwrite buffer offset chunk).data.toList =
      buffer.data.toList.take offset ++ chunk.data.toList ++
        buffer.data.toList.drop (offset + chunk.size) := by
  have hChunk : chunk.data.toList.take chunk.size = chunk.data.toList := by
    rw [List.take_of_length_le]
    exact Nat.le_of_eq Array.length_toList
  have hRest : (buffer.data.toList.drop (offset + chunk.size)).take
      (buffer.size - (offset + chunk.size)) = buffer.data.toList.drop (offset + chunk.size) := by
    rw [List.take_of_length_le]
    rw [List.length_drop, Array.length_toList]
    exact Nat.le_refl _
  unfold overwrite
  rw [ByteArray.copySlice_eq_append]
  simp only [ByteArray.data_append, ByteArray.data_extract, Array.toList_append,
    Array.toList_extract, List.extract, ByteArray.size_data, Nat.sub_zero, Nat.zero_add,
    List.drop_zero, Nat.min_self, hChunk, hRest]

/-- Adjacent overwrites are one overwrite. -/
theorem overwrite_append {buffer : ByteArray} {offset : Nat} {first second : ByteArray}
    (h : offset ≤ buffer.size) :
    overwrite (overwrite buffer offset first) (offset + first.size) second =
      overwrite buffer offset (first ++ second) := by
  apply ByteArray.ext
  apply Array.toList_inj.1
  have hFront : (buffer.data.toList.take offset ++ first.data.toList).length =
      offset + first.size := by
    rw [List.length_append, List.length_take, Array.length_toList, Array.length_toList]
    simp only [ByteArray.size] at h ⊢
    omega
  rw [toList_overwrite, toList_overwrite, toList_overwrite, List.take_left' hFront,
    ← List.drop_drop, List.drop_left' hFront, List.drop_drop, ByteArray.data_append,
    Array.toList_append, ByteArray.size_append, Nat.add_assoc]
  simp only [List.append_assoc]

/-! ## Writing -/

theorem eq_of_fields {stream other : Stream} (hDirection : stream.direction = other.direction)
    (hBuffer : stream.buffer = other.buffer) (hWritten : stream.written = other.written) :
    stream = other := by
  cases stream
  cases other
  cases hDirection
  cases hBuffer
  cases hWritten
  rfl

theorem write_of_le {stream : Stream} {chunk : ByteArray} (h : chunk.size ≤ stream.remaining) :
    write chunk stream = .ok () (stream.put chunk h) := by
  rw [write, dif_pos h]

theorem remaining_put {stream : Stream} {chunk : ByteArray} (h : chunk.size ≤ stream.remaining) :
    (stream.put chunk h).remaining = stream.remaining - chunk.size := by
  show (overwrite stream.buffer (stream.position chunk.size) chunk).size -
    (stream.written + chunk.size) = stream.buffer.size - stream.written - chunk.size
  rw [size_overwrite (position_add_le h)]
  omega

/-- Writing nothing changes nothing. -/
theorem write_empty (stream : Stream) : write ByteArray.empty stream = .ok () stream := by
  rw [write_of_le (Nat.zero_le _)]
  congr 1
  apply eq_of_fields
  · rfl
  · show overwrite stream.buffer _ ByteArray.empty = stream.buffer
    apply ByteArray.ext
    apply Array.toList_inj.1
    rw [toList_overwrite]
    simp
  · rfl

theorem position_of_forward {stream : Stream} (hForward : stream.direction = .forward)
    (size : Nat) : stream.position size = stream.written := by
  rw [position, hForward]

/-- On a forward stream, two chunks leave what one chunk with the bytes of both leaves. -/
theorem put_append {stream : Stream} (hForward : stream.direction = .forward)
    {bytes more : List UInt8} (h : (bytes ++ more).toByteArray.size ≤ stream.remaining) :
    ∃ (hFirst : bytes.toByteArray.size ≤ stream.remaining)
      (hSecond : more.toByteArray.size ≤ (stream.put bytes.toByteArray hFirst).remaining),
      (stream.put bytes.toByteArray hFirst).put more.toByteArray hSecond =
        stream.put (bytes ++ more).toByteArray h := by
  have hSizes : bytes.toByteArray.size + more.toByteArray.size ≤ stream.remaining := by
    rw [← ByteArray.size_append, ← List.toByteArray_append]
    exact h
  have hFirst : bytes.toByteArray.size ≤ stream.remaining := by omega
  have hSecond : more.toByteArray.size ≤ (stream.put bytes.toByteArray hFirst).remaining := by
    rw [remaining_put]
    omega
  have hForward' : (stream.put bytes.toByteArray hFirst).direction = .forward := hForward
  have hPosition : (stream.put bytes.toByteArray hFirst).position more.toByteArray.size =
      stream.written + bytes.toByteArray.size :=
    position_of_forward hForward' more.toByteArray.size
  refine ⟨hFirst, hSecond, eq_of_fields rfl ?_ ?_⟩
  · show overwrite (overwrite stream.buffer (stream.position bytes.toByteArray.size)
      bytes.toByteArray) ((stream.put bytes.toByteArray hFirst).position more.toByteArray.size)
        more.toByteArray =
      overwrite stream.buffer (stream.position (bytes ++ more).toByteArray.size)
        (bytes ++ more).toByteArray
    rw [hPosition, position_of_forward hForward, position_of_forward hForward,
      overwrite_append stream.written_le, List.toByteArray_append]
  · show stream.written + bytes.toByteArray.size + more.toByteArray.size =
      stream.written + (bytes ++ more).toByteArray.size
    rw [List.toByteArray_append, ByteArray.size_append, Nat.add_assoc]

/-- A chunk on a forward stream moves the cursor by its size and replaces the bytes that it
passes. -/
theorem toList_put_forward {stream : Stream} (hForward : stream.direction = .forward)
    {chunk : ByteArray} (h : chunk.size ≤ stream.remaining) :
    (stream.put chunk h).buffer.data.toList =
      stream.buffer.data.toList.take stream.written ++ chunk.data.toList ++
        stream.buffer.data.toList.drop (stream.written + chunk.size) := by
  show (overwrite stream.buffer (stream.position chunk.size) chunk).data.toList = _
  rw [position_of_forward hForward, toList_overwrite]

/-- A chunk as large as the buffer takes its place. -/
theorem put_fresh_of_size_eq {buffer chunk : ByteArray} (hSize : chunk.size = buffer.size)
    (h : chunk.size ≤ (fresh .forward buffer).remaining) :
    ((fresh .forward buffer).put chunk h).buffer = chunk ∧
      ((fresh .forward buffer).put chunk h).remaining = 0 := by
  constructor
  · apply ByteArray.ext
    apply Array.toList_inj.1
    have hAll : buffer.data.toList.length ≤ 0 + chunk.size := by
      rw [Array.length_toList, Nat.zero_add]
      exact Nat.le_of_eq hSize.symm
    rw [toList_put_forward rfl]
    show buffer.data.toList.take 0 ++ chunk.data.toList ++
      buffer.data.toList.drop (0 + chunk.size) = chunk.data.toList
    rw [List.take_zero, List.drop_eq_nil_of_le hAll, List.nil_append, List.append_nil]
  · rw [remaining_put]
    show buffer.size - 0 - chunk.size = 0
    omega

end Acpi.Stream
