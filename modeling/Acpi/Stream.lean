import Acpi.Error

/-!
# Bounded output

A stream writes chunks into a buffer of fixed size, from its front or from its back.  A backward
stream puts every new chunk in front of the ones before, each chunk itself unreversed.  A chunk that
does not fit is refused whole: neither the buffer nor the count of written bytes changes.

The bound `written ≤ buffer.size` is part of the type, so no position computed from it can leave the
buffer.
-/

namespace Acpi

/-- The end of the buffer at which a stream starts. -/
inductive Direction where
  | forward
  | backward
  deriving DecidableEq, Repr

/-- A buffer of which some bytes at one end have been written. -/
structure Stream where
  direction : Direction
  buffer : ByteArray
  written : Nat
  written_le : written ≤ buffer.size

namespace Stream

/-- A stream that has written nothing. -/
def fresh (direction : Direction) (buffer : ByteArray) : Stream :=
  ⟨direction, buffer, 0, Nat.zero_le _⟩

/-- The size of the buffer. -/
def capacity (stream : Stream) : Nat := stream.buffer.size

/-- The bytes that can still be written. -/
def remaining (stream : Stream) : Nat := stream.buffer.size - stream.written

/-- Where a chunk of the given size goes. -/
def position (stream : Stream) (size : Nat) : Nat :=
  match stream.direction with
  | .forward => stream.written
  | .backward => stream.buffer.size - stream.written - size

/-- Replaces the bytes of a buffer from an offset on. -/
def overwrite (buffer : ByteArray) (offset : Nat) (chunk : ByteArray) : ByteArray :=
  chunk.copySlice 0 buffer offset chunk.size

theorem size_overwrite {buffer chunk : ByteArray} {offset : Nat}
    (h : offset + chunk.size ≤ buffer.size) :
    (overwrite buffer offset chunk).size = buffer.size := by
  simp only [ByteArray.size] at h
  simp only [overwrite, ByteArray.copySlice, ByteArray.size, Array.size_append, Array.size_extract]
  omega

theorem position_add_le {stream : Stream} {size : Nat} (h : size ≤ stream.remaining) :
    stream.position size + size ≤ stream.buffer.size := by
  have := stream.written_le
  simp only [remaining] at h
  simp only [position]
  split <;> omega

/-- Writes a chunk that fits. -/
def put (stream : Stream) (chunk : ByteArray) (h : chunk.size ≤ stream.remaining) : Stream where
  direction := stream.direction
  buffer := overwrite stream.buffer (stream.position chunk.size) chunk
  written := stream.written + chunk.size
  written_le := by
    have := stream.written_le
    rw [size_overwrite (position_add_le h)]
    simp only [remaining] at h
    omega

/-- Writes a chunk, or refuses it whole. -/
def write (chunk : ByteArray) : EStateM EncodeError Stream Unit := fun stream =>
  if h : chunk.size ≤ stream.remaining then
    .ok () (stream.put chunk h)
  else
    .error .bufferTooSmall stream

/-- Writes one byte. -/
def writeByte (byte : UInt8) : EStateM EncodeError Stream Unit :=
  write (ByteArray.empty.push byte)

/-- The bytes written so far, in the order in which they stand in the buffer. -/
def contents (stream : Stream) : ByteArray :=
  match stream.direction with
  | .forward => stream.buffer.extract 0 stream.written
  | .backward => stream.buffer.extract (stream.buffer.size - stream.written) stream.buffer.size

end Stream

end Acpi
