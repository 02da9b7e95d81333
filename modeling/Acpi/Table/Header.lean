import Acpi.LittleEndian

/-!
# Table headers

Every table starts with the same 36 bytes: a signature, the length of the whole table, revisions,
identifiers and a checksum.  `bytes` lays the nine fields out in order without gaps, and `read?`
takes them off the front of a byte list again.

A length of zero means that the header has not been stamped: no table is that short.
-/

namespace Acpi

/-- The header of a table. -/
structure Header where
  signature : Vector UInt8 4
  length : UInt32
  revision : UInt8
  checksum : UInt8
  oemId : Vector UInt8 6
  oemTableId : Vector UInt8 8
  oemRevision : UInt32
  creatorId : UInt32
  creatorRevision : UInt32
  deriving DecidableEq

namespace Header

/-- The bytes that a header takes. -/
def size : Nat := 36

/-- Where the checksum stands. -/
def checksumOffset : Nat := 9

/-- Whether a length has been written into the header. -/
def isStamped (header : Header) : Bool := header.length != 0

/-- The bytes of a header. -/
def bytes (header : Header) : List UInt8 :=
  header.signature.toList ++ LittleEndian.encode 4 header.length.toNat ++
    [header.revision, header.checksum] ++ header.oemId.toList ++ header.oemTableId.toList ++
    LittleEndian.encode 4 header.oemRevision.toNat ++
    LittleEndian.encode 4 header.creatorId.toNat ++
    LittleEndian.encode 4 header.creatorRevision.toNat

/-! ## Reading -/

/-- Takes `count` bytes off the front. -/
def take? (count : Nat) (bytes : List UInt8) : Option (Vector UInt8 count × List UInt8) :=
  if h : count ≤ bytes.length then
    some (⟨(bytes.take count).toArray, by simp [h]⟩, bytes.drop count)
  else
    none

/-- Takes a byte off the front. -/
def takeByte? : List UInt8 → Option (UInt8 × List UInt8)
  | [] => none
  | byte :: rest => some (byte, rest)

/-- Takes a little-endian double word off the front. -/
def takeDword? (bytes : List UInt8) : Option (UInt32 × List UInt8) := do
  let (word, rest) ← take? 4 bytes
  return (UInt32.ofNat (LittleEndian.decode word.toList), rest)

/-- The header at the front of some bytes; `none` if they are too short. -/
def read? (bytes : List UInt8) : Option Header := do
  let (signature, bytes) ← take? 4 bytes
  let (length, bytes) ← takeDword? bytes
  let (revision, bytes) ← takeByte? bytes
  let (checksum, bytes) ← takeByte? bytes
  let (oemId, bytes) ← take? 6 bytes
  let (oemTableId, bytes) ← take? 8 bytes
  let (oemRevision, bytes) ← takeDword? bytes
  let (creatorId, bytes) ← takeDword? bytes
  let (creatorRevision, _) ← takeDword? bytes
  return { signature, length, revision, checksum, oemId, oemTableId, oemRevision, creatorId,
           creatorRevision }

/-- The header at the front of a table. -/
def ofTable? (table : ByteArray) : Option Header := read? (table.extract 0 size).data.toList

end Header

end Acpi
