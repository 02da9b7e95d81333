import Acpi.LittleEndian

/-!
# Package lengths

A package length counts every byte from itself to the end of its object, so its value includes its
own width, and a payload close to a boundary is pushed into the next width by the field itself.  The
field takes one to four bytes.  In a field of one byte the value takes six bits; in a wider field
the lead byte keeps the low four bits of the value and, in its top two bits, the number of bytes
that follow with eight bits each.

The field of a payload has the least width at which payload and width together fit.  It is found by
trying the widths in order, on 32-bit numbers (`search?`).
-/

namespace Acpi

/-- The length field of an object: the number that it holds and the bytes that it takes. -/
structure PkgLength where
  value : Nat
  width : Nat
  deriving DecidableEq, Repr

namespace PkgLength

/-- The widths that a length field can have, shortest first. -/
def widths : List Nat := [1, 2, 3, 4]

/-- The largest value that a field of the given width holds. -/
def capacity : Nat → Nat
  | 1 => 0x3F
  | 2 => 0xFFF
  | 3 => 0xFFFFF
  | 4 => 0xFFFFFFF
  | _ => 0

/-- The least width that holds `value`, if one does. -/
def leastWidth? (value : Nat) : Option Nat :=
  widths.find? fun width => value ≤ capacity width

/-- The sum of two 32-bit numbers, if it is one. -/
def addChecked? (a b : UInt32) : Option UInt32 :=
  if a.toNat + b.toNat < UInt32.size then some (a + b) else none

/-- Tries the widths given, one after the other.  The search ends without a result as soon as the
payload and a width add up to more than 32 bits, or to more than any field holds. -/
def search? (payload : UInt32) : List Nat → Option PkgLength
  | [] => none
  | width :: wider => do
      let value ← addChecked? payload (UInt32.ofNat width)
      let needed ← leastWidth? value.toNat
      if needed ≤ width then some ⟨value.toNat, width⟩ else search? payload wider

/-- The length field of an object without payload. -/
def empty : PkgLength := ⟨1, 1⟩

instance : Inhabited PkgLength := ⟨empty⟩

/-- The number of bytes behind the field. -/
def payload (length : PkgLength) : Nat := length.value - length.width

/-- The bytes of the field. -/
def bytes (length : PkgLength) : List UInt8 :=
  if length.width ≤ 1 then
    [UInt8.ofNat length.value]
  else
    UInt8.ofNat (64 * (length.width - 1) + length.value % 16) ::
      LittleEndian.encode (length.width - 1) (length.value / 16)

/-- The bytes of the field, filled up with zeros to the largest width. -/
def paddedBytes (length : PkgLength) : List UInt8 :=
  length.bytes ++ List.replicate (4 - length.bytes.length) 0

end PkgLength

end Acpi
