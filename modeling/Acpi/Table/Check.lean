import Acpi.Table.Checksum
import Acpi.Table.Header

/-!
# Checking a table

A table is sound if it holds a header, if the length in the header is its own, and if its bytes add
up to zero.
-/

namespace Acpi.Table

/-- What is wrong with a table. -/
inductive CheckError where
  /-- There is no room for a header. -/
  | tooShort
  /-- The header tells another length. -/
  | wrongLength (told : UInt32) (size : Nat)
  /-- The bytes do not add up to zero. -/
  | wrongChecksum
  deriving DecidableEq, Repr

/-- The wording of a finding. -/
def CheckError.message : CheckError → String
  | .tooShort => "table shorter than its header"
  | .wrongLength told size =>
      "header length " ++ Nat.repr told.toNat ++ " does not match table size " ++ Nat.repr size
  | .wrongChecksum => "checksum does not sum to zero"

/-- The header of a sound table, or the first thing that is wrong with it. -/
def check (table : ByteArray) : Except CheckError Header :=
  match Header.ofTable? table with
  | none => .error .tooShort
  | some header =>
      if header.length.toNat ≠ table.size then
        .error (.wrongLength header.length table.size)
      else if Checksum.isValid table then
        .ok header
      else
        .error .wrongChecksum

end Acpi.Table
