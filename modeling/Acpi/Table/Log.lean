import Acpi.Error
import Acpi.Table.Header

/-!
# Log records

What the table writer reports while it works.  A record holds the facts; its level and its wording
are functions of it.
-/

namespace Acpi.Log

/-- The levels of records. -/
inductive Level where
  | trace
  | debug
  | error
  deriving DecidableEq, Repr

/-- One report of the table writer. -/
inductive Record where
  /-- The space that a table needs has been asked for. -/
  | required (signature : Vector UInt8 4) (total : Nat)
  /-- A term of the table has been written; so many bytes are written now. -/
  | term (written : Nat)
  /-- A table has been finished. -/
  | finished (signature : Vector UInt8 4) (total : Nat) (checksum : UInt8)
  /-- The header was stamped with a length that the table does not have. -/
  | stale (signature : Vector UInt8 4) (stamped : UInt32) (total : Nat)
  /-- Writing a table has failed half way. -/
  | failed (signature : Vector UInt8 4) (cause : EncodeError)
  deriving DecidableEq

/-- A signature as text, if it is text. -/
def signatureText (signature : Vector UInt8 4) : String :=
  (String.fromUTF8? signature.toList.toByteArray).getD "????"

/-- The digits of a byte in base sixteen. -/
def hexByte (byte : UInt8) : String :=
  String.ofList [Nat.digitChar (byte.toNat / 16), Nat.digitChar (byte.toNat % 16)]

namespace Record

/-- The level of a record. -/
def level : Record → Level
  | .required .. | .finished .. => .debug
  | .term .. => .trace
  | .stale .. | .failed .. => .error

/-- The wording of a record. -/
def message : Record → String
  | .required signature total =>
      "amlgen: " ++ signatureText signature ++ " table requires " ++ Nat.repr total ++ " bytes"
  | .term written =>
      "amlgen: emitted top-level term, " ++ Nat.repr written ++ " bytes so far"
  | .finished signature total checksum =>
      "amlgen: wrote " ++ signatureText signature ++ " table, " ++ Nat.repr total ++
        " bytes, checksum 0x" ++ hexByte checksum
  | .stale signature stamped total =>
      "amlgen: " ++ signatureText signature ++ " header stamped with " ++
        Nat.repr stamped.toNat ++ " bytes but tree encodes to " ++ Nat.repr total
  | .failed signature cause =>
      "amlgen: " ++ signatureText signature ++ " table emission failed: " ++ cause.message

end Record

end Acpi.Log
