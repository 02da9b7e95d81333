import Acpi.Error
import Acpi.LittleEndian

/-!
# Compressed device identifiers

A device identifier of three capital letters and four hexadecimal digits, such as `PNP0501`, is
packed into 32 bits: five bits per letter (`A` is 1), sixteen bits for the digits, and the four
bytes of the result in reverse order.  The topmost bit stays clear.
-/

namespace Acpi

/-- A packed identifier, as the number that a table holds. -/
structure EisaId where
  raw : UInt32
  deriving DecidableEq, Repr

namespace EisaId

/-- The value of a hexadecimal digit of either case. -/
def hexValue? (c : Char) : Option Nat :=
  if c.isDigit then some (c.toNat - '0'.toNat)
  else if 'A' ≤ c ∧ c ≤ 'F' then some (c.toNat - 'A'.toNat + 10)
  else if 'a' ≤ c ∧ c ≤ 'f' then some (c.toNat - 'a'.toNat + 10)
  else none

/-- The hexadecimal digit of a value below sixteen, in capitals. -/
def hexDigit (value : Nat) : Char :=
  if value < 10 then Char.ofNat ('0'.toNat + value) else Char.ofNat ('A'.toNat + (value - 10))

/-- The code of a capital letter, from 1 for `A`. -/
def letterCode? (c : Char) : Option Nat :=
  if c.isUpper then some (c.toNat - '@'.toNat) else none

/-- The character of a five-bit letter code; codes outside 1 to 26 give the neighbours of the
capital letters. -/
def letter (code : Nat) : Char := Char.ofNat ('@'.toNat + code % 32)

/-- The four bytes of a 32-bit number in reverse order. -/
def reverseBytes (n : Nat) : Nat :=
  LittleEndian.decode (LittleEndian.encode 4 n).reverse

/-- The packed form of a text of three letters and four digits. -/
def ofChars? : List Char → Option EisaId
  | [a, b, c, d, e, f, g] => do
      let letters := ((← letterCode? a) * 32 + (← letterCode? b)) * 32 + (← letterCode? c)
      let digits :=
        (((← hexValue? d) * 16 + (← hexValue? e)) * 16 + (← hexValue? f)) * 16 + (← hexValue? g)
      return ⟨UInt32.ofNat (reverseBytes (letters * 65536 + digits))⟩
  | _ => none

/-- The packed form of a text, or the cause of its refusal. -/
def parse (text : String) : Except TermError EisaId :=
  match ofChars? text.toList with
  | some id => .ok id
  | none => .error .invalidEisaId

/-- The seven characters that a packed identifier stands for. -/
def chars (id : EisaId) : List Char :=
  let packed := reverseBytes id.raw.toNat
  [letter (packed / 0x4000000), letter (packed / 0x200000), letter (packed / 0x10000),
    hexDigit (packed / 4096 % 16), hexDigit (packed / 256 % 16), hexDigit (packed / 16 % 16),
    hexDigit (packed % 16)]

/-- The text that a packed identifier stands for. -/
def text (id : EisaId) : String := String.ofList id.chars

end EisaId

end Acpi
