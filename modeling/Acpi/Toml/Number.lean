import Acpi.Toml.Text
import Acpi.Toml.Value

/-!
# Numbers

Integers are decimal, hexadecimal, octal or binary and have 64 bits with a sign.  A single
underscore may stand between two digits.  A decimal integer has no leading zero; a fraction and an
exponent may have any digits.
-/

namespace Acpi.Toml.Reader

/-- Digits of a class, with underscores between them; the result is without underscores. -/
def digits (member : Char → Bool) : Reader (List Char) := do
  let first ← charOf member
  let others ← many (charOf member <|> (do
    char '_'
    charOf member))
  return first :: others

/-- A sign, if there is one; whether it is a minus. -/
def sign : Reader Bool :=
  (do
    char '-'
    return true) <|> (do
    char '+'
    return false) <|> pure false

/-- The digits of a decimal integer: a zero alone, or no zero in front. -/
def decimalDigits : Reader (List Char) := do
  if (← peek) == '0' then
    char '0'
    return ['0']
  else
    digits Char.isDigit

/-- Whether a number is a 64-bit integer with a sign. -/
def isInt64 (value : Int) : Bool := -0x8000000000000000 ≤ value && value < 0x8000000000000000

/-- A number, refused if it has more than 64 bits. -/
def int64 (value : Int) : Reader Int := if isInt64 value then pure value else failure

/-- An integer in a base that is announced by two characters. -/
def basedInteger (mark : Char) (base : Nat) (member : Char → Bool) : Reader Int := do
  chars ['0', mark]
  int64 (numeral base (← digits member))

/-- A decimal integer. -/
def decimalInteger : Reader Int := do
  let negative ← sign
  let value : Int := numeral 10 (← decimalDigits)
  int64 (if negative then -value else value)

/-- An integer. -/
def integer : Reader Int :=
  basedInteger 'x' 16 isHex <|> basedInteger 'o' 8 (fun c => '0' ≤ c && c ≤ '7') <|>
    basedInteger 'b' 2 (fun c => c == '0' || c == '1') <|> decimalInteger

/-! ## Floating-point numbers -/

/-- The least number that is too large for a 64-bit floating-point number: half a unit above the
largest of them. -/
def floatLimit : Nat := (1 <<< 1024) - (1 <<< 970)

/-- Whether `digits · 10 ^ exponent` is too large for a 64-bit floating-point number.  The number of
digits settles all cases but those between `10 ^ 308` and `10 ^ 309`. -/
def exceedsFloat (digits : Nat) (exponent : Int) : Bool :=
  if digits = 0 then
    false
  else
    let magnitude : Int := (Nat.repr digits).length + exponent
    if magnitude < 309 then false
    else if magnitude > 309 then true
    else if exponent < 0 then digits ≥ floatLimit * Nat.pow 10 exponent.natAbs
    else digits * Nat.pow 10 exponent.natAbs ≥ floatLimit

/-- A fraction: its digits. -/
def fraction : Reader (List Char) := do
  char '.'
  digits Char.isDigit

/-- An exponent. -/
def exponent : Reader Int := do
  char 'e' <|> char 'E'
  let negative ← sign
  let value : Int := numeral 10 (← digits Char.isDigit)
  return if negative then -value else value

/-- A floating-point number with a fraction, an exponent or both.  A positive number must not be too
large; a negative one may be and counts as infinite. -/
def finiteFloat : Reader Decimal := do
  let negative ← sign
  let whole ← decimalDigits
  let (decimals, power) ← (do
      let decimals ← fraction
      return (decimals, (← optional exponent).getD 0)) <|> (do
      return ([], ← exponent))
  let value := numeral 10 (whole ++ decimals)
  let power := power - decimals.length
  if exceedsFloat value power then
    if negative then return .infinity true else failure
  return .finite negative value power

/-- Infinity or "not a number". -/
def specialFloat : Reader Decimal := do
  let negative ← sign
  (do
    chars ['i', 'n', 'f']
    return .infinity negative) <|> (do
    chars ['n', 'a', 'n']
    return .nan)

/-- A floating-point number. -/
def float : Reader Decimal := finiteFloat <|> specialFloat

end Acpi.Toml.Reader
