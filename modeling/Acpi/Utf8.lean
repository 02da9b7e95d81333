/-!
# Text from bytes that may not be text

`decodeLossy` reads bytes as UTF-8 and puts the replacement character U+FFFD in the place of what is
not well formed: once for each longest start of a character that is cut short, and once for each
byte that starts none.
-/

namespace Acpi.Utf8

/-- Whether a byte lies in a range. -/
def within (low high byte : UInt8) : Bool := low ≤ byte && byte ≤ high

/-- How many bytes a first byte announces behind it, and the range of the second byte.  The range
keeps out characters written too long, surrogates and codes above U+10FFFF. -/
def announced (lead : UInt8) : Option (Nat × UInt8 × UInt8) :=
  if lead < 0x80 then some (0, 0x80, 0xBF)
  else if within 0xC2 0xDF lead then some (1, 0x80, 0xBF)
  else if lead = 0xE0 then some (2, 0xA0, 0xBF)
  else if lead = 0xED then some (2, 0x80, 0x9F)
  else if within 0xE1 0xEF lead then some (2, 0x80, 0xBF)
  else if lead = 0xF0 then some (3, 0x90, 0xBF)
  else if within 0xF1 0xF3 lead then some (3, 0x80, 0xBF)
  else if lead = 0xF4 then some (3, 0x80, 0x8F)
  else none

/-- The bytes at the front that continue a character, at most `count`; the first of them lies in the
given range. -/
def continuation (low high : UInt8) : Nat → List UInt8 → List UInt8
  | 0, _ => []
  | _, [] => []
  | count + 1, byte :: rest =>
      if within low high byte then byte :: continuation 0x80 0xBF count rest else []

/-- The bits of a first byte that belong to the code, by the number of bytes behind it. -/
def leadBits (lead : UInt8) : Nat → Nat
  | 0 => lead.toNat
  | 1 => lead.toNat % 32
  | 2 => lead.toNat % 16
  | _ => lead.toNat % 8

/-- Reads at most `rounds` characters. -/
def decodeWithin : Nat → List UInt8 → List Char
  | 0, _ => []
  | _, [] => []
  | rounds + 1, lead :: rest =>
      match announced lead with
      | none => '\ufffd' :: decodeWithin rounds rest
      | some (count, low, high) =>
          let more := continuation low high count rest
          let char :=
            if more.length = count then
              Char.ofNat (more.foldl (fun code byte => code * 64 + byte.toNat % 64)
                (leadBits lead count))
            else
              '\ufffd'
          char :: decodeWithin rounds (rest.drop more.length)

/-- The text of some bytes, with replacements for what is not well formed. -/
def decodeLossy (bytes : List UInt8) : String := String.ofList (decodeWithin bytes.length bytes)

end Acpi.Utf8
