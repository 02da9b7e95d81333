/-!
# Name segments

A name segment is four bytes: a capital letter or underscore, then capital letters, digits and
underscores.  A shorter text is filled up with underscores and small letters count as capitals, so
`_SB` and `_sb` name the same object as `_SB_`.
-/

namespace Acpi.Name

/-- One four-byte segment of a name. -/
structure Segment where
  bytes : Vector UInt8 4
  deriving DecidableEq

namespace Segment

/-- A segment starts with a letter or an underscore. -/
def isLead (c : Char) : Bool := c.isAlpha || c == '_'

/-- Behind its first character a segment may also hold digits. -/
def isTail (c : Char) : Bool := c.isAlphanum || c == '_'

/-- Whether a text of one to four characters spells a segment. -/
def isValid : List Char → Bool
  | [] => false
  | lead :: tail => isLead lead && tail.all isTail && tail.length ≤ 3

/-- The byte at a position of the segment: capital letters, underscores behind the text. -/
def byteAt (text : List Char) (index : Nat) : UInt8 :=
  UInt8.ofNat (text.getD index '_').toUpper.toNat

/-- The segment that a text spells. -/
def ofChars? (text : List Char) : Option Segment :=
  if isValid text then some ⟨Vector.ofFn fun index => byteAt text index⟩ else none

/-- The segment as text; empty for four bytes that are not well-formed UTF-8. -/
def text (segment : Segment) : String :=
  (String.fromUTF8? segment.bytes.toList.toByteArray).getD ""

end Segment

end Acpi.Name
