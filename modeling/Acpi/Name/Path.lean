import Acpi.Error
import Acpi.Name.Segment
import Acpi.Opcode

/-!
# Name paths

A path says where it starts, at the root (`\`) or some number of scopes further out (`^`), and then
lists segments separated by dots.  A path may end behind its start, as `\` and `^^` do, but an empty
text is no path.  The encoding puts a mark in front of the segments that tells their number: a zero
byte for none, nothing for one, one byte for two, and a byte with a count for more, which limits a
path to 255 segments.
-/

namespace Acpi.Name

/-- Where a path starts. -/
inductive Anchor where
  /-- At the root of the namespace. -/
  | root
  /-- The given number of scopes outside the current one. -/
  | parents (count : Nat)
  deriving DecidableEq, Repr

/-- A start and the segments that lead on from it. -/
structure Path where
  anchor : Anchor
  segments : List Segment
  deriving DecidableEq

/-- The bytes of a start. -/
def Anchor.bytes : Anchor → List UInt8
  | .root => [Opcode.rootChar]
  | .parents count => List.replicate count Opcode.parentChar

/-- The characters that spell a start. -/
def Anchor.chars : Anchor → List Char
  | .root => ['\\']
  | .parents count => List.replicate count '^'

/-- Splits the start off a path's text. -/
def Anchor.split : List Char → Anchor × List Char
  | '\\' :: rest => (.root, rest)
  | text => (.parents (text.takeWhile (· == '^')).length, text.dropWhile (· == '^'))

namespace Path

/-- The pieces of a text between its dots; one more than there are dots. -/
def splitDots : List Char → List (List Char)
  | [] => [[]]
  | c :: rest =>
      if c = '.' then
        [] :: splitDots rest
      else
        match splitDots rest with
        | [] => [[c]]
        | piece :: pieces => (c :: piece) :: pieces

/-- The most segments that the count byte of an encoded path can tell. -/
def maxSegments : Nat := 255

/-- The path that a text spells.  A second start behind the first is refused. -/
def ofChars? (text : List Char) : Option Path :=
  if text.isEmpty then
    none
  else
    let (anchor, rest) := Anchor.split text
    if rest.head?.any fun c => c == '\\' || c == '^' then
      none
    else if rest.isEmpty then
      some ⟨anchor, []⟩
    else
      match (splitDots rest).mapM Segment.ofChars? with
      | some segments => if segments.length ≤ maxSegments then some ⟨anchor, segments⟩ else none
      | none => none

/-- The path that a text spells, or the cause of its refusal. -/
def parse (text : String) : Except TermError Path :=
  match ofChars? text.toList with
  | some path => .ok path
  | none => .error .invalidName

/-- The bytes in front of the segments, by the number of segments. -/
def mark : Nat → List UInt8
  | 0 => [0x00]
  | 1 => []
  | 2 => [Opcode.dualName]
  | count => [Opcode.multiName, UInt8.ofNat count]

/-- The encoding of a path. -/
def bytes (path : Path) : List UInt8 :=
  path.anchor.bytes ++ mark path.segments.length ++
    path.segments.flatMap fun segment => segment.bytes.toList

end Path

end Acpi.Name
