/-!
# Reading characters

A reader takes characters off the front of a text and gives a result, or fails.  Repetition is
bounded by the length of the text that is left: every round takes at least one character, so the
bound is never what ends it.

This module also holds what separates the parts of a document: blanks, line ends and comments.
-/

namespace Acpi.Toml

/-- A reader of a text. -/
abbrev Reader := StateT (List Char) Option

namespace Reader

/-- One character of a class. -/
def charOf (member : Char → Bool) : Reader Char
  | c :: rest => if member c then some (c, rest) else none
  | [] => none

/-- One given character. -/
def char (c : Char) : Reader Unit := do
  let _ ← charOf (· == c)

/-- The given characters in order. -/
def chars : List Char → Reader Unit
  | [] => pure ()
  | c :: rest => do
      char c
      chars rest

/-- All characters of a class at the front; perhaps none. -/
def takeWhile (member : Char → Bool) : Reader (List Char) := fun text =>
  some (text.takeWhile member, text.dropWhile member)

/-- All characters of a class at the front; at least one. -/
def takeWhile1 (member : Char → Bool) : Reader (List Char) := do
  let first ← charOf member
  return first :: (← takeWhile member)

/-- The next character, which stays in the text. -/
def peek : Reader Char
  | text@(c :: _) => some (c, text)
  | [] => none

/-- The end of the text. -/
def endOfText : Reader Unit
  | [] => some ((), [])
  | _ :: _ => none

/-- Adds results to those found already, in reverse, for as long as a reader gives some and the
budget lasts. -/
def manyWithin {α : Type} (reader : Reader α) (found : List α) : List Char → Reader (List α)
  | [] => pure found.reverse
  | _ :: budget => fun text =>
      match reader text with
      | none => some (found.reverse, text)
      | some (result, rest) => manyWithin reader (result :: found) budget rest

/-- As many results as a reader gives.  The text is its own budget. -/
def many {α : Type} (reader : Reader α) : Reader (List α) := fun text =>
  manyWithin reader [] text text

/-- Results with a separator between each two; perhaps none.  A separator that no result follows
stays in the text. -/
def sepBy {α : Type} (reader : Reader α) (separator : Reader Unit) : Reader (List α) :=
  (do
    let first ← reader
    let others ← many do
      separator
      reader
    return first :: others) <|> pure []

/-- At least one result, with a separator between each two. -/
def sepBy1 {α : Type} (reader : Reader α) (separator : Reader Unit) : Reader (List α) := do
  let first ← reader
  let others ← many do
    separator
    reader
  return first :: others

/-! ## Separators -/

/-- Blanks within a line. -/
def isBlank (c : Char) : Bool := c == ' ' || c == '\t'

/-- Characters outside the ASCII range. -/
def isWide (c : Char) : Bool := c.toNat ≥ 0x80

/-- The characters of a comment: no control character but the tab. -/
def isComment (c : Char) : Bool := c == '\t' || (0x20 ≤ c.toNat && c.toNat ≤ 0x7E) || isWide c

/-- Blanks; perhaps none. -/
def blanks : Reader Unit := do
  let _ ← takeWhile isBlank

/-- The end of a line, with or without a carriage return. -/
def newline : Reader Unit := char '\n' <|> chars ['\r', '\n']

/-- A comment up to the end of its line. -/
def comment : Reader Unit := do
  char '#'
  let _ ← takeWhile isComment

/-- What may follow a statement on its line. -/
def restOfLine : Reader Unit := do
  blanks
  let _ ← optional comment
  newline <|> endOfText

/-- Blanks, line ends and comments between the items of an array. -/
def gap : Reader Unit := do
  let _ ← many ((do let _ ← charOf isBlank) <|> newline <|> comment)

end Reader

end Acpi.Toml
