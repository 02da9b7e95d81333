import Acpi.Toml.Reader

/-!
# Strings and keys

There are four forms of strings.  Basic strings, in double quotes, know escapes; literal strings, in
single quotes, do not.  Each has a form in triple quotes that may span lines: a line end directly
behind the opening quotes is dropped, every other one counts as a single line feed, and one or two
quotes in a row are part of the text, also in front of the closing three.
-/

namespace Acpi.Toml.Reader

/-! ## Escapes -/

/-- The value of a hexadecimal digit of either case. -/
def hexValue (c : Char) : Nat :=
  if c.isDigit then c.toNat - '0'.toNat
  else if c.isUpper then c.toNat - 'A'.toNat + 10
  else c.toNat - 'a'.toNat + 10

/-- The digits of base sixteen. -/
def isHex (c : Char) : Bool :=
  c.isDigit || ('A' ≤ c && c ≤ 'F') || ('a' ≤ c && c ≤ 'f')

/-- The number that digits denote in a base. -/
def numeral (base : Nat) (digits : List Char) : Nat :=
  digits.foldl (fun value digit => value * base + hexValue digit) 0

/-- Exactly `count` digits of a class. -/
def digitsOf (member : Char → Bool) : Nat → Reader (List Char)
  | 0 => pure []
  | count + 1 => do
      let digit ← charOf member
      return digit :: (← digitsOf member count)

/-- A character given by its code, which must be that of a character. -/
def codePoint (count : Nat) : Reader Char := do
  let code := numeral 16 (← digitsOf isHex count)
  if code.isValidChar then return Char.ofNat code else failure

/-- The character that an escape stands for, behind the backslash. -/
def escaped : Reader Char := do
  match ← charOf fun _ => true with
  | 'b' => return '\x08'
  | 't' => return '\t'
  | 'n' => return '\n'
  | 'f' => return '\x0c'
  | 'r' => return '\r'
  | '"' => return '"'
  | '\\' => return '\\'
  | 'u' => codePoint 4
  | 'U' => codePoint 8
  | _ => failure

/-! ## Strings on one line -/

/-- The characters that stand for themselves in a basic string. -/
def isBasic (c : Char) : Bool := isComment c && c != '"' && c != '\\'

/-- The characters of a literal string. -/
def isLiteral (c : Char) : Bool := isComment c && c != '\''

/-- One character of a basic string. -/
def basicChar : Reader Char :=
  charOf isBasic <|> (do
    char '\\'
    escaped)

/-- A basic string. -/
def basicString : Reader (List Char) := do
  char '"'
  let text ← many basicChar
  char '"'
  return text

/-- A literal string. -/
def literalString : Reader (List Char) := do
  char '\''
  let text ← takeWhile isLiteral
  char '\''
  return text

/-! ## Strings over several lines -/

/-- Up to `count` quotes. -/
def quotesUpTo (quote : Char) : Nat → Reader (List Char)
  | 0 => pure []
  | count + 1 => (do
      char quote
      return quote :: (← quotesUpTo quote count)) <|> pure []

/-- One or two quotes that are part of the text, because another character follows. -/
def innerQuotes (quote : Char) : Reader (List Char) := do
  let quotes ← quotesUpTo quote 2
  let next ← peek
  if quotes.isEmpty || next == quote then failure else return quotes

/-- Three quotes, with up to two in front that are part of the text. -/
def closingQuotes (quote : Char) : Reader (List Char) := do
  chars [quote, quote, quote]
  quotesUpTo quote 2

/-- A text in triple quotes, its pieces read by `piece`. -/
def tripleQuoted (quote : Char) (piece : Reader (List Char)) : Reader (List Char) := do
  chars [quote, quote, quote]
  let _ ← optional newline
  let pieces ← many (piece <|> innerQuotes quote)
  let quotes ← closingQuotes quote
  return pieces.flatten ++ quotes

/-- A line end, as a line feed. -/
def lineFeed : Reader (List Char) := do
  newline
  return ['\n']

/-- A backslash at the end of a line, which drops the line end and the blanks and line ends behind
it. -/
def lineContinuation : Reader (List Char) := do
  char '\\'
  blanks
  newline
  let _ ← many ((do let _ ← charOf isBlank) <|> newline)
  return []

/-- A basic string in triple quotes. -/
def basicLines : Reader (List Char) :=
  tripleQuoted '"' (takeWhile1 isBasic <|> lineFeed <|> lineContinuation <|> (do
    char '\\'
    return [← escaped]))

/-- A literal string in triple quotes. -/
def literalLines : Reader (List Char) :=
  tripleQuoted '\'' (takeWhile1 isLiteral <|> lineFeed)

/-- A string of any form. -/
def string : Reader String := do
  return String.ofList (← basicLines <|> basicString <|> literalLines <|> literalString)

/-! ## Keys -/

/-- The characters of a key without quotes. -/
def isBare (c : Char) : Bool := c.isAlphanum || c == '_' || c == '-'

/-- One part of a key. -/
def keyPart : Reader String := do
  return String.ofList (← basicString <|> literalString <|> takeWhile1 isBare)

/-- The most parts that a key can have. -/
def maxKeyParts : Nat := 79

/-- A key: its parts before the last, and the last.  Blanks may surround every part. -/
def key : Reader (List String × String) := do
  let parts ← sepBy1 (do
    blanks
    let part ← keyPart
    blanks
    return part) (char '.')
  if parts.length > maxKeyParts then failure
  match parts.getLast? with
  | some last => return (parts.dropLast, last)
  | none => failure

end Acpi.Toml.Reader
