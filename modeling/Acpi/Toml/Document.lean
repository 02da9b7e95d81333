import Acpi.Toml.DateTime
import Acpi.Toml.Entries
import Acpi.Toml.Number

/-!
# Documents

A document is a list of statements: a key with its value, the header of a table, or the header of
one more table of an array.  `Document.parse?` reads the statements and builds the table that they
describe; it fails on text that is no document and on statements that contradict each other.
-/

namespace Acpi.Toml

/-- A statement of a document.  A key or a header is given by its parts before the last, and the
last. -/
inductive Statement where
  | keyValue (path : List String) (key : String) (value : Value)
  | table (path : List String) (key : String)
  | element (path : List String) (key : String)

namespace Reader

/-- The value of a truth word. -/
def boolean : Reader Bool :=
  (do
    chars ['t', 'r', 'u', 'e']
    return true) <|> (do
    chars ['f', 'a', 'l', 's', 'e']
    return false)

/-- A value that holds no other values. -/
def scalar : Reader Value :=
  (return .string (← string)) <|> (return .boolean (← boolean)) <|>
    (return .dateTime (← dateTime)) <|> (return .float (← float)) <|> (return .integer (← integer))

/-- An array of values: items between gaps, with an optional comma behind the last. -/
def arrayOf (value : Reader Value) : Reader Value := do
  char '['
  let items ← sepBy (do
    gap
    let item ← value
    gap
    return item) (char ',')
  unless items.isEmpty do
    let _ ← optional (char ',')
  gap
  char ']'
  return .array items

/-- A key and its value. -/
def keyValueOf (value : Reader Value) : Reader (List String × String × Value) := do
  let (path, key) ← key
  char '='
  blanks
  return (path, key, ← value)

/-- A table on one line. -/
def tableOf (value : Reader Value) : Reader Value := do
  char '\x7b'
  let pairs ← sepBy (do
    let pair ← keyValueOf value
    blanks
    return pair) (char ',')
  blanks
  char '\x7d'
  let add (entries : Entries) : List String × String × Value → Option Entries
    | (path, key, value) => entries.insert? key value true path
  match pairs.foldlM add [] with
  | some entries => return .table (Item.entriesToValues entries)
  | none => failure

/-- A value in which arrays and tables are nested at most `depth` deep. -/
def value : Nat → Reader Value
  | 0 => scalar
  | depth + 1 => scalar <|> arrayOf (value depth) <|> tableOf (value depth)

/-- How deep arrays and tables may be nested in a value. -/
def maxDepth : Nat := 79

/-- A statement up to the end of its line. -/
def statement : Reader Statement := do
  let statement ← (do
      chars ['[', '[']
      let (path, key) ← key
      chars [']', ']']
      return Statement.element path key) <|> (do
      char '['
      let (path, key) ← key
      char ']'
      return Statement.table path key) <|> (do
      let (path, key, value) ← keyValueOf (value maxDepth)
      return Statement.keyValue path key value)
  restOfLine
  return statement

/-- A line that holds no statement. -/
def emptyLine : Reader Unit := do
  let _ ← optional comment
  newline

/-- All statements of a document. -/
def statements : Reader (List Statement) := do
  let _ ← optional (char '\ufeff')
  let lines ← many do
    blanks
    (do
      emptyLine
      return none) <|> (return some (← statement))
  blanks
  let _ ← optional comment
  endOfText
  return lines.filterMap id

end Reader

namespace Document

/-- The entries found so far and the path of the table that takes the next keys. -/
structure State where
  root : Entries
  current : List String

/-- Carries out a statement. -/
def step? (state : State) : Statement → Option State
  | .keyValue path key value => do
      let root ← state.root.modifyAt? (Entries.insert? key value true path) state.current
      return { state with root }
  | .table path key => do
      let root ← state.root.modifyAt? (Entries.openTable? key) path
      return { root, current := path ++ [key] }
  | .element path key => do
      let root ← state.root.modifyAt? (Entries.openElement? key) path
      return { root, current := path ++ [key] }

/-- The entries of the table that a text describes. -/
def parse? (text : String) : Option (List (String × Value)) := do
  let (statements, _) ← Reader.statements text.toList
  let state ← statements.foldlM step? ⟨[], []⟩
  return Item.entriesToValues state.root

end Document

end Acpi.Toml
