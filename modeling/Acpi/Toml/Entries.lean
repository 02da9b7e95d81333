import Acpi.Toml.Value

/-!
# Tables under construction

While a document is read, its tables are still open: a header may add a table below one that exists
already, and a dotted key may add to a table that another dotted key made.  What may be added to
depends on how a table came to be (`Origin`):

* a table with a header of its own can have no second header and takes no dotted keys from outside;
* a table that exists only because a header named something below it may still get its header;
* a table made by a dotted key takes further dotted keys and never a header.

A value is closed: neither headers nor dotted keys reach into it.
-/

namespace Acpi.Toml

/-- How a table came to be. -/
inductive Origin where
  /-- It has a header. -/
  | header
  /-- A header named a table below it. -/
  | parent
  /-- A dotted key led through it. -/
  | dotted
  deriving DecidableEq, Repr

/-- What stands under a key of an open table. -/
inductive Item where
  | value (value : Value)
  | table (origin : Origin) (entries : List (String × Item))
  /-- The tables of an array that grows by one with every header. -/
  | tables (elements : List (List (String × Item)))

/-- The entries of an open table. -/
abbrev Entries := List (String × Item)

namespace Entries

/-- Puts an item in the place of the one under a key. -/
def replace (key : String) (item : Item) : Entries → Entries
  | [] => []
  | (other, old) :: entries =>
      if other = key then (key, item) :: entries else (other, old) :: replace key item entries

/-- Changes the last element of a list. -/
def modifyLast? (change : Entries → Option Entries) : List Entries → Option (List Entries)
  | [] => none
  | [last] => (change last).map fun last => [last]
  | element :: elements => (modifyLast? change elements).map (element :: ·)

/-- Adds a value under a dotted key.  `takesKeys` says whether the table reached takes the last part
of the key: the table where the key starts does, and below it only tables made by dotted keys. -/
def insert? (key : String) (value : Value) (takesKeys : Bool) :
    List String → Entries → Option Entries
  | [], entries =>
      if takesKeys && (entries.lookup key).isNone then
        some (entries ++ [(key, .value value)])
      else
        none
  | step :: path, entries =>
      match entries.lookup step with
      | none => do
          let below ← insert? key value true path []
          return entries ++ [(step, .table .dotted below)]
      | some (.table .dotted below) => do
          let below ← insert? key value true path below
          return entries.replace step (.table .dotted below)
      | some (.table .parent below) => do
          let below ← insert? key value false path below
          return entries.replace step (.table .parent below)
      | some (.tables elements) => do
          let elements ← modifyLast? (insert? key value false path) elements
          return entries.replace step (.tables elements)
      | some (.table .header _) | some (.value _) => none

/-- Changes the table that the path of a header leads to.  Missing tables are made on the way, and
an array of tables is entered at its last element. -/
def modifyAt? (change : Entries → Option Entries) : List String → Entries → Option Entries
  | [], entries => change entries
  | step :: path, entries =>
      match entries.lookup step with
      | none => do
          let below ← modifyAt? change path []
          return entries ++ [(step, .table .parent below)]
      | some (.table origin below) => do
          let below ← modifyAt? change path below
          return entries.replace step (.table origin below)
      | some (.tables elements) => do
          let elements ← modifyLast? (modifyAt? change path) elements
          return entries.replace step (.tables elements)
      | some (.value _) => none

/-- Gives a table its header. -/
def openTable? (key : String) (entries : Entries) : Option Entries :=
  match entries.lookup key with
  | none => some (entries ++ [(key, .table .header [])])
  | some (.table .parent below) => some (entries.replace key (.table .header below))
  | _ => none

/-- Adds a table to an array of tables. -/
def openElement? (key : String) (entries : Entries) : Option Entries :=
  match entries.lookup key with
  | none => some (entries ++ [(key, .tables [[]])])
  | some (.tables elements) => some (entries.replace key (.tables (elements ++ [[]])))
  | _ => none

end Entries

mutual

/-- The finished value of an item. -/
def Item.toValue : Item → Value
  | .value closed => closed
  | .table _ entries => .table (Item.entriesToValues entries)
  | .tables elements => .array (Item.elementsToValues elements)

/-- The finished entries of a table. -/
def Item.entriesToValues : List (String × Item) → List (String × Value)
  | [] => []
  | (key, item) :: entries => (key, item.toValue) :: Item.entriesToValues entries

/-- The finished elements of an array of tables. -/
def Item.elementsToValues : List (List (String × Item)) → List Value
  | [] => []
  | entries :: elements => .table (Item.entriesToValues entries) :: Item.elementsToValues elements

end

end Acpi.Toml
