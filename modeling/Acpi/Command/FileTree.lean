import Acpi.Command.Files

/-!
# A tree of files in memory

`FileTree` holds directories and files by their place in the tree, and a path leads to a place in it
by the rules of a Unix system.  All parts of a path but the last are entered one after the other, and
the first that cannot be entered decides the error.  What the last part may be depends on the
operation:

* a slash behind the last name asks for a directory, so reading refuses a file there;
* writing would create what is missing, and refuses a slash behind the last name before it looks at
  the name at all.
-/

namespace Acpi.Command

/-- A place in the tree: the names that lead to it, the innermost first.  The root is the empty
list, and the directory around a place is its tail. -/
abbrev Place := List String

/-- What stands at a place. -/
inductive Entry where
  | directory
  | file (bytes : ByteArray)
  /-- The device that holds nothing and keeps nothing. -/
  | null

/-- A tree of files, and the directory in which relative paths start. -/
structure FileTree where
  entries : List (Place × Entry)
  work : Place

namespace FileTree

/-- The most bytes that a name can have. -/
def maxName : Nat := 255

/-- The most bytes that a path can have. -/
def maxPath : Nat := 4095

/-! ## Places -/

/-- What stands at a place, if anything does. -/
def get? (tree : FileTree) : Place → Option Entry
  | [] => some .directory
  | place => tree.entries.lookup place

/-- Puts a file at a place. -/
def put (tree : FileTree) (place : Place) (bytes : ByteArray) : FileTree :=
  { tree with entries := (place, .file bytes) :: tree.entries.filter (·.1 != place) }

/-! ## Paths -/

/-- The parts of a path between its slashes. -/
def splitSlashes : List Char → List (List Char)
  | [] => [[]]
  | c :: rest =>
      if c = '/' then
        [] :: splitSlashes rest
      else
        match splitSlashes rest with
        | [] => [[c]]
        | part :: parts => (c :: part) :: parts

/-- The parts of a path that name something. -/
def parts (path : String) : List String :=
  ((splitSlashes path.toList).filter (! ·.isEmpty)).map String.ofList

/-- Where a path starts: at the root or in the working directory. -/
def start (tree : FileTree) (path : String) : Place :=
  if path.toList.head? = some '/' then [] else tree.work

/-- Enters a directory from another one, by one part of a path. -/
def enter (tree : FileTree) (here : Place) (part : String) : Except FileError Place :=
  if part = "." then
    .ok here
  else if part = ".." then
    .ok here.tail
  else if part.utf8ByteSize > maxName then
    .error .nameTooLong
  else
    match tree.get? (part :: here) with
    | none => .error .notFound
    | some .directory => .ok (part :: here)
    | some _ => .error .notDirectory

/-- Where the last part of a path leads. -/
inductive Target where
  /-- To a directory that is there, because it was entered or holds one that was. -/
  | entered
  /-- To a name in a directory; whether a slash behind the name asks for a directory. -/
  | named (name : String) (directory : Place) (slash : Bool)

/-- Where a path leads. -/
def locate (tree : FileTree) (path : String) : Except FileError Target := do
  if path.isEmpty then throw .notFound
  if path.utf8ByteSize > maxPath then throw .nameTooLong
  match (parts path).getLast? with
  | none => return .entered
  | some last =>
      let directory ← (parts path).dropLast.foldlM tree.enter (tree.start path)
      if last = "." || last = ".." then
        return .entered
      else
        return .named last directory (path.toList.getLast? == some '/')

/-! ## Operations -/

/-- The contents of a file. -/
def read (tree : FileTree) (path : String) : Except FileError ByteArray := do
  match ← tree.locate path with
  | .entered => throw .isDirectory
  | .named name directory slash =>
      if name.utf8ByteSize > maxName then throw .nameTooLong
      match tree.get? (name :: directory) with
      | none => throw .notFound
      | some .directory => throw .isDirectory
      | some (.file bytes) => if slash then throw .notDirectory else return bytes
      | some .null => if slash then throw .notDirectory else return ByteArray.empty

/-- Writes a file. -/
def write (tree : FileTree) (path : String) (bytes : ByteArray) : Except FileError FileTree := do
  match ← tree.locate path with
  | .entered => throw .isDirectory
  | .named name directory slash =>
      if slash then throw .isDirectory
      if name.utf8ByteSize > maxName then throw .nameTooLong
      match tree.get? (name :: directory) with
      | some .directory => throw .isDirectory
      | some .null => return tree
      | some (.file _) | none => return tree.put (name :: directory) bytes

/-- The operations on a tree held in memory. -/
def store : Files (StateM FileTree) where
  read path := do return (← get).read path
  write path bytes := do
    match (← get).write path bytes with
    | .ok tree =>
        set tree
        return .ok ()
    | .error error => return .error error

end FileTree

end Acpi.Command
