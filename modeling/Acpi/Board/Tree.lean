import Acpi.Board.Description
import Acpi.Tree.Term

/-!
# From a description to a tree

Every scope of a description becomes a scope term, and every device in it a device term with its
identifiers, its status method and its resources.  The header texts are filled up with blanks.

An error says where it arose, from the outside in.
-/

namespace Acpi.Board

/-- Why a description cannot be turned into a tree. -/
inductive BuildError where
  /-- A header text is empty, too long or not ASCII. -/
  | badText (field : String) (limit : Nat) (found : String)
  /-- The cause lies in a device of this scope. -/
  | inScope (path : String) (cause : BuildError)
  /-- The path of a scope is refused. -/
  | badScope (path : String) (cause : TermError)
  /-- The cause lies in this device. -/
  | inDevice (name : String) (cause : BuildError)
  /-- An identifier is refused. -/
  | badId (id : String) (cause : TermError)
  /-- A term is refused. -/
  | term (cause : TermError)
  deriving DecidableEq, Repr

/-- The wording of a cause, one line per level, the outermost first. -/
def BuildError.chain : BuildError → List String
  | .badText field limit found =>
      [field ++ " must be 1-" ++ Nat.repr limit ++ " ASCII characters, got '" ++ found ++ "'"]
  | .inScope path cause => ("in scope " ++ path) :: cause.chain
  | .badScope path cause => ["invalid scope path '" ++ path ++ "'", cause.message]
  | .inDevice name cause => ("device " ++ name) :: cause.chain
  | .badId id cause => ["invalid hardware ID '" ++ id ++ "'", cause.message]
  | .term cause => [cause.message]

/-! ## The header -/

/-- A header text can be held by a field of the given size. -/
def fits (limit : Nat) (text : List Char) : Bool :=
  text.all (fun c => c.toNat < 128) && !text.isEmpty && text.length ≤ limit

/-- A header text, filled up with blanks to the size of its field. -/
def padded (size : Nat) (field : String) (text : String) : Except BuildError (Vector UInt8 size) :=
  if fits size text.toList then
    .ok (Vector.ofFn fun index => UInt8.ofNat (text.toList.getD index ' ').toNat)
  else
    .error (.badText field size text)

/-- The header that a description asks for, not yet stamped. -/
def Identity.header (identity : Identity) : Except BuildError Header := do
  let signature ← padded 4 "signature" identity.signature
  let oemId ← padded 6 "oem-id" identity.oemId
  let oemTableId ← padded 8 "oem-table-id" identity.oemTableId
  let creatorId ← padded 4 "creator-id" identity.creatorId
  return {
    signature, oemId, oemTableId
    length := 0
    revision := identity.revision
    checksum := 0
    oemRevision := identity.oemRevision
    creatorId := UInt32.ofNat (LittleEndian.decode creatorId.toList)
    creatorRevision := identity.creatorRevision }

/-! ## The terms -/

/-- An identifier: packed if it has that form, a string otherwise. -/
def identifier (id : String) : Except BuildError Node :=
  if (EisaId.parse id).isOk then
    (Term.eisaId id).mapError .term
  else
    (Term.string id).mapError (.badId id)

/-- A named value. -/
def named (name : String) (value : Node) : Except BuildError Node :=
  (Term.name name value).mapError .term

/-- The status method of a device. -/
def statusMethod (status : UInt8) : Except BuildError Node :=
  (Term.method "_STA" 0 false 0
    [Term.returnValue (Term.integer status.toUInt64)]).mapError .term

namespace Device

/-- The terms of a part that may be left out. -/
def part {α : Type} (value : Option α) (build : α → Except BuildError Node) :
    Except BuildError (List Node) :=
  match value with
  | none => .ok []
  | some value => do return [← build value]

/-- The terms of a device, in order. -/
def body (device : Device) : Except BuildError (List Node) := do
  let inDevice {α : Type} (result : Except BuildError α) := result.mapError (.inDevice device.name)
  let hid ← named "_HID" (← inDevice (identifier device.hid))
  let uid ← part device.uid fun uid => named "_UID" (Term.integer uid)
  let cid ← part device.cid fun cid => do named "_CID" (← inDevice (identifier cid))
  let sta ← part device.sta statusMethod
  let resources := if device.resources.isEmpty then none else some device.resources
  let crs ← part resources fun resources => do
    let template := Term.resourceTemplate (resources.map ListedResource.toResource)
    named "_CRS" (← inDevice (template.mapError .term))
  return hid :: (uid ++ cid ++ sta ++ crs)

/-- The term of a device. -/
def node (device : Device) : Except BuildError Node := do
  let body ← device.body
  (Term.device device.name body).mapError fun cause => .inDevice device.name (.term cause)

end Device

/-- The term of a scope; its devices are looked at before its path. -/
def Scope.node (scope : Scope) : Except BuildError Node := do
  let devices ← (scope.devices.mapM Device.node).mapError (.inScope scope.path)
  (Term.scope scope.path devices).mapError (.badScope scope.path)

/-- The tree of a description. -/
def Description.node (description : Description) : Except BuildError Node := do
  let header ← description.table.header
  let body ← description.scopes.mapM Scope.node
  return .block header body

end Acpi.Board
