import Acpi.EisaId
import Acpi.Name.Path
import Acpi.Resource
import Acpi.Tree.Node

/-!
# Terms

The constructs of the language, each as a function that builds its tree: constants, strings,
buffers and packages, named objects, scopes, devices, methods and calls.  A construct that can be
refused gives the cause; where two parts are at fault, limits are checked before names.
-/

namespace Acpi.Term

/-- Data of a few bytes. -/
def raw (bytes : List UInt8) : Node := .data bytes.toByteArray

/-- An object with a plain opcode. -/
def object (opcode : UInt8) (fixed body : List Node) : Node :=
  .object (Head.plain opcode) fixed body

/-- A name path. -/
def nameString (path : String) : Except TermError Node := do
  return raw (← Name.Path.parse path).bytes

/-- An integer constant in its shortest form: 0, 1 and all ones have opcodes of their own, any other
number takes one, two, four or eight bytes. -/
def integer (value : UInt64) : Node :=
  if value = 0 then
    object Opcode.zeroOp [] []
  else if value = 1 then
    object Opcode.oneOp [] []
  else if value = 0xFFFFFFFFFFFFFFFF then
    object Opcode.onesOp [] []
  else if value.toNat < 0x100 then
    raw (Opcode.byteConst :: LittleEndian.encode 1 value.toNat)
  else if value.toNat < 0x10000 then
    raw (Opcode.wordConst :: LittleEndian.encode 2 value.toNat)
  else if value.toNat < 0x100000000 then
    raw (Opcode.dwordConst :: LittleEndian.encode 4 value.toNat)
  else
    raw (Opcode.qwordConst :: LittleEndian.encode 8 value.toNat)

/-- A constant of four bytes, whatever its value. -/
def dword (value : UInt32) : Node :=
  raw (Opcode.dwordConst :: LittleEndian.encode 4 value.toNat)

/-- The characters that a string constant can hold: ASCII without the terminator. -/
def isStringChar (c : Char) : Bool := c.toNat < 128 && c.toNat != 0

/-- A string constant, closed by a zero byte. -/
def string (text : String) : Except TermError Node :=
  if text.toList.all isStringChar then
    .ok (raw (Opcode.stringConst :: text.toList.map (fun c => UInt8.ofNat c.toNat) ++ [0]))
  else
    .error .invalidString

/-- A packed device identifier as a constant. -/
def eisaId (text : String) : Except TermError Node := do
  return dword (← EisaId.parse text).raw

/-- A buffer with its contents. -/
def buffer (bytes : ByteArray) : Node :=
  object Opcode.bufferOp [integer (UInt64.ofNat bytes.size), .data bytes] []

/-- The most elements that the count byte of a package can tell. -/
def maxElements : Nat := 255

/-- A package of elements. -/
def package (elements : List Node) : Except TermError Node :=
  if elements.length ≤ maxElements then
    .ok (object Opcode.packageOp [raw [UInt8.ofNat elements.length]] elements)
  else
    .error .tooLarge

/-- A buffer that holds a resource template. -/
def resourceTemplate (resources : List Resource) : Except TermError Node := do
  return buffer (← Resource.template resources).toByteArray

/-- A scope with the terms in it. -/
def scope (path : String) (body : List Node) : Except TermError Node := do
  return object Opcode.scopeOp [← nameString path] body

/-- A device with the terms in it. -/
def device (path : String) (body : List Node) : Except TermError Node := do
  return .object (Head.extended Opcode.deviceExt) [← nameString path] body

/-- A named value. -/
def name (path : String) (value : Node) : Except TermError Node := do
  return object Opcode.nameOp [← nameString path, value] []

/-- The most arguments of a method. -/
def maxArguments : Nat := 7

/-- The largest synchronisation level. -/
def maxSyncLevel : UInt8 := 15

/-- The flags of a method: argument count, serialised or not, synchronisation level. -/
def methodFlags (args : UInt8) (serialized : Bool) (syncLevel : UInt8) : UInt8 :=
  UInt8.ofNat (args.toNat + (if serialized then 8 else 0) + 16 * syncLevel.toNat)

/-- A method with its body. -/
def method (path : String) (args : UInt8) (serialized : Bool) (syncLevel : UInt8)
    (body : List Node) : Except TermError Node := do
  if args.toNat > maxArguments then throw .tooManyArguments
  if syncLevel > maxSyncLevel then throw .invalidSyncLevel
  return object Opcode.methodOp
    [← nameString path, raw [methodFlags args serialized syncLevel]] body

/-- The call of a method.  The count of its arguments is noted and not written, because a reader
knows it from the declaration of the method. -/
def call (path : String) (args : List Node) : Except TermError Node := do
  if args.length > maxArguments then throw .tooManyArguments
  return .object Head.group.asInvocation
    [← nameString path, raw [UInt8.ofNat args.length]] args

/-- The return from a method. -/
def returnValue (value : Node) : Node := object Opcode.returnOp [value] []

/-- Terms that stand together. -/
def group (body : List Node) : Node := .object Head.group [] body

end Acpi.Term
