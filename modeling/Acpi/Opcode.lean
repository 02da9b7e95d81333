/-!
# Opcodes

The one-byte opcodes of the machine language and the second bytes of its extended opcodes, as far
as this library writes them, and the rule that says which of them are followed by a package length.
-/

namespace Acpi.Opcode

abbrev zeroOp : UInt8 := 0x00
abbrev oneOp : UInt8 := 0x01
abbrev nameOp : UInt8 := 0x08
/-- Leads a constant of one byte. -/
abbrev byteConst : UInt8 := 0x0A
/-- Leads a constant of two bytes. -/
abbrev wordConst : UInt8 := 0x0B
/-- Leads a constant of four bytes. -/
abbrev dwordConst : UInt8 := 0x0C
/-- Leads a string, which ends with a zero byte. -/
abbrev stringConst : UInt8 := 0x0D
/-- Leads a constant of eight bytes. -/
abbrev qwordConst : UInt8 := 0x0E
abbrev scopeOp : UInt8 := 0x10
abbrev bufferOp : UInt8 := 0x11
abbrev packageOp : UInt8 := 0x12
abbrev varPackageOp : UInt8 := 0x13
abbrev methodOp : UInt8 := 0x14
/-- Leads a name of two segments. -/
abbrev dualName : UInt8 := 0x2E
/-- Leads a name of three or more segments. -/
abbrev multiName : UInt8 := 0x2F
/-- Leads an opcode of two bytes. -/
abbrev extended : UInt8 := 0x5B
/-- Leads a name that starts at the root of the namespace. -/
abbrev rootChar : UInt8 := 0x5C
/-- Leads a name that starts one scope further out. -/
abbrev parentChar : UInt8 := 0x5E
abbrev ifOp : UInt8 := 0xA0
abbrev elseOp : UInt8 := 0xA1
abbrev whileOp : UInt8 := 0xA2
abbrev returnOp : UInt8 := 0xA4
abbrev onesOp : UInt8 := 0xFF

/-! ## Second bytes of extended opcodes -/

abbrev fieldExt : UInt8 := 0x81
abbrev deviceExt : UInt8 := 0x82
abbrev processorExt : UInt8 := 0x83
abbrev powerResourceExt : UInt8 := 0x84
abbrev thermalZoneExt : UInt8 := 0x85
abbrev indexFieldExt : UInt8 := 0x86
abbrev bankFieldExt : UInt8 := 0x87

/-- The plain opcodes that are followed by a package length. -/
def packaged : List UInt8 :=
  [scopeOp, bufferOp, packageOp, varPackageOp, methodOp, ifOp, elseOp, whileOp]

/-- The extended opcodes, by their second byte, that are followed by a package length. -/
def packagedExt : List UInt8 :=
  [fieldExt, deviceExt, processorExt, powerResourceExt, thermalZoneExt, indexFieldExt, bankFieldExt]

/-- Whether the grammar puts a package length behind this opcode. -/
def carriesLength (opcode : UInt8) : Option UInt8 → Bool
  | none => packaged.contains opcode
  | some sub => opcode == extended && packagedExt.contains sub

end Acpi.Opcode
