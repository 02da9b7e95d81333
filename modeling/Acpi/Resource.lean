import Acpi.Error
import Acpi.LittleEndian

/-!
# Resource descriptors

The resources that a device uses are listed in a template: one descriptor after the other and an end
tag.  A small descriptor keeps its length in the low three bits of its tag; a large one (tag with
the top bit set) has a 16-bit length behind the tag.  Only two descriptors can be refused: an
interrupt line must be below 16 and a transfer channel below 8, because the descriptor holds them as
bit masks.

A descriptor is appended to an output field by field (`emit`), and a template is a run of
descriptors on an empty output (`template`).
-/

namespace Acpi

/-- How an interrupt is signalled. -/
structure Signalling where
  edgeTriggered : Bool
  activeLow : Bool
  shared : Bool
  deriving DecidableEq, Repr

/-- One resource of a device. -/
inductive Resource where
  /-- A range of ports that the device decodes with sixteen or with ten bits. -/
  | io (decode16 : Bool) (min max : UInt16) (alignment length : UInt8)
  /-- Ports at a fixed ten-bit address. -/
  | fixedIo (base : UInt16) (length : UInt8)
  /-- A line of the legacy interrupt controller. -/
  | irq (line : UInt8) (signalling : Signalling)
  /-- A channel of the legacy transfer controller. -/
  | dma (channel : UInt8) (busMaster : Bool)
  /-- A relocatable range of memory. -/
  | memory32 (writable : Bool) (min max alignment length : UInt32)
  /-- Memory at a fixed address. -/
  | fixedMemory32 (writable : Bool) (base length : UInt32)
  /-- A global system interrupt. -/
  | extendedIrq (gsi : UInt32) (signalling : Signalling)
  deriving DecidableEq, Repr

namespace Resource

/-- The two little-endian bytes of a word. -/
def word (w : UInt16) : List UInt8 := LittleEndian.encode 2 w.toNat

/-- The four little-endian bytes of a double word. -/
def dword (w : UInt32) : List UInt8 := LittleEndian.encode 4 w.toNat

/-- The number whose only bit is the given one. -/
def single (position : Nat) : Nat := 1 <<< position

/-- A flag as the given bit of a byte. -/
def bit (flag : Bool) (position : Nat) : Nat := if flag then single position else 0

/-! ## Descriptors -/

/-- Writing to an output that grows at its end.  A call that fails keeps what it has written. -/
abbrev OutputM := EStateM TermError (List UInt8)

/-- Appends bytes to the output. -/
def push (bytes : List UInt8) : OutputM Unit := modify (· ++ bytes)

/-- Ends a call that asks for more than a descriptor can hold. -/
def ensure (holds : Bool) : OutputM Unit := if holds then pure () else throw .invalidResource

/-- Appends the tag and the length of a large descriptor. -/
def pushLarge (tag : UInt8) (length : UInt16) : OutputM Unit := do
  push [tag]
  push (word length)

/-- Appends the fields of a descriptor one after the other. -/
def emit : Resource → OutputM Unit
  | .io decode16 min max alignment length => do
      push [0x47, UInt8.ofNat (bit decode16 0)]
      push (word min)
      push (word max)
      push [alignment, length]
  | .fixedIo base length => do
      push [0x4B]
      push (word base)
      push [length]
  | .irq line s => do
      ensure (line ≤ 15)
      push [0x23]
      push (LittleEndian.encode 2 (single line.toNat))
      push [UInt8.ofNat (bit s.edgeTriggered 0 + bit s.activeLow 3 + bit s.shared 4)]
  | .dma channel busMaster => do
      ensure (channel ≤ 7)
      push [0x2A, UInt8.ofNat (single channel.toNat), UInt8.ofNat (bit busMaster 2)]
  | .memory32 writable min max alignment length => do
      pushLarge 0x85 17
      push [UInt8.ofNat (bit writable 0)]
      [min, max, alignment, length].forM fun value => push (dword value)
  | .fixedMemory32 writable base length => do
      pushLarge 0x86 9
      push [UInt8.ofNat (bit writable 0)]
      push (dword base)
      push (dword length)
  | .extendedIrq gsi s => do
      pushLarge 0x89 6
      push [UInt8.ofNat (1 + bit s.edgeTriggered 1 + bit s.activeLow 2 + bit s.shared 3), 1]
      push (dword gsi)

/-! ## Templates -/

/-- The end of a template: its tag and a checksum of zero, which stands for "not computed". -/
def endTag : List UInt8 := [0x79, 0x00]

/-- Appends the descriptors of some resources and the end tag.  The first resource that is refused
ends it. -/
def emitTemplate (resources : List Resource) : OutputM Unit := do
  resources.forM emit
  push endTag

/-- The template of a list of resources. -/
def template (resources : List Resource) : Except TermError (List UInt8) :=
  match (emitTemplate resources).run [] with
  | .ok _ out => .ok out
  | .error cause _ => .error cause

end Resource

end Acpi
