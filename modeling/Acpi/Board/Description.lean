import Acpi.Resource

/-!
# Board descriptions

A board description names a table and lists the devices that firmware cannot find by itself, each in
the scope that it belongs to.  The fields of the table that a description leaves out have defaults.
-/

namespace Acpi.Board

/-- The texts and numbers of the table header. -/
structure Identity where
  signature : String := "SSDT"
  revision : UInt8 := 2
  oemId : String := "HADRON"
  oemTableId : String := "SSDTGEN"
  oemRevision : UInt32 := 0
  creatorId : String := "HDRN"
  creatorRevision : UInt32 := 0
  deriving DecidableEq, Repr

/-- A resource as a description lists it. -/
inductive ListedResource where
  | io (min max : UInt16) (alignment length : UInt8) (decode16 : Bool)
  | fixedIo (base : UInt16) (length : UInt8)
  | irq (line : UInt8) (edgeTriggered activeLow shared : Bool)
  | dma (channel : UInt8) (busMaster : Bool)
  | memory32 (min max alignment length : UInt32) (writable : Bool)
  | fixedMemory32 (base length : UInt32) (writable : Bool)
  | extendedIrq (gsi : UInt32) (edgeTriggered activeLow shared : Bool)
  deriving DecidableEq, Repr

/-- The resource that a descriptor is made for. -/
def ListedResource.toResource : ListedResource → Resource
  | .io min max alignment length decode16 => .io decode16 min max alignment length
  | .fixedIo base length => .fixedIo base length
  | .irq line edgeTriggered activeLow shared => .irq line { edgeTriggered, activeLow, shared }
  | .dma channel busMaster => .dma channel busMaster
  | .memory32 min max alignment length writable => .memory32 writable min max alignment length
  | .fixedMemory32 base length writable => .fixedMemory32 writable base length
  | .extendedIrq gsi edgeTriggered activeLow shared =>
      .extendedIrq gsi { edgeTriggered, activeLow, shared }

/-- A device. -/
structure Device where
  name : String
  /-- The identifier that a driver is chosen by. -/
  hid : String
  /-- Tells devices with the same identifier apart. -/
  uid : Option UInt64
  /-- An identifier that a driver may be chosen by as well. -/
  cid : Option String
  /-- The status that the device reports. -/
  sta : Option UInt8
  resources : List ListedResource
  deriving DecidableEq, Repr

/-- A scope and the devices in it. -/
structure Scope where
  path : String
  devices : List Device
  deriving DecidableEq, Repr

/-- A whole description. -/
structure Description where
  table : Identity
  scopes : List Scope
  deriving DecidableEq, Repr

end Acpi.Board
