import Acpi.Board.Description
import Acpi.Toml.Document

/-!
# Reading board descriptions

A description is a TOML document.  Every record of it may be written as a table, with its fields
under their keys, or as an array, with its fields in order; keys that are not known are passed over,
and so are the items of an array behind the last field.  Fields that are left out take their
defaults, and a field without a default must be present.  No value is converted: a number is not a
text, and an integer must fit its field.

A resource is the exception in two points: its kind decides which fields it has, so the kind comes
first in an array, and surplus items are refused.
-/

namespace Acpi.Board

open Toml (Value)

/-- Finds the description in a text, if there is one. -/
abbrev Reader := String → Option Description

/-- Why a text is no description. -/
inductive ParseError where
  /-- It is no document, or a field is missing or has the wrong form. -/
  | malformed
  /-- It describes a table of another kind. -/
  | signature (found : String)
  deriving DecidableEq, Repr

/-- The wording of a cause. -/
def ParseError.message : ParseError → String
  | .malformed => "malformed table description"
  | .signature found => "signature must be SSDT or DSDT, got '" ++ found ++ "'"

/-! ## Single values -/

/-- A text. -/
def text? : Value → Option String
  | .string text => some text
  | _ => none

/-- A truth value. -/
def flag? : Value → Option Bool
  | .boolean flag => some flag
  | _ => none

/-- A natural number below a bound. -/
def natBelow? (bound : Nat) : Value → Option Nat
  | .integer value => if 0 ≤ value ∧ value < bound then some value.toNat else none
  | _ => none

/-- A byte. -/
def uint8? (value : Value) : Option UInt8 := (natBelow? 0x100 value).map UInt8.ofNat

/-- A word of two bytes. -/
def uint16? (value : Value) : Option UInt16 := (natBelow? 0x10000 value).map UInt16.ofNat

/-- A word of four bytes. -/
def uint32? (value : Value) : Option UInt32 := (natBelow? 0x100000000 value).map UInt32.ofNat

/-- A word of eight bytes. -/
def uint64? (value : Value) : Option UInt64 := (natBelow? 0x10000000000000000 value).map UInt64.ofNat

/-- A list. -/
def list? {α : Type} (item? : Value → Option α) : Value → Option (List α)
  | .array items => items.mapM item?
  | _ => none

/-! ## Records -/

/-- The fields of a record, by key or in order. -/
inductive Fields where
  | named (entries : List (String × Value))
  | listed (items : List Value)

namespace Fields

/-- The fields that a value gives.  A date or time counts as a table without any known key. -/
def of? : Value → Option Fields
  | .table entries => some (.named entries)
  | .array items => some (.listed items)
  | .dateTime _ => some (.named [])
  | _ => none

/-- The value of a field, given its key and its place. -/
def get? (fields : Fields) (key : String) (place : Nat) : Option Value :=
  match fields with
  | .named entries => entries.lookup key
  | .listed items => items[place]?

/-- A field that must be present. -/
def required? {α : Type} (fields : Fields) (key : String) (place : Nat)
    (decode? : Value → Option α) : Option α :=
  (fields.get? key place).bind decode?

/-- A field that may be left out. -/
def optional? {α : Type} (fields : Fields) (key : String) (place : Nat)
    (decode? : Value → Option α) : Option (Option α) :=
  match fields.get? key place with
  | none => some none
  | some value => (decode? value).map some

/-- A field with a default. -/
def default? {α : Type} (fields : Fields) (key : String) (place : Nat)
    (decode? : Value → Option α) (default : α) : Option α :=
  (fields.optional? key place decode?).map (·.getD default)

/-- The kind of a record and its other fields. -/
def tagged? : Fields → Option (String × Fields)
  | .named entries => do
      let kind ← (entries.lookup "type").bind text?
      return (kind, .named entries)
  | .listed (kind :: items) => do
      return (← text? kind, .listed items)
  | .listed [] => none

/-- Whether an array has no more items than the record has fields. -/
def atMost (fields : Fields) (count : Nat) : Bool :=
  match fields with
  | .named _ => true
  | .listed items => items.length ≤ count

end Fields

/-- An interrupt: behind the field that names it follow three flags. -/
def signalled? (fields : Fields) (interrupt : Bool → Bool → Bool → ListedResource) :
    Option ListedResource := do
  return interrupt (← fields.default? "edge-triggered" 1 flag? false)
    (← fields.default? "active-low" 2 flag? false) (← fields.default? "shared" 3 flag? false)

/-- A resource. -/
def resource? (value : Value) : Option ListedResource := do
  let (kind, fields) ← (← Fields.of? value).tagged?
  match kind with
  | "io" =>
      guard (fields.atMost 5)
      return .io (← fields.required? "min" 0 uint16?) (← fields.required? "max" 1 uint16?)
        (← fields.default? "alignment" 2 uint8? 1) (← fields.required? "length" 3 uint8?)
        (← fields.default? "decode16" 4 flag? true)
  | "fixed-io" =>
      guard (fields.atMost 2)
      return .fixedIo (← fields.required? "base" 0 uint16?) (← fields.required? "length" 1 uint8?)
  | "irq" =>
      guard (fields.atMost 4)
      signalled? fields (.irq (← fields.required? "irq" 0 uint8?))
  | "dma" =>
      guard (fields.atMost 2)
      return .dma (← fields.required? "channel" 0 uint8?)
        (← fields.default? "bus-master" 1 flag? false)
  | "memory32" =>
      guard (fields.atMost 5)
      return .memory32 (← fields.required? "min" 0 uint32?) (← fields.required? "max" 1 uint32?)
        (← fields.default? "alignment" 2 uint32? 1) (← fields.required? "length" 3 uint32?)
        (← fields.default? "writable" 4 flag? true)
  | "fixed-memory32" =>
      guard (fields.atMost 3)
      return .fixedMemory32 (← fields.required? "base" 0 uint32?)
        (← fields.required? "length" 1 uint32?) (← fields.default? "writable" 2 flag? true)
  | "extended-irq" =>
      guard (fields.atMost 4)
      signalled? fields (.extendedIrq (← fields.required? "gsi" 0 uint32?))
  | _ => failure

/-- A device. -/
def device? (value : Value) : Option Device := do
  let fields ← Fields.of? value
  return {
    name := ← fields.required? "name" 0 text?
    hid := ← fields.required? "hid" 1 text?
    uid := ← fields.optional? "uid" 2 uint64?
    cid := ← fields.optional? "cid" 3 text?
    sta := ← fields.optional? "sta" 4 uint8?
    resources := ← fields.default? "resource" 5 (list? resource?) [] }

/-- A scope. -/
def scope? (value : Value) : Option Scope := do
  let fields ← Fields.of? value
  return {
    path := ← fields.required? "path" 0 text?
    devices := ← fields.default? "device" 1 (list? device?) [] }

/-- The header of the table. -/
def identity? (value : Value) : Option Identity := do
  let fields ← Fields.of? value
  let default : Identity := {}
  return {
    signature := ← fields.default? "signature" 0 text? default.signature
    revision := ← fields.default? "revision" 1 uint8? default.revision
    oemId := ← fields.default? "oem-id" 2 text? default.oemId
    oemTableId := ← fields.default? "oem-table-id" 3 text? default.oemTableId
    oemRevision := ← fields.default? "oem-revision" 4 uint32? default.oemRevision
    creatorId := ← fields.default? "creator-id" 5 text? default.creatorId
    creatorRevision := ← fields.default? "creator-revision" 6 uint32? default.creatorRevision }

/-- A whole description. -/
def description? (entries : List (String × Value)) : Option Description := do
  let fields := Fields.named entries
  return {
    table := ← fields.default? "table" 0 identity? {}
    scopes := ← fields.default? "scope" 1 (list? scope?) [] }

/-- The kinds of tables that can be described. -/
def signatures : List String := ["SSDT", "DSDT"]

/-- The description that a text holds, in the notation of a reader. -/
def Description.parse (reader : Reader) (text : String) : Except ParseError Description :=
  match reader text with
  | none => .error .malformed
  | some description =>
      if signatures.contains description.table.signature then
        .ok description
      else
        .error (.signature description.table.signature)

/-- The reader of descriptions that are TOML documents. -/
def Description.ofToml? : Reader := fun text => (Toml.Document.parse? text).bind description?

end Acpi.Board
