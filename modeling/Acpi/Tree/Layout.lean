import Acpi.PkgLength
import Acpi.Tree.Node

/-!
# Measuring a tree

A package length stands in front of the bytes that it counts, so a tree is measured before it is
written.  Measuring walks the tree once and collects the package lengths in the order in which they
will be written: every packaged object reserves a slot before its arguments are measured and fills
it afterwards.

Sizes are 32-bit numbers.  Every sum is checked as soon as it is formed, after the child that
contributes to it has been measured, so the first fault met on the way decides the outcome.
-/

namespace Acpi

/-- What measuring finds: all package lengths in the order of writing, and the whole size. -/
structure Layout where
  lengths : Array PkgLength
  total : UInt32
  deriving DecidableEq, Repr, Inhabited

/-- The largest size that a 32-bit length can tell. -/
def maxSize : Nat := 0xFFFFFFFF

namespace Layout

/-- The layout of nothing. -/
def empty : Layout := ⟨#[], 0⟩

/-- Measuring, with the package lengths found so far. -/
abbrev MeasureM := EStateM EncodeError (Array PkgLength)

/-- A size, refused if it exceeds 32 bits. -/
def checked (size : Nat) : MeasureM Nat :=
  if size ≤ maxSize then pure size else throw .sizeOverflow

/-- Reserves the next slot and gives its index. -/
def reserve : MeasureM Nat := fun lengths => .ok lengths.size (lengths.push PkgLength.empty)

/-- Fills a reserved slot. -/
def fill (slot : Nat) (length : PkgLength) : MeasureM Unit := fun lengths =>
  .ok () (lengths.setIfInBounds slot length)

/-- Measures a payload behind a package length: the slot comes before those of the payload.  The
payload fits 32 bits, as its size has been checked. -/
def packaged (payload : MeasureM Nat) : MeasureM Nat := do
  let slot ← reserve
  let size ← payload
  match PkgLength.search? (UInt32.ofNat size) PkgLength.widths with
  | some length =>
      fill slot length
      pure length.value
  | none => throw .sizeOverflow

/-- The size of an opcode; see `Head.opcodeSize`. -/
def opcodeSize (head : Head) : MeasureM Nat :=
  match head.opcodeSize with
  | .ok size => pure size
  | .error error => throw error

mutual

/-- The size of a tree below the top. -/
def measureNode : Node → MeasureM Nat
  | .block .. => throw .invalidTree
  | .data bytes => checked bytes.size
  | .object head fixed body => do
      let opcode ← opcodeSize head
      let args : MeasureM Nat := do
        let size ← if head.invocation then measureCallee 0 fixed else measureNodes 0 fixed
        measureNodes size body
      if head.pseudo then
        args
      else
        let size ← if head.packaged then packaged args else args
        checked (size + opcode)

/-- The size of a list of trees, on top of a size that has been found already. -/
def measureNodes (size : Nat) : List Node → MeasureM Nat
  | [] => pure size
  | node :: nodes => do
      let more ← measureNode node
      let size ← checked (size + more)
      measureNodes size nodes

/-- The size of the fixed arguments of an invocation, without the private one, on top of a size that
has been found already. -/
def measureCallee (size : Nat) : List Node → MeasureM Nat
  | [] => pure size
  | [callee] => do
      let more ← measureNode callee
      checked (size + more)
  | callee :: _ :: nodes => do
      let more ← measureNode callee
      let size ← checked (size + more)
      measureNodes size nodes

end

/-- Runs a measurement from an empty list of package lengths.  What it finds fits 32 bits, as every
size has been checked. -/
def run (measurement : MeasureM Nat) : Except EncodeError Layout :=
  match measurement.run #[] with
  | .ok size lengths => .ok ⟨lengths, UInt32.ofNat size⟩
  | .error error _ => .error error

/-- The layout of a table: its header and the terms of its body. -/
def ofBody (body : List Node) : Except EncodeError Layout :=
  run do
    let size ← measureNodes 0 body
    checked (size + Header.size)

/-- The layout of a tree.  A block is measured with its header. -/
def ofNode : Node → Except EncodeError Layout
  | .block _ body => ofBody body
  | node => run (measureNode node)

end Layout

/-- The bytes that a tree takes. -/
def Node.size (node : Node) : Except EncodeError Nat := (Layout.ofNode node).map (·.total.toNat)

end Acpi
