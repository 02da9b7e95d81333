import Acpi.Tree.Edit
import Acpi.Tree.Layout

/-!
# Blocks under construction

A block is edited until it is written.  Stamping it writes its present length into the header; a
later write then refuses the block if an edit has changed its length in between.
-/

namespace Acpi

/-- The top of a tree: a header and the terms below it. -/
structure Block where
  header : Header
  body : List Node

namespace Block

/-- The block as a tree. -/
def toNode (block : Block) : Node := .block block.header block.body

/-- Adds a term behind the others. -/
def push (block : Block) (node : Node) : Block := { block with body := block.body ++ [node] }

/-- Changes the header and leaves the terms alone. -/
def mapHeader (block : Block) (change : Header → Header) : Block :=
  { block with header := change block.header }

/-- The node at a position: a term of the block and the steps down from it. -/
def get? (block : Block) (index : Nat) (steps : List Step) : Option Node :=
  (block.body[index]?).bind (Node.get? steps)

/-- Edits the node at a position; `none` if the position leads nowhere or the node does not allow
the edit. -/
def edit? (block : Block) (index : Nat) (steps : List Step) (edit : Edit) : Option Block := do
  let node ← block.body[index]?
  let node ← node.modify? edit.run? steps
  return { block with body := block.body.set index node }

/-- Writes the present length into the header; a block that cannot be measured stays as it is. -/
def stamp (block : Block) : Except EncodeError Nat × Block :=
  match Layout.ofBody block.body with
  | .error cause => (.error cause, block)
  | .ok layout =>
      (.ok layout.total.toNat,
        block.mapHeader fun header => { header with length := layout.total })

end Block

end Acpi
