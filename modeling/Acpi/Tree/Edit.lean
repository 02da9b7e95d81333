import Acpi.Tree.Node

/-!
# Editing a tree in place

A position inside a tree is a list of steps, each into the fixed arguments or the body of an object.
`Node.modify?` changes the node at a position and leaves the rest of the tree alone; an `Edit` is
one of the changes that a node allows.
-/

namespace Acpi

/-- One of the two argument lists of an object. -/
inductive Slot where
  | fixed
  | body
  deriving DecidableEq, Repr

/-- A step down: a list of arguments and an index into it. -/
structure Step where
  slot : Slot
  index : Nat
  deriving DecidableEq, Repr

/-- A change of one node. -/
inductive Edit where
  /-- Puts another node in its place. -/
  | set (node : Node)
  /-- Appends bytes to data. -/
  | append (bytes : ByteArray)
  /-- Shortens data; data that are shorter already stay as they are. -/
  | truncate (size : Nat)
  /-- Adds an argument behind the others. -/
  | push (slot : Slot) (node : Node)
  /-- Adds an argument in front of the one at an index. -/
  | insert (slot : Slot) (index : Nat) (node : Node)
  /-- Takes an argument away. -/
  | remove (slot : Slot) (index : Nat)
  /-- Takes all arguments of a list away. -/
  | clear (slot : Slot)

namespace Node

/-- The child one step down. -/
def child? (step : Step) : Node → Option Node
  | .object _ fixed body =>
      match step.slot with
      | .fixed => fixed[step.index]?
      | .body => body[step.index]?
  | _ => none

/-- The node at a position. -/
def get? : List Step → Node → Option Node
  | [], node => some node
  | step :: steps, node => (node.child? step).bind (get? steps)

/-- Changes one of the argument lists of an object. -/
def modifySlot? (slot : Slot) (change : List Node → Option (List Node)) : Node → Option Node
  | .object head fixed body =>
      match slot with
      | .fixed => (change fixed).map fun fixed => .object head fixed body
      | .body => (change body).map fun body => .object head fixed body
  | _ => none

/-- Changes the node at a position; `none` if the position leads nowhere or the change is refused. -/
def modify? (change : Node → Option Node) : List Step → Node → Option Node
  | [], node => change node
  | step :: steps, node =>
      node.modifySlot? step.slot fun nodes => do
        let child ← nodes[step.index]?
        let child ← modify? change steps child
        return nodes.set step.index child

end Node

namespace Edit

/-- Makes a change; `none` if the node does not allow it. -/
def run? : Edit → Node → Option Node
  | .set node, _ => some node
  | .append more, .data bytes => some (.data (bytes ++ more))
  | .truncate size, .data bytes => some (.data (bytes.extract 0 size))
  | .push slot child, node => node.modifySlot? slot fun nodes => some (nodes ++ [child])
  | .insert slot index child, node =>
      node.modifySlot? slot fun nodes =>
        if index ≤ nodes.length then some (nodes.insertIdx index child) else none
  | .remove slot index, node =>
      node.modifySlot? slot fun nodes =>
        if index < nodes.length then some (nodes.eraseIdx index) else none
  | .clear slot, node => node.modifySlot? slot fun _ => some []
  | _, _ => none

end Edit

end Acpi
