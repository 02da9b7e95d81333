import Acpi.Tree.Writer
import Mathlib.Data.List.InsertIdx

/-!
# The written part of a tree

Measuring and writing walk a tree by mutual recursion over nodes, lists of nodes and the fixed
arguments of invocations.  The three cases differ only in which arguments they visit, and
`Head.writtenArgs` says which those are.  This module removes the difference once:

* `Node.fold` computes a value for a tree from the values of its written arguments, and
  `Node.written_induction` proves a fact about a tree from the same fact about its written
  arguments;
* `Layout.measureNode_object` and `Writer.writeNode_object` say that the two walks visit
  `Head.writtenArgs`, one argument after the other.

Every later module speaks of the written arguments only, so that nothing further has to be said
about private arguments.
-/

namespace Acpi

namespace Head

variable {α β : Type}

theorem map_writtenArgs (head : Head) (f : α → β) (fixed body : List α) :
    (head.writtenArgs fixed body).map f = head.writtenArgs (fixed.map f) (body.map f) := by
  unfold writtenArgs
  split <;> simp [List.eraseIdx_map]

/-- A written argument is an argument. -/
theorem mem_of_mem_writtenArgs {head : Head} {fixed body : List α} {arg : α}
    (h : arg ∈ head.writtenArgs fixed body) : arg ∈ fixed ∨ arg ∈ body := by
  unfold writtenArgs at h
  rcases List.mem_append.1 h with hFixed | hBody
  · split at hFixed
    · exact Or.inl (List.mem_of_mem_eraseIdx hFixed)
    · exact Or.inl hFixed
  · exact Or.inr hBody

end Head

namespace Node

/-! ## Recursion and induction along the written arguments -/

/-- What is computed for each kind of node, given what was computed for its written arguments. -/
structure Algebra (α : Type) where
  block : Header → List α → α
  data : ByteArray → α
  object : Head → List α → α

variable {α : Type}

mutual

/-- Computes a value for a tree, bottom up.  What stands in a private argument does not count. -/
def fold (algebra : Algebra α) : Node → α
  | .block header body => algebra.block header (foldEach algebra body)
  | .data bytes => algebra.data bytes
  | .object head fixed body =>
      algebra.object head (head.writtenArgs (foldEach algebra fixed) (foldEach algebra body))

/-- The values of a list of trees. -/
def foldEach (algebra : Algebra α) : List Node → List α
  | [] => []
  | node :: nodes => fold algebra node :: foldEach algebra nodes

end

theorem foldEach_eq_map (algebra : Algebra α) (nodes : List Node) :
    foldEach algebra nodes = nodes.map (fold algebra) := by
  induction nodes with
  | nil => rfl
  | cons node nodes ih => rw [foldEach, ih, List.map_cons]

theorem fold_block (algebra : Algebra α) (header : Header) (body : List Node) :
    fold algebra (.block header body) = algebra.block header (body.map (fold algebra)) := by
  rw [fold, foldEach_eq_map]

theorem fold_data (algebra : Algebra α) (bytes : ByteArray) :
    fold algebra (.data bytes) = algebra.data bytes := by
  rw [fold]

theorem fold_object (algebra : Algebra α) (head : Head) (fixed body : List Node) :
    fold algebra (.object head fixed body) =
      algebra.object head ((head.writtenArgs fixed body).map (fold algebra)) := by
  rw [fold, foldEach_eq_map, foldEach_eq_map, Head.map_writtenArgs]

/-- A fact holds of every tree if it passes from the written arguments of an object to the object
and from the terms of a block to the block. -/
@[elab_as_elim]
theorem written_induction {motive : Node → Prop}
    (block : ∀ header body, (∀ node ∈ body, motive node) → motive (.block header body))
    (data : ∀ bytes, motive (.data bytes))
    (object : ∀ head fixed body, (∀ node ∈ head.writtenArgs fixed body, motive node) →
      motive (.object head fixed body))
    (node : Node) : motive node := by
  refine @Node.rec motive (fun nodes => ∀ node ∈ nodes, motive node) block ?_ data ?_ ?_ node
  · intro head fixed body hFixed hBody
    apply object
    intro node hMem
    rcases Head.mem_of_mem_writtenArgs hMem with hMem | hMem
    · exact hFixed node hMem
    · exact hBody node hMem
  · intro node hMem
    exact absurd hMem List.not_mem_nil
  · intro node nodes hNode hNodes other hMem
    rcases List.mem_cons.1 hMem with rfl | hMem
    · exact hNode
    · exact hNodes other hMem

end Node

/-! ## The two walks visit the written arguments -/

namespace Layout

theorem measureNodes_append (size : Nat) (nodes more : List Node) :
    measureNodes size (nodes ++ more) =
      measureNodes size nodes >>= fun size => measureNodes size more := by
  induction nodes generalizing size with
  | nil => simp [measureNodes]
  | cons node nodes ih => simp [measureNodes, ih]

theorem measureCallee_eq (size : Nat) (fixed : List Node) :
    measureCallee size fixed = measureNodes size (fixed.eraseIdx 1) := by
  match fixed with
  | [] => simp [measureCallee, measureNodes]
  | [callee] => simp [measureCallee, measureNodes]
  | callee :: _ :: nodes => simp [measureCallee, measureNodes]

/-- An object is measured by its opcode and its written arguments. -/
theorem measureNode_object (head : Head) (fixed body : List Node) :
    measureNode (.object head fixed body) = (do
      let opcode ← opcodeSize head
      let args := measureNodes 0 (head.writtenArgs fixed body)
      if head.pseudo then
        args
      else
        let size ← if head.packaged then packaged args else args
        checked (size + opcode)) := by
  rw [measureNode, Head.writtenArgs]
  cases head.invocation <;> simp [measureCallee_eq, measureNodes_append]

end Layout

namespace Writer

theorem writeNodes_append (nodes more : List Node) :
    writeNodes (nodes ++ more) = (do writeNodes nodes; writeNodes more) := by
  induction nodes with
  | nil => simp [writeNodes]
  | cons node nodes ih => simp [writeNodes, ih]

theorem writeCallee_eq (fixed : List Node) :
    writeCallee fixed = writeNodes (fixed.eraseIdx 1) := by
  match fixed with
  | [] => simp [writeCallee, writeNodes]
  | [callee] => simp [writeCallee, writeNodes]
  | callee :: _ :: nodes => simp [writeCallee, writeNodes]

/-- An object is written as its head and its written arguments. -/
theorem writeNode_object (head : Head) (fixed body : List Node) :
    writeNode (.object head fixed body) = (do
      writeHead head
      writeNodes (head.writtenArgs fixed body)) := by
  rw [writeNode, Head.writtenArgs]
  cases head.invocation <;> simp [writeCallee_eq, writeNodes_append]

end Writer

end Acpi
