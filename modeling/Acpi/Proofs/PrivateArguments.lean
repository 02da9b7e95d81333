import Acpi.Proofs.Table

/-!
# Private arguments

The private argument of an invocation is for whoever edits the tree.  It may hold anything: bytes,
an object whose opcode is malformed, a block, a tree too large to be measured.  Nothing that is
computed from the tree depends on it.

The reason is the same for all of these computations.  Measuring is a fold along the written
arguments (`Layout.measureNode_eq_fold`), and so is the script that a writer carries out.  Two trees
that differ only in private arguments have the same value under every fold (`Node.Alike.fold_eq`).
The table writer adds nothing to that but the header, in which alike trees agree.

Main result: `Node.Alike.private_noninterference`.
-/

namespace Acpi

/-! ## Lists that agree but for a private place -/

/-- Arguments that agree wherever they are not private leave the same written arguments. -/
theorem Head.writtenArgs_congr {α : Type} {head : Head} {fixed fixed' : List α}
    (h : ∀ index, head.isPrivate index = false → fixed[index]? = fixed'[index]?) (body : List α) :
    head.writtenArgs fixed body = head.writtenArgs fixed' body := by
  unfold writtenArgs
  congr 1
  by_cases hCall : head.invocation = true
  · rw [if_pos hCall, if_pos hCall]
    apply List.ext_getElem?
    intro index
    rw [List.getElem?_eraseIdx, List.getElem?_eraseIdx]
    -- Behind the private argument every index has moved down by one.
    by_cases hFront : index < 1
    · rw [if_pos hFront, if_pos hFront]
      apply h
      simp [isPrivate]
      omega
    · rw [if_neg hFront, if_neg hFront]
      apply h
      simp [isPrivate]
      omega
  · rw [if_neg hCall, if_neg hCall]
    apply List.ext_getElem?
    intro index
    apply h
    rw [isPrivate, eq_false_of_ne_true hCall, Bool.false_and]

/-- Values computed from two lists of the same length agree at an index if the entries there have
the same value. -/
private theorem getElem?_map_congr {α β : Type} {f : α → β} {entries others : List α}
    (hLength : entries.length = others.length) {index : Nat}
    (h : ∀ entry other, entries[index]? = some entry → others[index]? = some other →
      f entry = f other) :
    (entries.map f)[index]? = (others.map f)[index]? := by
  rw [List.getElem?_map, List.getElem?_map]
  by_cases hIndex : index < entries.length
  · have hOther : index < others.length := hLength ▸ hIndex
    have hEntry := List.getElem?_eq_getElem hIndex
    have hOther := List.getElem?_eq_getElem hOther
    rw [hEntry, hOther, Option.map_some, Option.map_some, h _ _ hEntry hOther]
  · rw [List.getElem?_eq_none (by omega), List.getElem?_eq_none (by omega)]

private theorem map_eq_of_entries {α β : Type} {f : α → β} {entries others : List α}
    (hLength : entries.length = others.length)
    (h : ∀ (index : Nat) entry other, entries[index]? = some entry →
      others[index]? = some other → f entry = f other) :
    entries.map f = others.map f := by
  apply List.ext_getElem?
  intro index
  exact getElem?_map_congr hLength (h index)

namespace Node

/-! ## Trees that differ in private arguments only -/

/-- Two trees that are the same but for what stands in private arguments, in any number of places
and at any depth.  What stands there is not compared at all. -/
inductive Alike : Node → Node → Prop
  | block (header : Header) {body body' : List Node} (body_length : body.length = body'.length)
      (body_alike : ∀ (index : Nat) (node node' : Node), body[index]? = some node →
        body'[index]? = some node' → Alike node node') :
      Alike (.block header body) (.block header body')
  | data (bytes : ByteArray) : Alike (.data bytes) (.data bytes)
  | object (head : Head) {fixed fixed' body body' : List Node}
      (fixed_length : fixed.length = fixed'.length)
      (fixed_alike : ∀ (index : Nat) (node node' : Node), head.isPrivate index = false →
        fixed[index]? = some node → fixed'[index]? = some node' → Alike node node')
      (body_length : body.length = body'.length)
      (body_alike : ∀ (index : Nat) (node node' : Node), body[index]? = some node →
        body'[index]? = some node' → Alike node node') :
      Alike (.object head fixed body) (.object head fixed' body')

/-- No fold can tell two trees apart that differ in private arguments only. -/
theorem Alike.fold_eq {α : Type} (algebra : Algebra α) {node node' : Node} (h : Alike node node') :
    fold algebra node = fold algebra node' := by
  induction h with
  | block header hLength _ ih =>
      rw [fold_block, fold_block, map_eq_of_entries hLength ih]
  | data bytes => rfl
  | object head hFixed _ hBody _ ihFixed ihBody =>
      rw [fold_object, fold_object, Head.map_writtenArgs, Head.map_writtenArgs,
        map_eq_of_entries hBody ihBody]
      congr 1
      apply Head.writtenArgs_congr
      intro index hPublic
      apply getElem?_map_congr hFixed
      intro node node' hNode hNode'
      exact ihFixed index node node' hPublic hNode hNode'

/-- What a fold computes for each term of a block is the same for alike blocks. -/
theorem Alike.map_fold_eq {α : Type} (algebra : Algebra α) {header header' : Header}
    {body body' : List Node} (h : Alike (.block header body) (.block header' body')) :
    body.map (fold algebra) = body'.map (fold algebra) := by
  cases h with
  | block _ hLength hEach =>
      exact map_eq_of_entries hLength fun index node node' hNode hNode' =>
        (hEach index node node' hNode hNode').fold_eq algebra

end Node

/-! ## Measuring and writing are folds -/

namespace Layout

/-- Measures one thing after the other, on top of a size that has been found already. -/
def measureEach (size : Nat) : List (MeasureM Nat) → MeasureM Nat
  | [] => pure size
  | measurement :: measurements => do
      let more ← measurement
      let size ← checked (size + more)
      measureEach size measurements

theorem measureNodes_eq (size : Nat) (nodes : List Node) :
    measureNodes size nodes = measureEach size (nodes.map measureNode) := by
  induction nodes generalizing size with
  | nil => rw [measureNodes, List.map_nil, measureEach]
  | cons node nodes ih => simp only [measureNodes, List.map_cons, measureEach, ih]

/-- How an object is measured, given how its written arguments are. -/
def measureAlgebra : Node.Algebra (MeasureM Nat) where
  block := fun _ _ => throw .invalidTree
  data := fun bytes => checked bytes.size
  object := fun head args => do
    let opcode ← opcodeSize head
    if head.pseudo then
      measureEach 0 args
    else
      let size ← if head.packaged then packaged (measureEach 0 args) else measureEach 0 args
      checked (size + opcode)

theorem measureNode_eq_fold : measureNode = Node.fold measureAlgebra := by
  funext node
  induction node using Node.written_induction with
  | block header body _ => rw [measureNode, Node.fold_block]; rfl
  | data bytes => rw [measureNode, Node.fold_data]; rfl
  | object head fixed body ih =>
      rw [measureNode_object, Node.fold_object, measureNodes_eq, List.map_congr_left ih]
      rfl

end Layout

namespace Table

/-- The terms of a table are written by their scripts, one after the other. -/
theorem writeTerms_congr {body body' : List Node}
    (h : body.map Node.script = body'.map Node.script) : writeTerms body = writeTerms body' := by
  induction body generalizing body' with
  | nil =>
      rw [List.map_nil, eq_comm, List.map_eq_nil_iff] at h
      rw [h]
  | cons node nodes ih =>
      obtain ⟨node', nodes', rfl, hNode, hNodes⟩ := List.map_eq_cons_iff.1 h.symm
      have hTerm : writeTerm node = writeTerm node' := by
        unfold writeTerm
        rw [Writer.writeNode_eq, Writer.writeNode_eq, hNode]
      rw [writeTerms, writeTerms, hTerm, ih hNodes.symm]

end Table

/-! ## Alike trees -/

namespace Node.Alike

variable {tree tree' : Node} {header header' : Header} {body body' : List Node}

theorem ofBody_eq (h : Alike (.block header body) (.block header' body')) :
    Layout.ofBody body = Layout.ofBody body' := by
  unfold Layout.ofBody
  rw [Layout.measureNodes_eq, Layout.measureNodes_eq, Layout.measureNode_eq_fold,
    h.map_fold_eq Layout.measureAlgebra]

theorem map_script_eq (h : Alike (.block header body) (.block header' body')) :
    body.map script = body'.map script :=
  h.map_fold_eq _

theorem ofNode_eq (h : Alike tree tree') : Layout.ofNode tree = Layout.ofNode tree' := by
  have hMeasure : Layout.measureNode tree = Layout.measureNode tree' := by
    rw [Layout.measureNode_eq_fold]
    exact h.fold_eq Layout.measureAlgebra
  have hAlike := h
  cases h with
  | block header _ _ => exact hAlike.ofBody_eq
  | data bytes => rfl
  | object head _ _ _ _ => exact congrArg Layout.run hMeasure

theorem topScript_eq (h : Alike tree tree') : tree.topScript = tree'.topScript := by
  have hScript : tree.script = tree'.script := h.fold_eq _
  have hAlike := h
  cases h with
  | block header _ _ =>
      rw [topScript, topScript, List.flatMap_def, List.flatMap_def, hAlike.map_script_eq]
  | data bytes => rfl
  | object head _ _ _ _ => exact hScript

theorem write_eq (h : Alike tree tree') : tree.write = tree'.write := by
  unfold Node.write
  rw [h.ofNode_eq, Writer.writeTop_eq, Writer.writeTop_eq, h.topScript_eq]

theorem query_eq (h : Alike tree tree') : Table.query tree = Table.query tree' := by
  have hAlike := h
  cases h with
  | block header _ _ => rw [Table.query, Table.query, hAlike.ofBody_eq]
  | data bytes => rfl
  | object head _ _ _ _ => rfl

theorem writeTable_eq (h : Alike tree tree') (buffer : ByteArray) :
    Table.write tree buffer = Table.write tree' buffer := by
  have hAlike := h
  cases h with
  | block header _ _ =>
      have hTerms := Table.writeTerms_congr hAlike.map_script_eq
      simp only [Table.write, Table.fill, hAlike.ofBody_eq, hTerms]
  | data bytes => rfl
  | object head _ _ _ _ => rfl

/-- **Private arguments do not show.**  Two trees that differ in private arguments only have the
same layout, the same size and the same encoding on every stream, and the table writer asks the same
room for them, leaves the same in every buffer and encodes them as the same table.  Failures are
part of that: whatever stands in a private argument, it neither causes a failure nor hides one. -/
theorem private_noninterference (tree tree' : Node) (h : Alike tree tree') :
    Layout.ofNode tree = Layout.ofNode tree' ∧
      tree.size = tree'.size ∧
      (∀ stream : Stream, tree.write stream = tree'.write stream) ∧
      Table.query tree = Table.query tree' ∧
      (∀ buffer : ByteArray, Table.write tree buffer = Table.write tree' buffer) ∧
      Table.encode tree = Table.encode tree' := by
  refine ⟨h.ofNode_eq, ?_, ?_, h.query_eq, h.writeTable_eq, ?_⟩
  · unfold Node.size
    rw [h.ofNode_eq]
  · intro stream
    rw [h.write_eq]
  · unfold Table.encode
    rw [h.query_eq]
    simp only [h.writeTable_eq]

/-- Two calls, one among the arguments of the other, in a device.  Their private arguments are a block
and data beyond all limits in one tree, an object with half an opcode and a byte in the other. -/
theorem private_noninterference_calls :
    let header : Header := ⟨#v[0x53, 0x53, 0x44, 0x54], 0, 2, 0, #v[1, 2, 3, 4, 5, 6],
      #v[1, 2, 3, 4, 5, 6, 7, 8], 1, 2, 3⟩
    let name : Node := .data [0x41, 0x42, 0x43, 0x44].toByteArray
    let call (note : Node) (args : List Node) : Node :=
      .object Head.group.asInvocation [name, note] args
    let table (outer inner : Node) : Node :=
      .block header [.object (Head.extended Opcode.deviceExt) [name] [call outer [call inner []]]]
    let tree := table (.block header [name]) (.data (Bytes.fill 0x100000000 0))
    let tree' := table (.object (Head.plain Opcode.extended) [] []) (.data [2].toByteArray)
    Alike tree tree' ∧ Layout.ofNode tree = .ok ⟨#[⟨13, 1⟩], 51⟩ ∧
      Layout.ofNode tree' = .ok ⟨#[⟨13, 1⟩], 51⟩ ∧ Table.encode tree = Table.encode tree' := by
  intro header name call table tree tree'
  have hCall : ∀ (note note' : Node) (args args' : List Node), args.length = args'.length →
      (∀ (index : Nat) (arg arg' : Node), args[index]? = some arg → args'[index]? = some arg' →
        Alike arg arg') → Alike (call note args) (call note' args') := by
    intro note note' args args' hLength hArgs
    refine .object _ rfl ?_ hLength hArgs
    intro index node node' hPublic hNode hNode'
    match index with
    | 0 => cases hNode; cases hNode'; exact .data _
    | 1 => cases hPublic
    | index + 2 => cases hNode
  have hSingle : ∀ {node node' : Node}, Alike node node' → ∀ (index : Nat) (arg arg' : Node),
      [node][index]? = some arg → [node'][index]? = some arg' → Alike arg arg' := by
    intro node node' hAlike index arg arg' hArg hArg'
    match index with
    | 0 => cases hArg; cases hArg'; exact hAlike
    | index + 1 => cases hArg
  have hTable : ∀ outer inner outer' inner', Alike (table outer inner) (table outer' inner') := by
    intro outer inner outer' inner'
    have hInner : Alike (call inner []) (call inner' []) := hCall inner inner' [] [] rfl nofun
    have hOuter := hCall outer outer' [call inner []] [call inner' []] rfl (hSingle hInner)
    refine .block header rfl (hSingle (.object _ rfl ?_ rfl (hSingle hOuter)))
    exact fun index node node' _ => hSingle (.data _) index node node'
  have hAlike : Alike tree tree' := hTable ..
  obtain ⟨hLayout, -, -, -, -, hEncode⟩ := private_noninterference tree tree' hAlike
  have hMeasured : Layout.ofNode tree' = .ok ⟨#[⟨13, 1⟩], 51⟩ := by rfl
  exact ⟨hAlike, hLayout.trans hMeasured, hMeasured, hEncode⟩

end Node.Alike

end Acpi
