import Acpi.Proofs.Surroundings
import Acpi.Proofs.Table
import Mathlib.Logic.Relation

/-!
# Pseudo objects are transparent

A pseudo object stands for its written arguments.  `Node.Splices` lets one pseudo object of a tree
give way to them, wherever it stands in a list of terms or arguments.  There is one exception: the
fixed arguments of a call are counted, because the second one is private, so none of them can give
way to more or fewer.

Whether a tree can be measured, its size, its length fields, the orders for a writer and its
encoding are all collected along lists of trees, and `Node.SameCode` says that two lists agree in
all of them.  It passes from the lists inside an object to the object, so that it is enough to know
that a pseudo object and its written arguments agree (`SameCode.of_pseudo`).

`Node.flatten` lets all pseudo objects give way at once.

Main result: `Node.pseudo_transparent`.
-/

namespace Acpi.Node

/-! ## Lists of trees that come to the same -/

/-- Two lists of trees that come to the same: both can be encoded or none can, and their sizes,
their length fields, the orders for them and their encodings are the same, one behind the other. -/
structure SameCode (nodes nodes' : List Node) : Prop where
  encodable_iff : (∀ node ∈ nodes, Encodable node) ↔ ∀ node ∈ nodes', Encodable node
  size_eq : planSize nodes = planSize nodes'
  lengths_eq : planLengths nodes = planLengths nodes'
  script_eq : nodes.flatMap script = nodes'.flatMap script
  encode_eq : nodes.flatMap encode = nodes'.flatMap encode

namespace SameCode

variable {nodes nodes' more more' : List Node}

theorem refl (nodes : List Node) : SameCode nodes nodes := ⟨Iff.rfl, rfl, rfl, rfl, rfl⟩

theorem append (h : SameCode nodes nodes') (hMore : SameCode more more') :
    SameCode (nodes ++ more) (nodes' ++ more') := by
  refine ⟨?_, ?_, ?_, ?_, ?_⟩
  · rw [List.forall_mem_append, List.forall_mem_append, h.encodable_iff, hMore.encodable_iff]
  · rw [planSize_append, planSize_append, h.size_eq, hMore.size_eq]
  · have hLengths := h.lengths_eq
    have hMoreLengths := hMore.lengths_eq
    unfold planLengths at *
    rw [List.flatMap_append, List.flatMap_append, hLengths, hMoreLengths]
  · rw [List.flatMap_append, List.flatMap_append, h.script_eq, hMore.script_eq]
  · rw [List.flatMap_append, List.flatMap_append, h.encode_eq, hMore.encode_eq]

/-- What comes to the same does so between any others. -/
theorem middle (front back : List Node) (h : SameCode nodes nodes') :
    SameCode (front ++ nodes ++ back) (front ++ nodes' ++ back) :=
  ((refl front).append h).append (refl back)

/-- Objects come to the same if their written arguments do. -/
theorem object {head : Head} {fixed fixed' body body' : List Node}
    (h : SameCode (head.writtenArgs fixed body) (head.writtenArgs fixed' body')) :
    SameCode [.object head fixed body] [.object head fixed' body'] := by
  have hPlan : plan (.object head fixed body) = plan (.object head fixed' body') := by
    rw [plan_object, plan_object, h.size_eq, h.lengths_eq]
  refine ⟨?_, ?_, ?_, ?_, ?_⟩
  · rw [List.forall_mem_singleton, List.forall_mem_singleton, encodable_object_iff,
      encodable_object_iff, h.encodable_iff, h.size_eq]
  · rw [planSize_cons, planSize_cons, hPlan]
  · rw [planLengths_cons, planLengths_cons, hPlan]
  · rw [List.flatMap_singleton, List.flatMap_singleton, script_object, script_object, h.script_eq]
  · rw [List.flatMap_singleton, List.flatMap_singleton, encode_object, encode_object, h.encode_eq]

/-- Blocks below the top are refused, whatever stands in them. -/
theorem block (header : Header) (h : SameCode nodes nodes') :
    SameCode [.block header nodes] [.block header nodes'] := by
  have hPlan : plan (.block header nodes) = plan (.block header nodes') := by
    rw [plan, fold_block, fold_block]
  refine ⟨?_, ?_, ?_, ?_, ?_⟩
  · rw [List.forall_mem_singleton, List.forall_mem_singleton]
    constructor
    · intro hBlock
      cases hBlock
    · intro hBlock
      cases hBlock
  · rw [planSize_cons, planSize_cons, hPlan]
  · rw [planLengths_cons, planLengths_cons, hPlan]
  · rw [List.flatMap_singleton, List.flatMap_singleton, script_block, script_block]
  · rw [List.flatMap_singleton, List.flatMap_singleton, encode_block, encode_block, h.encode_eq]

/-- A pseudo object comes to the same as its written arguments, whatever its opcode and whatever it
says of a length. -/
theorem of_pseudo {head : Head} (hPseudo : head.pseudo = true) (fixed body : List Node) :
    SameCode [.object head fixed body] (head.writtenArgs fixed body) := by
  have hOpcode := Head.opcodeBytes_of_pseudo hPseudo
  have hLength := Head.hasLength_of_pseudo hPseudo
  have hPlan := Plan.ofObject_of_no_length hLength (planSize (head.writtenArgs fixed body))
    (planLengths (head.writtenArgs fixed body))
  rw [hOpcode, List.length_nil, Nat.zero_add] at hPlan
  refine ⟨?_, ?_, ?_, ?_, ?_⟩
  · rw [List.forall_mem_singleton, encodable_object_iff, hLength]
    exact ⟨fun h => h.1, fun h => ⟨h, Or.inl hPseudo, nofun⟩⟩
  · rw [planSize_cons, plan_object, hPlan]
    exact Nat.add_zero _
  · rw [planLengths_cons, plan_object, hPlan]
    exact List.append_nil _
  · rw [List.flatMap_singleton, script_object, Head.script, if_pos hPseudo, List.nil_append]
  · rw [List.flatMap_singleton, encode_object, hOpcode, Head.lengthField, hLength,
      if_neg Bool.false_ne_true, List.flatMap_nil, List.nil_append, List.nil_append]

end SameCode

/-! ## Letting pseudo objects give way -/

mutual

/-- One pseudo object inside a tree gives way to its written arguments. -/
inductive Splices : Node → Node → Prop
  /-- Among the terms of a block. -/
  | block (header : Header) {body body' : List Node} (h : SplicesIn body body') :
      Splices (.block header body) (.block header body')
  /-- In the body of an object. -/
  | body (head : Head) (fixed : List Node) {body body' : List Node} (h : SplicesIn body body') :
      Splices (.object head fixed body) (.object head fixed body')
  /-- Among the fixed arguments of an object that is no call. -/
  | fixed (head : Head) (uncounted : head.invocation = false) {fixed fixed' : List Node}
      (body : List Node) (h : SplicesIn fixed fixed') :
      Splices (.object head fixed body) (.object head fixed' body)
  /-- Somewhere inside a fixed argument. -/
  | inFixed (head : Head) (before after : List Node) {node node' : Node} (body : List Node)
      (h : Splices node node') :
      Splices (.object head (before ++ node :: after) body)
        (.object head (before ++ node' :: after) body)

/-- One pseudo object of a list of trees, or inside one of them, gives way. -/
inductive SplicesIn : List Node → List Node → Prop
  | here (before after : List Node) {head : Head} (pseudo : head.pseudo = true)
      (fixed body : List Node) :
      SplicesIn (before ++ [.object head fixed body] ++ after)
        (before ++ head.writtenArgs fixed body ++ after)
  | inside (before after : List Node) {node node' : Node} (h : Splices node node') :
      SplicesIn (before ++ [node] ++ after) (before ++ [node'] ++ after)

end

/-- A fixed argument can be exchanged for one that comes to the same; if it is private, for any
other. -/
theorem SameCode.inFixed (head : Head) (before after body : List Node) {node node' : Node}
    (h : SameCode [node] [node']) :
    SameCode (head.writtenArgs (before ++ node :: after) body)
      (head.writtenArgs (before ++ node' :: after) body) := by
  cases hPrivate : head.isPrivate before.length with
  | false =>
      obtain ⟨rest, hArgs⟩ := Head.writtenArgs_middle hPrivate after body
      rw [hArgs, hArgs]
      exact (refl _).append (h.append (refl rest))
  | true =>
      rw [Head.isPrivate, Bool.and_eq_true, beq_iff_eq] at hPrivate
      have hErase : ∀ child, (before ++ child :: after).eraseIdx 1 = before ++ after := by
        intro child
        rw [← hPrivate.2, List.eraseIdx_append_of_length_le (Nat.le_refl _), Nat.sub_self,
          List.eraseIdx_cons_zero]
      rw [Head.writtenArgs, Head.writtenArgs, if_pos hPrivate.1, if_pos hPrivate.1, hErase, hErase]
      exact refl _

mutual

theorem Splices.sameCode : ∀ {node node' : Node}, Splices node node' → SameCode [node] [node']
  | _, _, .block header h => h.sameCode.block header
  | _, _, .body head fixed h => by
      refine SameCode.object ?_
      unfold Head.writtenArgs
      exact (SameCode.refl _).append h.sameCode
  | _, _, .fixed head uncounted body h => by
      refine SameCode.object ?_
      rw [Head.writtenArgs, Head.writtenArgs, uncounted]
      exact h.sameCode.append (SameCode.refl body)
  | _, _, .inFixed head before after body h => .object (.inFixed head before after body h.sameCode)

theorem SplicesIn.sameCode : ∀ {nodes nodes' : List Node}, SplicesIn nodes nodes' →
    SameCode nodes nodes'
  | _, _, .here before after pseudo fixed body =>
      (SameCode.of_pseudo pseudo fixed body).middle before after
  | _, _, .inside before after h => h.sameCode.middle before after

end

/-! ## Whole trees -/

/-- Two trees with the same encoding, whichever way it is asked for. -/
structure SameEncoding (tree tree' : Node) : Prop where
  /-- Both can be measured or none can, and their layouts are the same. -/
  layout_iff : ∀ layout, Layout.ofNode tree = .ok layout ↔ Layout.ofNode tree' = .ok layout
  /-- If they can be measured, every stream takes them in the same way, with enough room or not. -/
  write_eq : ∀ layout, Layout.ofNode tree = .ok layout →
    ∀ stream, tree.write stream = tree'.write stream
  /-- If they can be measured, a table is written with the same result, and any buffer holds the
  same afterwards. -/
  table_eq : ∀ layout, Layout.ofNode tree = .ok layout → ∀ buffer,
    (Table.write tree buffer).result = (Table.write tree' buffer).result ∧
      (Table.write tree buffer).buffer = (Table.write tree' buffer).buffer

namespace SameEncoding

variable {tree tree' tree'' : Node}

theorem refl (tree : Node) : SameEncoding tree tree :=
  ⟨fun _ => Iff.rfl, fun _ _ _ => rfl, fun _ _ _ => ⟨rfl, rfl⟩⟩

theorem trans (h : SameEncoding tree tree') (h' : SameEncoding tree' tree'') :
    SameEncoding tree tree'' := by
  refine ⟨fun layout => (h.layout_iff layout).trans (h'.layout_iff layout), ?_, ?_⟩
  · intro layout hLayout stream
    rw [h.write_eq layout hLayout, h'.write_eq layout ((h.layout_iff layout).1 hLayout)]
  · intro layout hLayout buffer
    obtain ⟨hResult, hBuffer⟩ := h.table_eq layout hLayout buffer
    obtain ⟨hResult', hBuffer'⟩ := h'.table_eq layout ((h.layout_iff layout).1 hLayout) buffer
    exact ⟨hResult.trans hResult', hBuffer.trans hBuffer'⟩

/-- Trees that have the same layouts and the same script are written in the same way. -/
theorem write_eq_of_script
    (hLayout : ∀ layout, Layout.ofNode tree = .ok layout ↔ Layout.ofNode tree' = .ok layout)
    (hScript : tree.topScript = tree'.topScript) {layout : Layout}
    (h : Layout.ofNode tree = .ok layout) (stream : Stream) :
    tree.write stream = tree'.write stream := by
  unfold Node.write
  rw [h, (hLayout layout).1 h, Writer.writeTop_eq, Writer.writeTop_eq, hScript]

/-- Blocks behind the same header, if their terms come to the same. -/
theorem block (header : Header) {body body' : List Node} (h : SameCode body body') :
    SameEncoding (.block header body) (.block header body') := by
  have hLayouts : ∀ layout, Layout.ofNode (.block header body) = .ok layout ↔
      Layout.ofNode (.block header body') = .ok layout := by
    intro layout
    show Layout.ofBody body = _ ↔ Layout.ofBody body' = _
    rw [Layout.ofBody_eq_ok_iff, Layout.ofBody_eq_ok_iff, h.encodable_iff, h.size_eq, h.lengths_eq]
  have hScript : topScript (.block header body) = topScript (.block header body') := by
    rw [topScript, topScript, h.script_eq]
  refine ⟨hLayouts, fun layout => write_eq_of_script hLayouts hScript, ?_⟩
  intro layout hLayout buffer
  have hBody : Layout.ofBody body = .ok layout := hLayout
  have hBody' : Layout.ofBody body' = .ok layout := (hLayouts layout).1 hLayout
  have hResult : (Table.write (.block header body) buffer).result =
      (Table.write (.block header body') buffer).result := by
    rw [Table.result_write, Table.result_write, Table.verdict, Table.verdict, hBody, hBody']
  refine ⟨hResult, ?_⟩
  cases hEnd : (Table.write (.block header body) buffer).result with
  | error cause =>
      rw [Table.buffer_of_error hEnd, Table.buffer_of_error (hResult ▸ hEnd)]
  | ok total =>
      have hImage : Table.image header layout.total body =
          Table.image header layout.total body' := by
        unfold Table.image Table.finishedHeader Table.imageChecksum Table.openImage
        rw [h.encode_eq]
      obtain ⟨hRoom, hFresh, -⟩ := (Table.result_write_eq_ok_iff hBody).1 hEnd
      rw [Table.write_eq hBody hRoom hFresh, Table.write_eq hBody' hRoom hFresh, hImage]

/-- Objects at the top, if they come to the same. -/
theorem object {head : Head} {fixed fixed' body body' : List Node}
    (h : SameCode [.object head fixed body] [.object head fixed' body']) :
    SameEncoding (.object head fixed body) (.object head fixed' body') := by
  have hSize : exactSize (.object head fixed body) = exactSize (.object head fixed' body') :=
    h.size_eq
  have hScript : topScript (.object head fixed body) = topScript (.object head fixed' body') := by
    have hScripts := h.script_eq
    rwa [List.flatMap_singleton, List.flatMap_singleton] at hScripts
  have hLayouts : ∀ layout, Layout.ofNode (.object head fixed body) = .ok layout ↔
      Layout.ofNode (.object head fixed' body') = .ok layout := by
    have hTerms : ∀ fixed body, terms (.object head fixed body) = [.object head fixed body] :=
      fun _ _ => rfl
    intro layout
    rw [Layout.ofNode_eq_ok_iff, Layout.ofNode_eq_ok_iff, hSize, hTerms, hTerms, h.encodable_iff,
      h.lengths_eq]
  exact ⟨hLayouts, fun layout => write_eq_of_script hLayouts hScript, fun _ _ _ => ⟨rfl, rfl⟩⟩

end SameEncoding

/-- A pseudo object that gives way does not change the encoding of the tree around it. -/
theorem Splices.sameEncoding {tree tree' : Node} (h : Splices tree tree') :
    SameEncoding tree tree' := by
  have hCode := h.sameCode
  cases h with
  | block header h => exact .block header h.sameCode
  | body head fixed h => exact .object hCode
  | fixed head uncounted body h => exact .object hCode
  | inFixed head before after body h => exact .object hCode

/-! ## Letting all of them give way -/

mutual

/-- The tree in which all pseudo objects that can give way have done so. -/
def flatten : Node → Node
  | .block header body => .block header (spread body)
  | .data bytes => .data bytes
  | .object head fixed body =>
      .object head (if head.invocation then flattenEach fixed else spread fixed) (spread body)

/-- What a tree becomes in a list where pseudo objects give way. -/
def pieces : Node → List Node
  | .block header body => [.block header (spread body)]
  | .data bytes => [.data bytes]
  | .object head fixed body =>
      if head.pseudo then
        (if head.invocation then spreadCallee fixed else spread fixed) ++ spread body
      else
        [.object head (if head.invocation then flattenEach fixed else spread fixed) (spread body)]

/-- The trees of a list, each by itself. -/
def flattenEach : List Node → List Node
  | [] => []
  | node :: nodes => flatten node :: flattenEach nodes

/-- A list in which pseudo objects give way. -/
def spread : List Node → List Node
  | [] => []
  | node :: nodes => pieces node ++ spread nodes

/-- The fixed arguments of a call that gives way itself, without the private one. -/
def spreadCallee : List Node → List Node
  | [] => []
  | [callee] => pieces callee
  | callee :: _ :: nodes => pieces callee ++ spread nodes

end

theorem flattenEach_eq_map (nodes : List Node) : flattenEach nodes = nodes.map flatten := by
  induction nodes with
  | nil => rw [flattenEach, List.map_nil]
  | cons node nodes ih => rw [flattenEach, ih, List.map_cons]

theorem spread_eq_flatMap (nodes : List Node) : spread nodes = nodes.flatMap pieces := by
  induction nodes with
  | nil => rw [spread, List.flatMap_nil]
  | cons node nodes ih => rw [spread, ih, List.flatMap_cons]

theorem spreadCallee_eq (fixed : List Node) : spreadCallee fixed = spread (fixed.eraseIdx 1) := by
  match fixed with
  | [] => simp [spreadCallee, spread]
  | [callee] => simp [spreadCallee, spread]
  | callee :: _ :: nodes => simp [spreadCallee, spread]

/-- A pseudo object becomes what its written arguments become. -/
theorem pieces_of_pseudo {head : Head} (hPseudo : head.pseudo = true) (fixed body : List Node) :
    pieces (.object head fixed body) = spread (head.writtenArgs fixed body) := by
  rw [pieces, if_pos hPseudo, Head.writtenArgs, spreadCallee_eq]
  cases head.invocation <;> simp [spread_eq_flatMap]

/-- Whether a tree is a pseudo object. -/
def isPseudo : Node → Bool
  | .object head _ _ => head.pseudo
  | _ => false

theorem pieces_of_not_pseudo {node : Node} (h : node.isPseudo = false) :
    pieces node = [flatten node] := by
  cases node with
  | block header body => rw [pieces, flatten]
  | data bytes => rw [pieces, flatten]
  | object head fixed body =>
      have hPseudo : ¬ head.pseudo = true := Bool.eq_false_iff.1 h
      rw [pieces, if_neg hPseudo, flatten]

/-- A fact holds of every tree if it passes from all arguments of an object, the private one
included, to the object and from the terms of a block to the block. -/
@[elab_as_elim]
theorem args_induction {motive : Node → Prop}
    (block : ∀ header body, (∀ node ∈ body, motive node) → motive (.block header body))
    (data : ∀ bytes, motive (.data bytes))
    (object : ∀ head fixed body, (∀ node ∈ fixed, motive node) → (∀ node ∈ body, motive node) →
      motive (.object head fixed body))
    (node : Node) : motive node := by
  refine @Node.rec motive (fun nodes => ∀ node ∈ nodes, motive node) block object data ?_ ?_ node
  · exact fun _ => nofun
  · intro node nodes hNode hNodes
    exact List.forall_mem_cons.2 ⟨hNode, hNodes⟩

/-! ### Step by step -/

open Relation (ReflTransGen)

theorem SplicesIn.middle (front back : List Node) {nodes nodes' : List Node}
    (h : SplicesIn nodes nodes') :
    SplicesIn (front ++ nodes ++ back) (front ++ nodes' ++ back) := by
  cases h with
  | here before after pseudo fixed body =>
      have hStep := SplicesIn.here (front ++ before) (after ++ back) pseudo fixed body
      simpa only [List.append_assoc] using hStep
  | inside before after h =>
      have hStep := SplicesIn.inside (front ++ before) (after ++ back) h
      simpa only [List.append_assoc] using hStep

theorem steps_middle (front back : List Node) {nodes nodes' : List Node}
    (h : ReflTransGen SplicesIn nodes nodes') :
    ReflTransGen SplicesIn (front ++ nodes ++ back) (front ++ nodes' ++ back) :=
  ReflTransGen.lift (fun nodes => front ++ nodes ++ back) (fun _ _ => .middle front back) _ _ h

/-- Each tree of a list becomes its pieces, one after the other. -/
theorem steps_spread {nodes : List Node}
    (h : ∀ node ∈ nodes, ReflTransGen SplicesIn [node] (pieces node)) :
    ReflTransGen SplicesIn nodes (spread nodes) := by
  induction nodes with
  | nil => rw [spread]
  | cons node nodes ih =>
      obtain ⟨hNode, hNodes⟩ := List.forall_mem_cons.1 h
      have hFirst := steps_middle [] nodes hNode
      have hRest := steps_middle (pieces node) [] (ih hNodes)
      rw [List.append_nil, List.append_nil] at hRest
      rw [spread]
      exact hFirst.trans hRest

/-- The fixed arguments of an object are flattened one after the other, each in its place. -/
theorem steps_flattenEach (head : Head) (before : List Node) {nodes : List Node} (body : List Node)
    (h : ∀ node ∈ nodes, ReflTransGen Splices node (flatten node)) :
    ReflTransGen Splices (.object head (before ++ nodes) body)
      (.object head (before ++ flattenEach nodes) body) := by
  induction nodes generalizing before with
  | nil => rw [flattenEach]
  | cons node nodes ih =>
      obtain ⟨hNode, hNodes⟩ := List.forall_mem_cons.1 h
      have hFirst : ReflTransGen Splices (.object head (before ++ node :: nodes) body)
          (.object head (before ++ flatten node :: nodes) body) :=
        ReflTransGen.lift (fun node => Node.object head (before ++ node :: nodes) body)
          (fun _ _ => Splices.inFixed head before nodes body) _ _ hNode
      have hRest := ih (before ++ [flatten node]) hNodes
      simp only [List.append_assoc, List.singleton_append] at hRest
      rw [flattenEach]
      exact hFirst.trans hRest

/-- Flattening is letting pseudo objects give way, one after the other. -/
theorem steps_flatten (node : Node) :
    ReflTransGen Splices node (flatten node) ∧ ReflTransGen SplicesIn [node] (pieces node) := by
  induction node using args_induction with
  | block header body ih =>
      have hBody := steps_spread fun node hMem => (ih node hMem).2
      have hFlatten : ReflTransGen Splices (.block header body) (flatten (.block header body)) := by
        rw [flatten]
        exact ReflTransGen.lift (Node.block header) (fun _ _ => .block header) _ _ hBody
      refine ⟨hFlatten, ?_⟩
      rw [pieces_of_not_pseudo rfl]
      exact ReflTransGen.lift (fun node => [node]) (fun _ _ => .inside [] []) _ _ hFlatten
  | data bytes =>
      rw [pieces_of_not_pseudo rfl, flatten]
      exact ⟨.refl, .refl⟩
  | object head fixed body ihFixed ihBody =>
      have hBody : ReflTransGen Splices (.object head fixed body)
          (.object head fixed (spread body)) :=
        ReflTransGen.lift (Node.object head fixed) (fun _ _ => .body head fixed) _ _
          (steps_spread fun node hMem => (ihBody node hMem).2)
      have hFixed : ReflTransGen Splices (.object head fixed (spread body))
          (flatten (.object head fixed body)) := by
        rw [flatten]
        cases hCall : head.invocation with
        | true =>
            rw [if_pos rfl]
            exact steps_flattenEach head [] (spread body) fun node hMem => (ihFixed node hMem).1
        | false =>
            rw [if_neg Bool.false_ne_true]
            exact ReflTransGen.lift (fun fixed => Node.object head fixed (spread body))
              (fun _ _ => .fixed head hCall (spread body)) _ _
              (steps_spread fun node hMem => (ihFixed node hMem).2)
      refine ⟨hBody.trans hFixed, ?_⟩
      cases hPseudo : head.pseudo with
      | true =>
          have hHere := SplicesIn.here [] [] hPseudo fixed body
          rw [List.nil_append, List.append_nil, List.nil_append, List.append_nil] at hHere
          rw [pieces_of_pseudo hPseudo]
          refine .head hHere (steps_spread fun node hMem => ?_)
          rcases Head.mem_of_mem_writtenArgs hMem with hMem | hMem
          · exact (ihFixed node hMem).2
          · exact (ihBody node hMem).2
      | false =>
          have hNode : isPseudo (.object head fixed body) = false := hPseudo
          rw [pieces_of_not_pseudo hNode]
          exact ReflTransGen.lift (fun node => [node]) (fun _ _ => .inside [] []) _ _
            (hBody.trans hFixed)

/-! ### Nothing is left -/

/-- No pseudo object inside the tree can give way. -/
def Flat (node : Node) : Prop := ∀ next, ¬ Splices node next

/-- No pseudo object of the list, or inside one of its trees, can give way. -/
def FlatIn (nodes : List Node) : Prop := ∀ next, ¬ SplicesIn nodes next

theorem flatIn_of_each {nodes : List Node}
    (h : ∀ node ∈ nodes, node.isPseudo = false ∧ Flat node) : FlatIn nodes := by
  intro next hStep
  cases hStep with
  | @here before after head pseudo fixed body =>
      have hPseudo := (h (.object head fixed body) (by simp)).1
      rw [isPseudo, pseudo] at hPseudo
      cases hPseudo
  | inside before after hNode => exact (h _ (by simp)).2 _ hNode

theorem FlatIn.of_mem {nodes : List Node} (h : FlatIn nodes) {node : Node} (hMem : node ∈ nodes) :
    node.isPseudo = false ∧ Flat node := by
  obtain ⟨before, after, rfl⟩ := List.append_of_mem hMem
  constructor
  · cases node with
    | block header body => rfl
    | data bytes => rfl
    | object head fixed body =>
        refine Bool.eq_false_iff.2 fun hPseudo => ?_
        have hStep := SplicesIn.here before after hPseudo fixed body
        rw [List.append_assoc, List.singleton_append] at hStep
        exact h _ hStep
  · intro next hNode
    have hStep := SplicesIn.inside before after hNode
    rw [List.append_assoc, List.singleton_append] at hStep
    exact h _ hStep

theorem flatIn_spread {nodes : List Node} (h : ∀ node ∈ nodes, FlatIn (pieces node)) :
    FlatIn (spread nodes) := by
  rw [spread_eq_flatMap]
  refine flatIn_of_each fun piece hMem => ?_
  obtain ⟨node, hNode, hPiece⟩ := List.mem_flatMap.1 hMem
  exact (h node hNode).of_mem hPiece

theorem flat_object {head : Head} {fixed body : List Node} (hBody : FlatIn body)
    (hFixed : head.invocation = false → FlatIn fixed) (hEach : ∀ node ∈ fixed, Flat node) :
    Flat (.object head fixed body) := by
  intro next hStep
  cases hStep with
  | body _ _ h => exact hBody _ h
  | fixed _ uncounted _ h => exact hFixed uncounted _ h
  | inFixed _ before after _ h => exact hEach _ (by simp) _ h

theorem flatIn_pieces {node : Node} (hPseudo : node.isPseudo = false) (h : Flat (flatten node)) :
    FlatIn (pieces node) := by
  rw [pieces_of_not_pseudo hPseudo]
  refine flatIn_of_each (List.forall_mem_singleton.2 ⟨?_, h⟩)
  rw [← hPseudo]
  cases node <;> rw [flatten] <;> rfl

/-- In a flattened tree nothing is left that could give way. -/
theorem flat_flatten (node : Node) : Flat (flatten node) ∧ FlatIn (pieces node) := by
  induction node using args_induction with
  | block header body ih =>
      have hBody := flatIn_spread fun node hMem => (ih node hMem).2
      have hFlat : Flat (flatten (.block header body)) := by
        rw [flatten]
        intro next hStep
        cases hStep with
        | block _ h => exact hBody _ h
      exact ⟨hFlat, flatIn_pieces rfl hFlat⟩
  | data bytes =>
      have hFlat : Flat (flatten (.data bytes)) := by
        rw [flatten]
        intro next hStep
        cases hStep
      exact ⟨hFlat, flatIn_pieces rfl hFlat⟩
  | object head fixed body ihFixed ihBody =>
      have hFixed := flatIn_spread fun node hMem => (ihFixed node hMem).2
      have hBody := flatIn_spread fun node hMem => (ihBody node hMem).2
      have hFlat : Flat (flatten (.object head fixed body)) := by
        rw [flatten]
        cases hCall : head.invocation with
        | true =>
            rw [if_pos rfl, flattenEach_eq_map]
            refine flat_object hBody (by simp [hCall]) fun node hMem => ?_
            obtain ⟨arg, hArg, rfl⟩ := List.mem_map.1 hMem
            exact (ihFixed arg hArg).1
        | false =>
            rw [if_neg Bool.false_ne_true]
            exact flat_object hBody (fun _ => hFixed) fun node hMem => (hFixed.of_mem hMem).2
      refine ⟨hFlat, ?_⟩
      cases hPseudo : head.pseudo with
      | true =>
          rw [pieces_of_pseudo hPseudo]
          refine flatIn_spread fun node hMem => ?_
          rcases Head.mem_of_mem_writtenArgs hMem with hMem | hMem
          · exact (ihFixed node hMem).2
          · exact (ihBody node hMem).2
      | false => exact flatIn_pieces hPseudo hFlat

/-! ## Transparency -/

/-- However many pseudo objects give way, the encoding stays. -/
theorem sameEncoding_of_steps {tree tree' : Node} (h : ReflTransGen Splices tree tree') :
    SameEncoding tree tree' := by
  induction h with
  | refl => exact .refl tree
  | tail _ hStep ih => exact ih.trans hStep.sameEncoding

/-- **Pseudo objects are transparent.**  A pseudo object among the terms of a block, in the body of
an object or among the fixed arguments of an object that is no call, at any depth, can give way to
its written arguments: the tree can be measured just if it could before, with the same total and the
same length fields, and is written with the same bytes.  Flattening a tree is doing that until
nothing is left to do, so it does not change the encoding either. -/
theorem pseudo_transparent (tree : Node) :
    (∀ tree', Splices tree tree' → SameEncoding tree tree') ∧
      ReflTransGen Splices tree tree.flatten ∧ (∀ next, ¬ Splices tree.flatten next) ∧
      SameEncoding tree tree.flatten := by
  have hSteps := (steps_flatten tree).1
  exact ⟨fun tree' => Splices.sameEncoding, hSteps, (flat_flatten tree).1,
    sameEncoding_of_steps hSteps⟩

/-- A device whose name stands in a group, with a call in its body whose callee is a group in turn.
Once the call has given way, so does its callee. -/
theorem pseudo_transparent_call :
    let name : Node := .data [0x41, 0x42, 0x43, 0x44].toByteArray
    let count : Node := .data [1].toByteArray
    let arg : Node := .data [0x0A, 0x05].toByteArray
    let group (body : List Node) : Node := .object Head.group [] body
    let device (fixed body : List Node) : Node :=
      .object (Head.extended Opcode.deviceExt) fixed body
    let tree := device [group [name]] [.object Head.group.asInvocation [group [name], count] [arg]]
    let flat := device [name] [name, arg]
    tree.flatten = flat ∧ Layout.ofNode flat = .ok ⟨#[⟨11, 1⟩], 13⟩ ∧
      Layout.ofNode tree = .ok ⟨#[⟨11, 1⟩], 13⟩ ∧
      ∀ stream, tree.write stream = flat.write stream := by
  intro name count arg group device tree flat
  have hFlat : tree.flatten = flat := by rfl
  have hLayout : Layout.ofNode flat = .ok ⟨#[⟨11, 1⟩], 13⟩ := by rfl
  obtain ⟨-, -, -, hSame⟩ := pseudo_transparent tree
  rw [hFlat] at hSame
  have hTree := (hSame.layout_iff _).2 hLayout
  exact ⟨hFlat, hLayout, hTree, hSame.write_eq _ hTree⟩

/-- A fixed argument of a call cannot give way: what stands behind it would take another place, and
another one would be private. -/
example :
    let byte (value : UInt8) : Node := .data [value].toByteArray
    let call (fixed : List Node) : Node := .object Head.group.asInvocation fixed []
    encode (call [.object Head.group [] [byte 1, byte 2], byte 3]) = [1, 2] ∧
      encode (call [byte 1, byte 2, byte 3]) = [1, 3] := by
  decide

end Acpi.Node
