import Acpi.Proofs.Encoding
import Acpi.Tree.Edit
import Mathlib.Order.Monotone.Basic

/-!
# The surroundings of a part

A position leads from a term down to a part of it, through one argument after the other.  If all of
them are written, what the term writes around the part is a list of frames, one for every object on
the way: its head, and the written arguments in front of the way and behind it.  Frames do not depend
on the part, so they stay the same when another part is put there (`around_of_set`).

Two things about a term follow from its frames and a part.  Its size is a strictly monotone function
of the size of the part (`Frame.sizeAround_strictMono`).  And whatever a term lists in the order of
writing, its length fields as well as its bytes, splits into what comes before the part, the part
itself and what comes behind (`Listing.ofNode_around`).
-/

namespace Acpi

/-! ## Frames -/

/-- What the object around a part writes besides it: its head, the written arguments in front of the
part and those behind. -/
structure Frame where
  head : Head
  before : List Node
  after : List Node

namespace Head

/-- Whether a step leads to an argument that is written. -/
def isWritten (head : Head) (step : Step) : Bool :=
  step.slot == .body || !head.isPrivate step.index

/-- The written arguments in front of the one that a step leads to. -/
def argsBefore (head : Head) (step : Step) (fixed body : List Node) : List Node :=
  match step.slot with
  | .fixed => head.writtenArgs (fixed.take step.index) []
  | .body => head.writtenArgs fixed (body.take step.index)

/-- What is written around the argument that a step leads to. -/
def frame (head : Head) (step : Step) (fixed body : List Node) : Frame where
  head := head
  before := head.argsBefore step fixed body
  after := (head.writtenArgs fixed body).drop ((head.argsBefore step fixed body).length + 1)

/-- A fixed argument that is not private stands among the written arguments, and what stands around it
there does not depend on it. -/
theorem writtenArgs_middle {head : Head} {front : List Node}
    (hPublic : head.isPrivate front.length = false) (back body : List Node) :
    ∃ after, ∀ child, head.writtenArgs (front ++ child :: back) body =
      head.writtenArgs front [] ++ child :: after := by
  unfold writtenArgs
  by_cases hCall : head.invocation = true
  · rw [if_pos hCall]
    match front with
    | [] => exact ⟨back.tail ++ body, fun child => by cases back <;> simp [hCall]⟩
    | [callee] => simp [isPrivate, hCall] at hPublic
    | callee :: count :: front => exact ⟨back ++ body, fun child => by simp [hCall]⟩
  · exact ⟨back ++ body, fun child => by simp [hCall]⟩

end Head

namespace Node

/-- The object with another argument where a step leads. -/
def setChild : Node → Step → Node → Node
  | .object head fixed body, ⟨.fixed, index⟩, child => .object head (fixed.set index child) body
  | .object head fixed body, ⟨.body, index⟩, child => .object head fixed (body.set index child)
  | node, _, _ => node

theorem set_of_getElem? {nodes : List Node} {index : Nat} {node : Node}
    (h : nodes[index]? = some node) (other : Node) :
    nodes.set index other = nodes.take index ++ other :: nodes.drop (index + 1) := by
  have hIndex : index < nodes.length := (List.getElem?_eq_some_iff.1 h).1
  rw [List.set_eq_take_append_cons_drop, if_pos hIndex]

theorem set_self_of_getElem? {nodes : List Node} {index : Nat} {node : Node}
    (h : nodes[index]? = some node) : nodes.set index node = nodes := by
  obtain ⟨hIndex, rfl⟩ := List.getElem?_eq_some_iff.1 h
  exact List.set_getElem_self hIndex

theorem setChild_self {node child : Node} {step : Step} (h : node.child? step = some child) :
    node.setChild step child = node := by
  obtain ⟨slot, index⟩ := step
  cases node with
  | block header body => rfl
  | data bytes => rfl
  | object head fixed body =>
      cases slot with
      | fixed => exact congrArg (Node.object head · body) (set_self_of_getElem? h)
      | body => exact congrArg (Node.object head fixed) (set_self_of_getElem? h)

/-- What stands behind a written argument does not depend on it. -/
private theorem exists_after {head : Head} {fixed body : List Node} {step : Step} {child : Node}
    (hChild : (Node.object head fixed body).child? step = some child)
    (hWritten : head.isWritten step = true) :
    ∃ after, ∀ other, ∃ fixed' body',
      (Node.object head fixed body).setChild step other = .object head fixed' body' ∧
        head.writtenArgs fixed' body' = head.argsBefore step fixed body ++ other :: after := by
  obtain ⟨slot, index⟩ := step
  cases slot with
  | fixed =>
      have hFixed : fixed[index]? = some child := hChild
      have hIndex : index < fixed.length := (List.getElem?_eq_some_iff.1 hFixed).1
      have hPublic : head.isPrivate (fixed.take index).length = false := by
        rw [List.length_take, Nat.min_eq_left (Nat.le_of_lt hIndex)]
        simpa [Head.isWritten] using hWritten
      obtain ⟨after, hAfter⟩ :=
        Head.writtenArgs_middle hPublic (fixed.drop (index + 1)) body
      refine ⟨after, fun other => ⟨fixed.set index other, body, rfl, ?_⟩⟩
      rw [set_of_getElem? hFixed]
      exact hAfter other
  | body =>
      have hBody : body[index]? = some child := hChild
      refine ⟨body.drop (index + 1), fun other => ⟨fixed, body.set index other, rfl, ?_⟩⟩
      rw [set_of_getElem? hBody]
      exact (List.append_assoc ..).symm

/-- Putting another argument in the place of a written one changes only that one among the written
arguments. -/
theorem setChild_object {head : Head} {fixed body : List Node} {step : Step} {child : Node}
    (hChild : (Node.object head fixed body).child? step = some child)
    (hWritten : head.isWritten step = true) (other : Node) :
    ∃ fixed' body', (Node.object head fixed body).setChild step other = .object head fixed' body' ∧
      head.writtenArgs fixed' body' = (head.frame step fixed body).before ++ other ::
        (head.frame step fixed body).after := by
  obtain ⟨after, hAfter⟩ := exists_after hChild hWritten
  -- Put the argument itself in its place to see what stands behind it.
  have hSame : (head.frame step fixed body).after = after := by
    obtain ⟨_, _, hSelf, hArgs⟩ := hAfter child
    rw [setChild_self hChild] at hSelf
    cases hSelf
    unfold Head.frame
    rw [hArgs]
    simp
  obtain ⟨fixed', body', hSet, hArgs⟩ := hAfter other
  refine ⟨fixed', body', hSet, ?_⟩
  rw [hSame]
  exact hArgs

/-! ## Positions -/

/-- Every step of a position leads to an argument that is written. -/
def WrittenAt : List Step → Node → Prop
  | [], _ => True
  | step :: steps, .object head fixed body =>
      head.isWritten step = true ∧
        ∀ child, (Node.object head fixed body).child? step = some child → WrittenAt steps child
  | _ :: _, _ => False

/-- What is written around the part at a position, from the outside in. -/
def surroundings : List Step → Node → List Frame
  | step :: steps, .object head fixed body =>
      head.frame step fixed body ::
        ((Node.object head fixed body).child? step).elim [] (surroundings steps)
  | _, _ => []

/-- A part, the tree that it is a part of, and what the tree writes around it. -/
inductive Around (part : Node) : List Frame → Node → Prop
  | here : Around part [] part
  | inside (frame : Frame) {frames : List Frame} {child : Node} (fixed body : List Node)
      (args : frame.head.writtenArgs fixed body = frame.before ++ child :: frame.after)
      (inner : Around part frames child) :
      Around part (frame :: frames) (.object frame.head fixed body)

/-- A change below a step is a change of the argument that the step leads to. -/
theorem modify?_cons_eq_some_iff {change : Node → Option Node} {step : Step} {steps : List Step}
    {node node' : Node} :
    node.modify? change (step :: steps) = some node' ↔
      ∃ child child', node.child? step = some child ∧ child.modify? change steps = some child' ∧
        node.setChild step child' = node' := by
  obtain ⟨slot, index⟩ := step
  cases node with
  | block header body => simp [modify?, modifySlot?, child?]
  | data bytes => simp [modify?, modifySlot?, child?]
  | object head fixed body =>
      cases slot with
      | fixed => simp [modify?, modifySlot?, child?, setChild, Option.bind_eq_some_iff]
      | body => simp [modify?, modifySlot?, child?, setChild, Option.bind_eq_some_iff]

/-- Whatever is put at a position, the same is written around it. -/
theorem around_of_set {steps : List Step} {tree tree' part : Node} (hWritten : tree.WrittenAt steps)
    (h : tree.modify? (Edit.set part).run? steps = some tree') :
    Around part (tree.surroundings steps) tree' := by
  induction steps generalizing tree tree' with
  | nil =>
      cases h
      cases tree <;> exact .here
  | cons step steps ih =>
      obtain ⟨child, child', hChild, hInner, rfl⟩ := modify?_cons_eq_some_iff.1 h
      cases tree with
      | block header body => cases hWritten
      | data bytes => cases hWritten
      | object head fixed body =>
          obtain ⟨fixed', body', hSet, hArgs⟩ := setChild_object hChild hWritten.1 child'
          rw [hSet, surroundings, hChild]
          exact .inside (head.frame step fixed body) fixed' body' hArgs
            (ih (hWritten.2 child hChild) hInner)

/-- Putting the part of a tree where it stands already changes nothing. -/
theorem set_of_get? {steps : List Step} {tree part : Node} (h : tree.get? steps = some part) :
    tree.modify? (Edit.set part).run? steps = some tree := by
  induction steps generalizing tree with
  | nil => exact h.symm
  | cons step steps ih =>
      obtain ⟨child, hChild, hInner⟩ := Option.bind_eq_some_iff.1 h
      exact modify?_cons_eq_some_iff.2 ⟨child, child, hChild, ih hInner, setChild_self hChild⟩

theorem around_of_get? {steps : List Step} {tree part : Node} (hWritten : tree.WrittenAt steps)
    (h : tree.get? steps = some part) : Around part (tree.surroundings steps) tree :=
  around_of_set hWritten (set_of_get? h)

end Node

/-! ## Sizes -/

namespace Frame

open Node (Plan planSize)

/-- The payload of the object around a part of the given size. -/
def payload (frame : Frame) (inner : Nat) : Nat :=
  planSize frame.before + inner + planSize frame.after

theorem planSize_args (frame : Frame) (child : Node) :
    planSize (frame.before ++ child :: frame.after) = frame.payload child.plan.size := by
  rw [Node.planSize_append, Node.planSize_cons, ← Nat.add_assoc, payload]

/-- The size of the object around a part of the given size. -/
def size (frame : Frame) (inner : Nat) : Nat :=
  (Plan.ofObject frame.head (frame.payload inner) []).size

/-- The size of the tree around a part of the given size. -/
def sizeAround : List Frame → Nat → Nat
  | [], inner => inner
  | frame :: frames, inner => frame.size (sizeAround frames inner)

/-- A part that grows makes the object around it grow.  Its length field may become wider by that,
but never narrower. -/
theorem size_strictMono (frame : Frame) : StrictMono frame.size := by
  intro inner inner' hLt
  have hPayload : frame.payload inner < frame.payload inner' := by
    unfold payload
    omega
  have hWidth := PkgLength.neededWidth_mono (Nat.le_of_lt hPayload)
  unfold size Plan.ofObject
  simp only
  by_cases hHas : frame.head.hasLength = true
  · rw [if_pos hHas, if_pos hHas]
    omega
  · rw [if_neg hHas, if_neg hHas]
    omega

theorem sizeAround_strictMono (frames : List Frame) : StrictMono (sizeAround frames) := by
  induction frames with
  | nil => exact strictMono_id
  | cons frame frames ih => exact frame.size_strictMono.comp ih

end Frame

namespace Node

variable {part tree : Node} {frames : List Frame}

/-- The planned size of a tree, seen from a part of it. -/
theorem Around.size_eq (h : Around part frames tree) :
    tree.plan.size = Frame.sizeAround frames part.plan.size := by
  induction h with
  | here => rfl
  | inside frame fixed body hArgs _ ih =>
      rw [plan_object, hArgs, frame.planSize_args, ih]
      rfl

theorem Encodable.of_writtenArgs_eq {head : Head} {fixed body before after : List Node}
    {child : Node} (h : Encodable (.object head fixed body))
    (hArgs : head.writtenArgs fixed body = before ++ child :: after) : Encodable child := by
  apply (encodable_object_iff.1 h).1
  rw [hArgs]
  exact List.mem_append_right before List.mem_cons_self

/-- A part of an encodable tree is encodable. -/
theorem Around.encodable (h : Around part frames tree) (hTree : Encodable tree) :
    Encodable part := by
  induction h with
  | here => exact hTree
  | inside frame fixed body hArgs _ ih =>
      exact ih (hTree.of_writtenArgs_eq hArgs)

end Node

/-! ## What comes before a part and what comes behind it -/

/-- Something that a tree lists in the order of writing.  An object lists something for its head,
which depends on the size of its payload only, and then what its written arguments list. -/
structure Listing (β : Type) where
  ofHead : Head → Nat → List β
  ofNode : Node → List β
  ofNode_object : ∀ head fixed body, Node.Encodable (.object head fixed body) →
    ofNode (.object head fixed body) =
      ofHead head (Node.planSize (head.writtenArgs fixed body)) ++
        (head.writtenArgs fixed body).flatMap ofNode

namespace Listing

/-- The length fields of a tree. -/
def lengths : Listing PkgLength where
  ofHead := Head.lengthField
  ofNode := fun node => node.plan.lengths
  ofNode_object := by
    intro head fixed body _
    rw [Node.plan_object]
    rfl

/-- The bytes of a tree. -/
def bytes : Listing UInt8 where
  ofHead := fun head payload =>
    head.opcodeBytes ++ (head.lengthField payload).flatMap PkgLength.bytes
  ofNode := Node.encode
  ofNode_object := by
    intro head fixed body h
    rw [Node.encode_object, Node.length_encode_all (Node.encodable_object_iff.1 h).1]

variable {β : Type} (listing : Listing β)

/-- What is listed in front of a part of the given size. -/
def lead : List Frame → Nat → List β
  | [], _ => []
  | frame :: frames, inner =>
      listing.ofHead frame.head (frame.payload (Frame.sizeAround frames inner)) ++
        frame.before.flatMap listing.ofNode ++ lead frames inner

/-- What is listed behind a part. -/
def trail : List Frame → List β
  | [] => []
  | frame :: frames => trail frames ++ frame.after.flatMap listing.ofNode

/-- A tree lists what stands in front of a part, the part, and what stands behind it.  Of the part
itself the rest depends on nothing but the size. -/
theorem ofNode_around {part tree : Node} {frames : List Frame} (h : Node.Around part frames tree)
    (hTree : tree.Encodable) :
    listing.ofNode tree =
      listing.lead frames part.plan.size ++ listing.ofNode part ++ listing.trail frames := by
  induction h with
  | here => simp [lead, trail]
  | inside frame fixed body hArgs hInner ih =>
      rw [listing.ofNode_object _ _ _ hTree, hArgs, frame.planSize_args, hInner.size_eq,
        List.flatMap_append, List.flatMap_cons, ih (hTree.of_writtenArgs_eq hArgs), lead, trail]
      simp only [List.append_assoc]

end Listing

end Acpi
