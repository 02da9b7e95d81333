import Acpi.Proofs.GivenLengths
import Acpi.Proofs.PrivateArguments

/-!
# Slots are filled in pre-order

A packaged object reserves a slot before its arguments are measured and fills it afterwards, by an
index into a list that has grown in between.  `Node.preOrder` says without any slots what the list
is to hold: the field of an object in front of the fields of its arguments.

From the list alone it cannot be seen whether a slot has been forgotten, as a reserved slot holds
what an empty object would put there.  So the walk is stated once for all kinds of slots
(`Layout.SlotStore`) and carried out twice: with plain slots, which is measuring
(`measureNode_eq_plain`), and with slots that show whether they have been filled and that can be
filled only once (`watched`).  The two runs keep in step (`InStep`): a step lemma for each part of
the walk, and from them `inStep_measure` for whole trees.

Main result: `Layout.slots_filled_in_preOrder`.
-/

namespace Acpi

namespace Layout

/-! ## One walk for all kinds of slots -/

/-- What measuring needs: to refuse a tree, to reserve a slot and get its index, and to fill the
slot at an index. -/
structure SlotStore (m : Type → Type) where
  refuse : EncodeError → m Nat
  reserve : m Nat
  fill : Nat → PkgLength → m Unit

namespace SlotStore

variable {m : Type → Type} [Monad m] (store : SlotStore m)

/-- A size, refused if it exceeds 32 bits. -/
def checked (size : Nat) : m Nat :=
  if size ≤ maxSize then pure size else store.refuse .sizeOverflow

/-- The size of an opcode. -/
def opcodeSize (head : Head) : m Nat :=
  match head.opcodeSize with
  | .ok size => pure size
  | .error error => store.refuse error

/-- A payload behind a package length. -/
def packaged (payload : m Nat) : m Nat := do
  let slot ← store.reserve
  let size ← payload
  match PkgLength.search? (UInt32.ofNat size) PkgLength.widths with
  | some length =>
      store.fill slot length
      pure length.value
  | none => store.refuse .sizeOverflow

/-- One measurement after the other, on top of a size that has been found already. -/
def measureEach (size : Nat) : List (m Nat) → m Nat
  | [] => pure size
  | measurement :: measurements => do
      let more ← measurement
      let size ← store.checked (size + more)
      measureEach size measurements

/-- How an object is measured, given how its written arguments are. -/
def algebra : Node.Algebra (m Nat) where
  block := fun _ _ => store.refuse .invalidTree
  data := fun bytes => store.checked bytes.size
  object := fun head args => do
    let opcode ← store.opcodeSize head
    if head.pseudo then
      store.measureEach 0 args
    else
      let size ← if head.packaged then store.packaged (store.measureEach 0 args)
        else store.measureEach 0 args
      store.checked (size + opcode)

/-- The size of a tree below the top. -/
def measure : Node → m Nat := Node.fold store.algebra

end SlotStore

/-- The slots that measuring uses: a slot that is reserved holds the length of an empty object. -/
def plain : SlotStore MeasureM := ⟨throw, reserve, fill⟩

theorem measureEach_eq_plain (size : Nat) (measurements : List (MeasureM Nat)) :
    measureEach size measurements = plain.measureEach size measurements := by
  induction measurements generalizing size with
  | nil => rfl
  | cons measurement measurements ih =>
      simp only [measureEach, SlotStore.measureEach, ih]
      rfl

theorem measureNode_eq_plain : measureNode = plain.measure := by
  have hAlgebra : measureAlgebra = plain.algebra := by
    unfold measureAlgebra SlotStore.algebra
    simp only [measureEach_eq_plain]
    rfl
  rw [measureNode_eq_fold, hAlgebra]
  rfl

/-! ## Watched slots -/

/-- Why measuring with watched slots ends early: the tree is refused, or a slot is to be filled that
is out of range or has not been reserved. -/
inductive SlotFault where
  | refused (error : EncodeError)
  | badSlot (slot : Nat)

/-- Measuring with slots that show whether they have been filled. -/
abbrev WatchM := EStateM SlotFault (Array (Option PkgLength))

/-- Slots that show whether they have been filled.  Only a slot that is there, and that has been
reserved and not filled yet, can be filled. -/
def watched : SlotStore WatchM where
  refuse error := throw (.refused error)
  reserve := fun slots => .ok slots.size (slots.push none)
  fill slot length := fun slots =>
    if slots[slot]? = some none then
      .ok () (slots.setIfInBounds slot (some length))
    else
      .error (.badSlot slot) slots

/-- What plain slots hold in place of watched ones. -/
def shown (slots : Array (Option PkgLength)) : Array PkgLength :=
  slots.map fun slot => slot.getD .empty

/-- A measurement with watched slots keeps in step with one with plain slots: both end with the same
size, and then the watched slots that were there are as before and all new ones are filled; or both
refuse for the same reason. -/
def InStep (watching : WatchM Nat) (measurement : MeasureM Nat) : Prop :=
  ∀ slots : Array (Option PkgLength),
    (∃ (size : Nat) (filled : List PkgLength),
      watching slots = .ok size (slots ++ (filled.map some).toArray) ∧
      measurement (shown slots) = .ok size (shown slots ++ filled.toArray)) ∨
    ∃ error slots' lengths, watching slots = .error (.refused error) slots' ∧
      measurement (shown slots) = .error error lengths

section Runs

variable {ε σ α β : Type} {x : EStateM ε σ α} {f : α → EStateM ε σ β} {state after : σ}

theorem bind_of_ok {a : α} (h : x state = .ok a after) : (x >>= f) state = f a after := by
  show EStateM.bind x f state = _
  unfold EStateM.bind
  rw [h]

theorem bind_of_error {error : ε} (h : x state = .error error after) :
    (x >>= f) state = .error error after := by
  show EStateM.bind x f state = _
  unfold EStateM.bind
  rw [h]

end Runs

theorem size_shown (slots : Array (Option PkgLength)) : (shown slots).size = slots.size := by
  simp [shown]

theorem shown_push (slots : Array (Option PkgLength)) :
    shown (slots.push none) = (shown slots).push .empty := by
  simp [shown]

theorem shown_append (slots : Array (Option PkgLength)) (filled : List PkgLength) :
    shown (slots ++ (filled.map some).toArray) = shown slots ++ filled.toArray := by
  simp [shown, Function.comp_def]

theorem inStep_pure (size : Nat) : InStep (pure size) (pure size) := by
  intro slots
  refine Or.inl ⟨size, [], ?_, ?_⟩
  · show EStateM.Result.ok size slots = _
    simp
  · show EStateM.Result.ok size (shown slots) = _
    simp

theorem inStep_refuse (error : EncodeError) :
    InStep (watched.refuse error) (plain.refuse error) :=
  fun slots => Or.inr ⟨error, slots, shown slots, rfl, rfl⟩

theorem InStep.bind {watching : WatchM Nat} {measurement : MeasureM Nat} {f : Nat → WatchM Nat}
    {g : Nat → MeasureM Nat} (hFirst : InStep watching measurement)
    (hSecond : ∀ size, InStep (f size) (g size)) :
    InStep (watching >>= f) (measurement >>= g) := by
  intro slots
  rcases hFirst slots with ⟨size, filled, hWatching, hMeasurement⟩ |
    ⟨error, slots', lengths, hWatching, hMeasurement⟩
  · rw [bind_of_ok hWatching, bind_of_ok hMeasurement, ← shown_append]
    rcases hSecond size (slots ++ (filled.map some).toArray) with
      ⟨size', filled', hF, hG⟩ | hRefused
    · refine Or.inl ⟨size', filled ++ filled', ?_, ?_⟩
      · simp [hF]
      · rw [hG, shown_append]
        simp
    · exact Or.inr hRefused
  · exact Or.inr ⟨error, slots', lengths, bind_of_error hWatching, bind_of_error hMeasurement⟩

theorem inStep_checked (size : Nat) : InStep (watched.checked size) (plain.checked size) := by
  unfold SlotStore.checked
  split
  · exact inStep_pure size
  · exact inStep_refuse _

theorem inStep_opcodeSize (head : Head) :
    InStep (watched.opcodeSize head) (plain.opcodeSize head) := by
  unfold SlotStore.opcodeSize
  split
  · exact inStep_pure _
  · exact inStep_refuse _

/-- The slot in front of a payload is still reserved when the payload has been measured, and it is
filled then. -/
theorem fill_reserved (slots : Array (Option PkgLength)) (filled : List PkgLength)
    (length : PkgLength) :
    watched.fill slots.size length (slots.push none ++ (filled.map some).toArray) =
      .ok () (slots ++ ((length :: filled).map some).toArray) := by
  have hReserved : (slots.push none ++ (filled.map some).toArray)[slots.size]? = some none := by
    rw [Array.getElem?_append_left (by simp)]
    simp
  unfold watched
  simp only [if_pos hReserved, setIfInBounds_reserved, List.map_cons]

theorem InStep.packaged {watching : WatchM Nat} {measurement : MeasureM Nat}
    (h : InStep watching measurement) :
    InStep (watched.packaged watching) (plain.packaged measurement) := by
  intro slots
  have hReserve : watched.reserve slots = .ok slots.size (slots.push none) := rfl
  have hReserve' : plain.reserve (shown slots) = .ok slots.size (shown (slots.push none)) := by
    rw [← size_shown, shown_push]
    rfl
  unfold SlotStore.packaged
  rw [bind_of_ok hReserve, bind_of_ok hReserve']
  -- The payload is measured with the open slot among the slots that were there before, so it is
  -- still open, and at the same index, when the payload has been measured.
  rcases h (slots.push none) with ⟨size, filled, hWatching, hMeasurement⟩ |
    ⟨error, slots', lengths, hWatching, hMeasurement⟩
  · rw [bind_of_ok hWatching, bind_of_ok hMeasurement]
    cases PkgLength.search? (UInt32.ofNat size) PkgLength.widths with
    | none => exact Or.inr ⟨.sizeOverflow, _, _, rfl, rfl⟩
    | some length =>
        have hFill : plain.fill slots.size length (shown (slots.push none) ++ filled.toArray) =
            .ok () (shown slots ++ (length :: filled).toArray) := by
          rw [← size_shown, shown_push, ← setIfInBounds_reserved]
          rfl
        dsimp only
        rw [bind_of_ok (fill_reserved slots filled length), bind_of_ok hFill]
        exact Or.inl ⟨length.value, length :: filled, rfl, rfl⟩
  · rw [bind_of_error hWatching, bind_of_error hMeasurement]
    exact Or.inr ⟨error, slots', lengths, rfl, rfl⟩

theorem inStep_measureEach {nodes : List Node}
    (hEach : ∀ node ∈ nodes, InStep (watched.measure node) (plain.measure node)) (size : Nat) :
    InStep (watched.measureEach size (nodes.map watched.measure))
      (plain.measureEach size (nodes.map plain.measure)) := by
  induction nodes generalizing size with
  | nil => exact inStep_pure size
  | cons node nodes ih =>
      obtain ⟨hNode, hNodes⟩ := List.forall_mem_cons.1 hEach
      simp only [List.map_cons, SlotStore.measureEach]
      exact hNode.bind fun more => (inStep_checked (size + more)).bind fun size => ih hNodes size

/-- Measuring with watched slots keeps in step with measuring, on every tree. -/
theorem inStep_measure (node : Node) : InStep (watched.measure node) (plain.measure node) := by
  induction node using Node.written_induction with
  | block header body _ =>
      simp only [SlotStore.measure, Node.fold_block]
      exact inStep_refuse .invalidTree
  | data bytes =>
      simp only [SlotStore.measure, Node.fold_data]
      exact inStep_checked bytes.size
  | object head fixed body ih =>
      -- The walk is one for both kinds of slots, so each of its branches meets its like.
      have hArgs := inStep_measureEach ih 0
      simp only [SlotStore.measure, Node.fold_object]
      refine (inStep_opcodeSize head).bind fun opcode => ?_
      split
      · exact hArgs
      · split
        · exact hArgs.packaged.bind fun size => inStep_checked _
        · exact hArgs.bind fun size => inStep_checked _

end Layout

/-! ## Pre-order -/

namespace Node

theorem sizeOf_lt_of_mem_writtenArgs {head : Head} {fixed body : List Node} {arg : Node}
    (h : arg ∈ head.writtenArgs fixed body) : sizeOf arg < sizeOf (Node.object head fixed body) := by
  rcases Head.mem_of_mem_writtenArgs h with hMem | hMem
  · have := List.sizeOf_lt_of_mem hMem
    simp only [Node.object.sizeOf_spec]
    omega
  · have := List.sizeOf_lt_of_mem hMem
    simp only [Node.object.sizeOf_spec]
    omega

/-- The length fields of a tree in pre-order.  Data have none.  A pseudo object has those of its
written arguments, one argument after the other, and so has any other object; but in front of them
stands, if the object is packaged, the field for all its written arguments together. -/
def preOrder : Node → List PkgLength
  | .block .. => []
  | .data _ => []
  | .object head fixed body =>
      let args := (head.writtenArgs fixed body).attach.flatMap fun arg => preOrder arg.1
      if head.pseudo then
        args
      else if head.packaged then
        (PkgLength.ofPayload? (planSize (head.writtenArgs fixed body))).toList ++ args
      else
        args
termination_by node => sizeOf node
decreasing_by exact sizeOf_lt_of_mem_writtenArgs arg.2

theorem preOrder_object (head : Head) (fixed body : List Node) :
    preOrder (.object head fixed body) =
      head.lengthField (planSize (head.writtenArgs fixed body)) ++
        (head.writtenArgs fixed body).flatMap preOrder := by
  have hArgs : ((head.writtenArgs fixed body).attach.flatMap fun arg => preOrder arg.1) =
      (head.writtenArgs fixed body).flatMap preOrder := by
    simp [List.flatMap_def]
  rw [preOrder]
  simp only [hArgs]
  by_cases hPseudo : head.pseudo = true
  · simp [Head.lengthField, Head.hasLength_of_pseudo hPseudo, hPseudo]
  · by_cases hPackaged : head.packaged = true
    · simp [Head.lengthField, Head.hasLength_of_not_pseudo hPseudo, hPseudo, hPackaged]
    · simp [Head.lengthField, Head.hasLength_of_not_pseudo hPseudo, hPseudo, hPackaged]

theorem preOrder_eq_plan (node : Node) : node.preOrder = node.plan.lengths := by
  induction node using written_induction with
  | block header body _ => rw [preOrder, plan, fold_block]
  | data bytes => rw [preOrder, plan_data]
  | object head fixed body ih =>
      rw [preOrder_object, plan_object, Plan.ofObject, planLengths, List.flatMap_congr ih]

/-- There is one length field for each object that has one. -/
theorem Encodable.length_preOrder {node : Node} (h : Encodable node) :
    node.preOrder.length = node.lengthHeads.length := by
  induction h with
  | data bytes =>
      rw [preOrder, lengthHeads, fold_data]
      rfl
  | object head fixed body _ _ hLength ih =>
      have hHead : (head.lengthField (planSize (head.writtenArgs fixed body))).length =
          head.lengthHeads.length := by
        unfold Head.lengthField Head.lengthHeads
        split
        next hHas =>
          obtain ⟨length, hSome⟩ := Option.isSome_iff_exists.1 (hLength hHas)
          rw [hSome]
          rfl
        next => rfl
      rw [preOrder_object, lengthHeads_object, List.length_append, List.length_append, hHead,
        List.length_flatMap, List.length_flatMap, List.map_congr_left ih]

end Node

namespace Layout

open Node (Encodable planSize planLengths)

/-- The layouts of the terms of a table, one behind the other, are the layout of the table. -/
theorem ofBody_eq_flatMap {body : List Node} {layout : Layout} (h : ofBody body = .ok layout) :
    ∃ layouts, List.Forall₂ (fun term part => ofNode term = .ok part) body layouts ∧
      layout.lengths.toList = layouts.flatMap fun part => part.lengths.toList := by
  obtain ⟨⟨hBody, hFits⟩, rfl⟩ := ofBody_eq_ok_iff.1 h
  refine ⟨body.map fun term => ⟨term.plan.lengths.toArray, UInt32.ofNat term.plan.size⟩, ?_, ?_⟩
  · rw [List.forall₂_map_right_iff, List.forall₂_same]
    intro term hMem
    have hTerm := Node.size_le_planSize hMem
    exact ofNode_of_encodable (hBody term hMem) (by omega)
  · rw [List.flatMap_map]
    rfl

/-- The layout of a table has one field for each object in it that has a length field. -/
theorem size_lengths_ofBody {body : List Node} {layout : Layout} (h : ofBody body = .ok layout) :
    layout.lengths.size = (body.flatMap Node.lengthHeads).length := by
  obtain ⟨⟨hBody, -⟩, rfl⟩ := ofBody_eq_ok_iff.1 h
  have hEach : ∀ term ∈ body, term.plan.lengths.length = term.lengthHeads.length := by
    intro term hMem
    rw [← Node.preOrder_eq_plan]
    exact (hBody term hMem).length_preOrder
  simp only [planLengths, List.size_toArray, List.length_flatMap, List.map_congr_left hEach]

/-- Measuring succeeds on every list of length fields alike, and appends the fields of the tree in
pre-order. -/
theorem measureNode_of_ok {node : Node} {before after : Array PkgLength} {size : Nat}
    (h : measureNode node before = .ok size after) :
    Encodable node ∧ size = node.plan.size ∧
      ∀ other, measureNode node other = .ok size (other ++ node.preOrder.toArray) := by
  obtain ⟨hPossible, rfl, -⟩ := (finds_measureNode node _ _ _).1 h
  refine ⟨hPossible.1, rfl, fun other => ?_⟩
  rw [Node.preOrder_eq_plan]
  exact (finds_measureNode node _ _ _).2 ⟨hPossible, rfl, rfl⟩

/-- Watched slots come to the same: exactly the fields in pre-order are appended, all filled. -/
theorem watched_measure_of_ok {node : Node} {size : Nat}
    (h : ∀ other, measureNode node other = .ok size (other ++ node.preOrder.toArray))
    (slots : Array (Option PkgLength)) :
    watched.measure node slots = .ok size (slots ++ (node.preOrder.map some).toArray) := by
  rcases inStep_measure node slots with ⟨size', filled, hWatched, hPlain⟩ |
    ⟨error, slots', lengths, -, hPlain⟩
  · rw [← measureNode_eq_plain, h] at hPlain
    injection hPlain with hSize hFilled
    have hSame : node.preOrder = filled := by
      simpa using congrArg Array.toList hFilled
    rw [hWatched, hSize, hSame]
  · rw [← measureNode_eq_plain, h] at hPlain
    cases hPlain

/-- No slot is ever filled that is out of range or not reserved. -/
theorem watched_measure_ne_badSlot (node : Node) (slots after : Array (Option PkgLength))
    (slot : Nat) : watched.measure node slots ≠ .error (.badSlot slot) after := by
  intro h
  rcases inStep_measure node slots with ⟨_, _, hWatched, -⟩ | ⟨_, _, _, hWatched, -⟩
  · rw [h] at hWatched
    cases hWatched
  · rw [h] at hWatched
    cases hWatched

/-- **Slots are filled in pre-order.**  If a tree can be measured on some list of length fields, then
the list is kept and the fields of the tree in pre-order are appended, one for each object that has
a length field; on any other list the size is the same and the same fields are appended.  The walk
is the same with watched slots: there exactly these fields are appended and none of them is left
open, and on no tree is a slot filled that is out of range or not reserved.  The layout of a block
is made of the layouts of its terms, one behind the other. -/
theorem slots_filled_in_preOrder :
    (∀ node before size after, measureNode node before = .ok size after →
      after = before ++ node.preOrder.toArray ∧
      size = node.plan.size ∧
      node.preOrder.length = node.lengthHeads.length ∧
      (∀ other, measureNode node other = .ok size (other ++ node.preOrder.toArray)) ∧
      ∀ slots, watched.measure node slots =
        .ok size (slots ++ (node.preOrder.map some).toArray)) ∧
    (∀ node, measureNode node = plain.measure node) ∧
    (∀ node slots slot after, watched.measure node slots ≠ .error (.badSlot slot) after) ∧
    ∀ header body layout, ofNode (.block header body) = .ok layout →
      layout.lengths.size = (body.flatMap Node.lengthHeads).length ∧
      ∃ layouts, List.Forall₂ (fun term part => ofNode term = .ok part) body layouts ∧
        layout.lengths.toList = layouts.flatMap fun part => part.lengths.toList := by
  refine ⟨fun node before size after h => ?_, fun node => by rw [measureNode_eq_plain],
    fun node slots slot after => watched_measure_ne_badSlot node slots after slot,
    fun header body layout h => ⟨size_lengths_ofBody h, ofBody_eq_flatMap h⟩⟩
  obtain ⟨hEncodable, hSize, hAny⟩ := measureNode_of_ok h
  have hAfter := (hAny before).symm.trans h
  injection hAfter with _ hAfter
  exact ⟨hAfter.symm, hSize, hEncodable.length_preOrder, hAny, watched_measure_of_ok hAny⟩

/-- A scope with a buffer and, in a group, a package without elements, whose length is the one that
a reserved slot holds; measured behind a slot that is still open, and as a term of a table. -/
theorem slots_filled_in_preOrder_nested :
    let buffer : Node := .object (Head.plain Opcode.bufferOp) [.data [1, 2].toByteArray] []
    let package : Node := .object (Head.plain Opcode.packageOp) [] []
    let scope : Node := .object (Head.plain Opcode.scopeOp)
      [.data [0x41, 0x42, 0x43, 0x44].toByteArray] [buffer, .object Head.group [] [package]]
    measureNode scope #[⟨7, 1⟩] = .ok 12 #[⟨7, 1⟩, ⟨11, 1⟩, ⟨3, 1⟩, ⟨1, 1⟩] ∧
      scope.preOrder = [⟨11, 1⟩, ⟨3, 1⟩, ⟨1, 1⟩] ∧
      watched.measure scope #[none] =
        .ok 12 #[none, some ⟨11, 1⟩, some ⟨3, 1⟩, some ⟨1, 1⟩] ∧
      ∀ header, ofNode (.block header [scope, buffer]) =
          .ok ⟨#[⟨11, 1⟩, ⟨3, 1⟩, ⟨1, 1⟩, ⟨3, 1⟩], 52⟩ ∧
        ∃ layouts, List.Forall₂ (fun term part => ofNode term = .ok part) [scope, buffer] layouts ∧
          [⟨11, 1⟩, ⟨3, 1⟩, ⟨1, 1⟩, ⟨3, 1⟩] = layouts.flatMap fun part => part.lengths.toList := by
  intro buffer package scope
  have hMeasure : measureNode scope #[⟨7, 1⟩] =
      .ok 12 #[⟨7, 1⟩, ⟨11, 1⟩, ⟨3, 1⟩, ⟨1, 1⟩] := by rfl
  obtain ⟨hAfter, -, -, -, hWatched⟩ := slots_filled_in_preOrder.1 scope _ _ _ hMeasure
  have hFields : scope.preOrder = [⟨11, 1⟩, ⟨3, 1⟩, ⟨1, 1⟩] := by
    simpa using (congrArg Array.toList hAfter).symm
  refine ⟨hMeasure, hFields, ?_, fun header => ?_⟩
  · rw [hWatched, hFields]
    rfl
  · have hBlock : ofNode (.block header [scope, buffer]) =
        .ok ⟨#[⟨11, 1⟩, ⟨3, 1⟩, ⟨1, 1⟩, ⟨3, 1⟩], 52⟩ := by rfl
    exact ⟨hBlock, (slots_filled_in_preOrder.2.2.2 header _ _ hBlock).2⟩

end Layout

end Acpi
