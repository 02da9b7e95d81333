import Acpi.Proofs.CanonicalLength
import Acpi.Proofs.Encoding

/-!
# Measuring finds the plan

Measuring threads a growing list of package lengths through the whole tree, reserves a slot for an
object before it knows what to put there, and checks every sum on the way.  None of that shows in
the outcome: `Layout.finds_measureNode` says that a tree can be measured exactly if it is encodable
and its planned size fits 32 bits, that the size found is the planned one, and that the planned
length fields are appended to whatever had been found before.

If measuring fails, the tree is malformed or too large: `Layout.faults_measureNode`.
-/

namespace Acpi.Layout

open Node (Encodable planSize planLengths)

variable {α β : Type}

/-! ## Steps of a measurement -/

theorem bind_eq_ok_iff {x : MeasureM α} {f : α → MeasureM β} {before after : Array PkgLength}
    {b : β} : (x >>= f) before = .ok b after ↔
      ∃ a between, x before = .ok a between ∧ f a between = .ok b after := by
  show EStateM.bind x f before = _ ↔ _
  unfold EStateM.bind
  cases x before <;> simp

/-- When a measurement ends, what it finds, and which length fields it appends.  Nothing of this
depends on the length fields that were found before. -/
def Finds (measurement : MeasureM Nat) (possible : Prop) (size : Nat)
    (lengths : List PkgLength) : Prop :=
  ∀ (found : Nat) (before after : Array PkgLength), measurement before = .ok found after ↔
    possible ∧ found = size ∧ after = before ++ lengths.toArray

theorem finds_checked (size : Nat) : Finds (checked size) (size ≤ maxSize) size [] := by
  intro found before after
  unfold checked
  by_cases hFits : size ≤ maxSize
  · rw [if_pos hFits]
    show EStateM.Result.ok size before = EStateM.Result.ok found after ↔ _
    simp only [EStateM.Result.ok.injEq, hFits, true_and, Array.append_empty]
    exact and_congr eq_comm eq_comm
  · rw [if_neg hFits]
    show EStateM.Result.error EncodeError.sizeOverflow before = EStateM.Result.ok found after ↔ _
    simp [hFits]

theorem finds_opcodeSize (head : Head) :
    Finds (opcodeSize head) head.WellPaired head.opcodeBytes.length [] := by
  intro found before after
  rw [← and_assoc, ← Head.opcodeSize_eq_ok_iff, Array.append_empty]
  unfold opcodeSize
  cases head.opcodeSize with
  | ok size =>
      show EStateM.Result.ok size before = EStateM.Result.ok found after ↔ _
      simp only [EStateM.Result.ok.injEq, Except.ok.injEq]
      exact and_congr_right fun _ => eq_comm
  | error error =>
      show EStateM.Result.error error before = EStateM.Result.ok found after ↔ _
      simp

theorem finds_pure (size : Nat) : Finds (pure size) True size [] := by
  intro found before after
  show EStateM.Result.ok size before = EStateM.Result.ok found after ↔ _
  simp only [EStateM.Result.ok.injEq, true_and, Array.append_empty]
  exact and_congr eq_comm eq_comm

/-- Two measurements one after the other.  The second may use the size that the first has found,
and need only be understood if the first has ended. -/
theorem Finds.bind {x : MeasureM Nat} {f : Nat → MeasureM Nat} {possible possible' : Prop}
    {size size' : Nat} {lengths lengths' : List PkgLength} (hFirst : Finds x possible size lengths)
    (hSecond : possible → Finds (f size) possible' size' lengths') :
    Finds (x >>= f) (possible ∧ possible') size' (lengths ++ lengths') := by
  intro found before after
  rw [bind_eq_ok_iff]
  constructor
  · rintro ⟨_, _, hX, hF⟩
    obtain ⟨hPossible, rfl, rfl⟩ := (hFirst _ _ _).1 hX
    obtain ⟨hPossible', rfl, rfl⟩ := (hSecond hPossible _ _ _).1 hF
    exact ⟨⟨hPossible, hPossible'⟩, rfl, by simp⟩
  · rintro ⟨⟨hPossible, hPossible'⟩, rfl, rfl⟩
    refine ⟨size, _, (hFirst _ _ _).2 ⟨hPossible, rfl, rfl⟩, (hSecond hPossible _ _ _).2 ?_⟩
    exact ⟨hPossible', rfl, by simp⟩

theorem Finds.congr {measurement : MeasureM Nat} {possible possible' : Prop} {size size' : Nat}
    {lengths lengths' : List PkgLength} (h : Finds measurement possible size lengths)
    (hPossible : possible ↔ possible') (hSize : size = size') (hLengths : lengths = lengths') :
    Finds measurement possible' size' lengths' := by
  rw [← hSize, ← hLengths]
  intro found before after
  rw [h found before after, hPossible]

/-- Filling the slot that was reserved in front of a payload. -/
theorem setIfInBounds_reserved (before : Array α) (entries : List α) (placeholder entry : α) :
    (before.push placeholder ++ entries.toArray).setIfInBounds before.size entry =
      before ++ (entry :: entries).toArray := by
  apply Array.toList_inj.1
  simp

/-- The search for the length field of a size that has been checked. -/
theorem search?_ofNat {size : Nat} (h : size ≤ maxSize) :
    PkgLength.search? (UInt32.ofNat size) PkgLength.widths = PkgLength.ofPayload? size := by
  have hSize : size < UInt32.size := Nat.lt_succ_of_le h
  rw [PkgLength.search?_eq, UInt32.toNat_ofNat_of_lt' hSize]

/-- Behind a package length the payload is measured with one more slot in front, and in the end the
slot holds the length of the payload. -/
theorem Finds.packaged {payload : MeasureM Nat} {possible : Prop} {size : Nat}
    {lengths : List PkgLength} (h : Finds payload possible size lengths)
    (hFits : possible → size ≤ maxSize) :
    Finds (packaged payload) (possible ∧ (PkgLength.ofPayload? size).isSome)
      (PkgLength.neededWidth size + size) ((PkgLength.ofPayload? size).toList ++ lengths) := by
  intro found before after
  unfold Layout.packaged
  simp only [bind_eq_ok_iff, reserve, EStateM.Result.ok.injEq]
  constructor
  · rintro ⟨_, _, ⟨rfl, rfl⟩, _, _, hPayload, hRest⟩
    -- The slot was pushed first, so the length fields of the payload stand behind it.
    obtain ⟨hPossible, rfl, rfl⟩ := (h _ _ _).1 hPayload
    rw [search?_ofNat (hFits hPossible)] at hRest
    cases hLength : PkgLength.ofPayload? _ with
    | none => rw [hLength] at hRest; cases hRest
    | some length =>
        rw [hLength] at hRest
        obtain ⟨_, _, hFill, hFound⟩ := bind_eq_ok_iff.1 hRest
        cases hFill
        cases hFound
        refine ⟨⟨hPossible, rfl⟩, ?_, ?_⟩
        · have hValue := (PkgLength.fits_of_ofPayload? hLength).2
          rw [PkgLength.width_of_ofPayload? hLength] at hValue
          omega
        · rw [setIfInBounds_reserved]
          rfl
  · rintro ⟨⟨hPossible, hSome⟩, rfl, rfl⟩
    obtain ⟨length, hLength⟩ := Option.isSome_iff_exists.1 hSome
    refine ⟨_, _, ⟨rfl, rfl⟩, size, _, (h _ _ _).2 ⟨hPossible, rfl, rfl⟩, ?_⟩
    rw [search?_ofNat (hFits hPossible), hLength]
    refine bind_eq_ok_iff.2 ⟨(), _, rfl, ?_⟩
    have hValue := (PkgLength.fits_of_ofPayload? hLength).2
    rw [PkgLength.width_of_ofPayload? hLength] at hValue
    show EStateM.Result.ok length.value _ = EStateM.Result.ok _ _
    rw [setIfInBounds_reserved, hValue, Nat.add_comm]
    rfl

/-! ## The plan -/

/-- When a tree can be measured and what is found. -/
private def FindsPlan (node : Node) : Prop :=
  Finds (measureNode node) (Encodable node ∧ node.plan.size ≤ maxSize) node.plan.size
    node.plan.lengths

/-- A list of trees on top of a size, if each of the trees is understood. -/
private theorem finds_measureNodes_of_each {nodes : List Node}
    (hEach : ∀ node ∈ nodes, FindsPlan node) {size : Nat} (hSize : size ≤ maxSize) :
    Finds (measureNodes size nodes)
      ((∀ node ∈ nodes, Encodable node) ∧ size + planSize nodes ≤ maxSize)
      (size + planSize nodes) (planLengths nodes) := by
  induction nodes generalizing size with
  | nil =>
      refine (finds_pure size).congr ?_ rfl rfl
      exact ⟨fun _ => ⟨nofun, hSize⟩, fun _ => trivial⟩
  | cons node nodes ih =>
      have hHead := hEach node List.mem_cons_self
      have hTail := fun other hMem => hEach other (List.mem_cons_of_mem node hMem)
      have hRest := (finds_checked (size + node.plan.size)).bind
        (f := fun size => measureNodes size nodes) fun hFits => ih hTail hFits
      have hSteps := hHead.bind
        (f := fun more => do measureNodes (← checked (size + more)) nodes) fun _ => hRest
      rw [measureNodes]
      refine hSteps.congr ?_ ?_ ?_
      · rw [Node.planSize_cons, List.forall_mem_cons]
        constructor
        · rintro ⟨⟨hNode, -⟩, -, hNodes, hAll⟩
          exact ⟨⟨hNode, hNodes⟩, by omega⟩
        · rintro ⟨⟨hNode, hNodes⟩, hAll⟩
          exact ⟨⟨hNode, by omega⟩, by omega, hNodes, by omega⟩
      · rw [Node.planSize_cons, Nat.add_assoc]
      · rw [Node.planLengths_cons, List.nil_append]

/-- The payload of an object that carries a length is far below the limit of all sizes. -/
private theorem le_maxSize_of_ofPayload? {payload : Nat}
    (h : (PkgLength.ofPayload? payload).isSome) : payload ≤ maxSize := by
  obtain ⟨length, hLength⟩ := Option.isSome_iff_exists.1 h
  have hPayload := PkgLength.payload_lt_of_ofPayload? hLength
  unfold maxSize
  omega

/-- An object whose written arguments are understood. -/
private theorem findsPlan_object (head : Head) (fixed body : List Node)
    (hEach : ∀ node ∈ head.writtenArgs fixed body, FindsPlan node) :
    FindsPlan (.object head fixed body) := by
  have hArgs := finds_measureNodes_of_each hEach (Nat.zero_le maxSize)
  rw [Nat.zero_add] at hArgs
  unfold FindsPlan
  rw [measureNode_object, Node.encodable_object_iff, Node.plan_object]
  -- The three kinds of objects differ in what follows the arguments: nothing, the opcode, or the
  -- length field and the opcode.
  by_cases hPseudo : head.pseudo = true
  · have hHas := Head.hasLength_of_pseudo hPseudo
    rw [Node.Plan.ofObject_of_no_length hHas, Head.opcodeBytes_of_pseudo hPseudo, List.length_nil,
      Nat.zero_add]
    simp only [if_pos hPseudo]
    refine ((finds_opcodeSize head).bind fun _ => hArgs).congr ?_ rfl rfl
    constructor
    · rintro ⟨hPaired, hNodes, hFits⟩
      exact ⟨⟨hNodes, hPaired, by simp [hHas]⟩, hFits⟩
    · rintro ⟨⟨hNodes, hPaired, -⟩, hFits⟩
      exact ⟨hPaired, hNodes, hFits⟩
  · have hHas := Head.hasLength_of_not_pseudo hPseudo
    simp only [if_neg hPseudo]
    by_cases hPackaged : head.packaged = true
    · rw [hPackaged] at hHas
      simp only [if_pos hPackaged]
      have hSized := (hArgs.packaged And.right).bind
        (f := fun size => checked (size + head.opcodeBytes.length)) fun _ => finds_checked _
      refine ((finds_opcodeSize head).bind fun _ => hSized).congr ?_ ?_ ?_
      · rw [Node.Plan.ofObject_of_length hHas]
        constructor
        · rintro ⟨hPaired, ⟨⟨hNodes, -⟩, hSome⟩, hFits⟩
          exact ⟨⟨hNodes, hPaired, fun _ => hSome⟩, by simp only; omega⟩
        · rintro ⟨⟨hNodes, hPaired, hSome⟩, hFits⟩
          have hPayload := le_maxSize_of_ofPayload? (hSome hHas)
          exact ⟨hPaired, ⟨⟨hNodes, hPayload⟩, hSome hHas⟩, by simp only at hFits; omega⟩
      · rw [Node.Plan.ofObject_of_length hHas]
        simp only
        omega
      · rw [Node.Plan.ofObject_of_length hHas, List.nil_append, List.append_nil]
    · rw [eq_false_of_ne_true hPackaged] at hHas
      simp only [if_neg hPackaged]
      have hSized := hArgs.bind
        (f := fun size => checked (size + head.opcodeBytes.length)) fun _ => finds_checked _
      refine ((finds_opcodeSize head).bind fun _ => hSized).congr ?_ ?_ ?_
      · rw [Node.Plan.ofObject_of_no_length hHas]
        constructor
        · rintro ⟨hPaired, ⟨hNodes, -⟩, hFits⟩
          exact ⟨⟨hNodes, hPaired, by simp [hHas]⟩, by simp only; omega⟩
        · rintro ⟨⟨hNodes, hPaired, -⟩, hFits⟩
          simp only at hFits
          exact ⟨hPaired, ⟨hNodes, by omega⟩, by omega⟩
      · rw [Node.Plan.ofObject_of_no_length hHas, Nat.add_comm]
      · rw [Node.Plan.ofObject_of_no_length hHas, List.nil_append, List.append_nil]

/-- A tree below the top can be measured exactly if it is encodable and not too large; then
measuring finds its plan, whatever has been found before. -/
theorem finds_measureNode (node : Node) :
    Finds (measureNode node) (Encodable node ∧ node.plan.size ≤ maxSize) node.plan.size
      node.plan.lengths := by
  induction node using Node.written_induction with
  | block header body _ =>
      intro found before after
      rw [measureNode]
      show EStateM.Result.error EncodeError.invalidTree before = EStateM.Result.ok found after ↔ _
      constructor
      · intro h
        cases h
      · rintro ⟨⟨hEncodable, -⟩, -⟩
        cases hEncodable
  | data bytes =>
      rw [measureNode, Node.plan_data]
      refine (finds_checked bytes.size).congr ?_ rfl rfl
      exact ⟨fun h => ⟨.data bytes, h⟩, fun h => h.2⟩
  | object head fixed body ih => exact findsPlan_object head fixed body ih

/-- A list of trees is measured as the trees one behind the other. -/
theorem finds_measureNodes (nodes : List Node) :
    Finds (measureNodes 0 nodes) ((∀ node ∈ nodes, Encodable node) ∧ planSize nodes ≤ maxSize)
      (planSize nodes) (planLengths nodes) := by
  have hEach : ∀ node ∈ nodes, FindsPlan node := fun node _ => finds_measureNode node
  have h := finds_measureNodes_of_each hEach (Nat.zero_le maxSize)
  rwa [Nat.zero_add] at h

/-! ## Layouts -/

/-- A layout holds what its measurement has found. -/
theorem run_eq_ok_iff {measurement : MeasureM Nat} {possible : Prop} {size : Nat}
    {lengths : List PkgLength} (h : Finds measurement possible size lengths) {layout : Layout} :
    run measurement = .ok layout ↔ possible ∧ layout = ⟨lengths.toArray, UInt32.ofNat size⟩ := by
  unfold run EStateM.run
  cases hOutcome : measurement #[] with
  | ok found after =>
      obtain ⟨hPossible, rfl, rfl⟩ := (h _ _ _).1 hOutcome
      simp only [Except.ok.injEq, hPossible, true_and, Array.empty_append]
      exact eq_comm
  | error error after =>
      have hImpossible : ¬ possible := by
        intro hPossible
        have hOk := (h size #[] _).2 ⟨hPossible, rfl, rfl⟩
        rw [hOutcome] at hOk
        cases hOk
      simp [hImpossible]

/-- The layout of a table holds the plans of its terms, and the header in its total. -/
theorem ofBody_eq_ok_iff {body : List Node} {layout : Layout} :
    ofBody body = .ok layout ↔
      ((∀ node ∈ body, Encodable node) ∧ planSize body + Header.size ≤ maxSize) ∧
        layout = ⟨(planLengths body).toArray, UInt32.ofNat (planSize body + Header.size)⟩ := by
  have hSteps := (finds_measureNodes body).bind
    (f := fun size => checked (size + Header.size)) fun _ => finds_checked _
  unfold ofBody
  refine run_eq_ok_iff (hSteps.congr ?_ rfl (List.append_nil _))
  constructor
  · rintro ⟨⟨hNodes, -⟩, hFits⟩
    exact ⟨hNodes, hFits⟩
  · rintro ⟨hNodes, hFits⟩
    exact ⟨⟨hNodes, by omega⟩, hFits⟩

/-- The total of a table's layout counts the header and all terms. -/
theorem total_ofBody {body : List Node} {layout : Layout} (h : ofBody body = .ok layout) :
    layout.total.toNat = Header.size + planSize body := by
  obtain ⟨⟨-, hFits⟩, rfl⟩ := ofBody_eq_ok_iff.1 h
  unfold maxSize at hFits
  simp only [UInt32.toNat_ofNat']
  omega

/-- The layout of a tree below the top holds its plan. -/
theorem run_measureNode_eq_ok_iff {node : Node} {layout : Layout} :
    run (measureNode node) = .ok layout ↔
      (Encodable node ∧ node.plan.size ≤ maxSize) ∧
        layout = ⟨node.plan.lengths.toArray, UInt32.ofNat node.plan.size⟩ :=
  run_eq_ok_iff (finds_measureNode node)

theorem ofNode_of_encodable {node : Node} (h : Encodable node) (hFits : node.plan.size ≤ maxSize) :
    ofNode node = .ok ⟨node.plan.lengths.toArray, UInt32.ofNat node.plan.size⟩ := by
  -- Only a block would be measured in another way, and no block is encodable.
  have hLayout : ofNode node = run (measureNode node) := by
    cases h <;> rfl
  rw [hLayout]
  exact run_measureNode_eq_ok_iff.2 ⟨⟨h, hFits⟩, rfl⟩

/-! ## Whole trees -/

/-- A whole tree has a layout exactly if all of its terms are encodable and it is not too large. -/
theorem ofNode_eq_ok_iff {node : Node} {layout : Layout} :
    ofNode node = .ok layout ↔
      ((∀ term ∈ node.terms, Encodable term) ∧ node.exactSize ≤ maxSize) ∧
        layout = ⟨(planLengths node.terms).toArray, UInt32.ofNat node.exactSize⟩ := by
  cases node with
  | block header body =>
      show ofBody body = .ok layout ↔ _
      rw [ofBody_eq_ok_iff, Nat.add_comm]
      rfl
  | data bytes =>
      show run (measureNode (.data bytes)) = .ok layout ↔ _
      rw [run_measureNode_eq_ok_iff]
      simp [Node.terms, Node.exactSize, planLengths]
  | object head fixed body =>
      show run (measureNode (.object head fixed body)) = .ok layout ↔ _
      rw [run_measureNode_eq_ok_iff]
      simp [Node.terms, Node.exactSize, planLengths]

/-- The total of a layout is the size of the tree as a natural number. -/
theorem total_ofNode {node : Node} {layout : Layout} (h : ofNode node = .ok layout) :
    layout.total.toNat = node.exactSize := by
  obtain ⟨⟨-, hFits⟩, rfl⟩ := ofNode_eq_ok_iff.1 h
  unfold maxSize at hFits
  simp only [UInt32.toNat_ofNat']
  omega

/-! ## Failures -/

/-- If the measurement fails, the tree is malformed or too large. -/
def Faults (measurement : MeasureM α) : Prop :=
  ∀ (before after : Array PkgLength) (error : EncodeError),
    measurement before = .error error after → error = .invalidTree ∨ error = .sizeOverflow

theorem faults_pure (a : α) : Faults (pure a) := by
  intro before after error h
  cases h

theorem faults_throw {error : EncodeError} (h : error = .invalidTree ∨ error = .sizeOverflow) :
    Faults (throw error : MeasureM α) := by
  intro before after error' hThrow
  cases hThrow
  exact h

theorem Faults.bind {x : MeasureM α} {f : α → MeasureM β} (hFirst : Faults x)
    (hSecond : ∀ a, Faults (f a)) : Faults (x >>= f) := by
  intro before after error h
  change EStateM.bind x f before = _ at h
  unfold EStateM.bind at h
  cases hOutcome : x before with
  | ok a between =>
      rw [hOutcome] at h
      exact hSecond a between after error h
  | error error' between =>
      rw [hOutcome] at h
      cases h
      exact hFirst before _ error hOutcome

theorem faults_checked (size : Nat) : Faults (checked size) := by
  unfold checked
  split
  · exact faults_pure size
  · exact faults_throw (Or.inr rfl)

theorem faults_opcodeSize (head : Head) : Faults (opcodeSize head) := by
  unfold opcodeSize Head.opcodeSize
  split
  next size _ => exact faults_pure size
  next error hError =>
    refine faults_throw (Or.inl ?_)
    split at hError
    · cases hError
    · split at hError
      · cases hError
      · cases hError
        rfl

theorem Faults.packaged {payload : MeasureM Nat} (h : Faults payload) :
    Faults (Layout.packaged payload) := by
  unfold Layout.packaged
  refine Faults.bind (fun _ _ _ hReserve => nomatch hReserve) fun slot => h.bind fun size => ?_
  split
  next length _ => exact Faults.bind (fun _ _ _ hFill => nomatch hFill) fun _ => faults_pure _
  next => exact faults_throw (Or.inr rfl)

private theorem faults_measureNodes_of_each {nodes : List Node}
    (hEach : ∀ node ∈ nodes, Faults (measureNode node)) (size : Nat) :
    Faults (measureNodes size nodes) := by
  induction nodes generalizing size with
  | nil =>
      rw [measureNodes]
      exact faults_pure size
  | cons node nodes ih =>
      rw [measureNodes]
      refine (hEach node List.mem_cons_self).bind fun more => ?_
      refine (faults_checked _).bind fun size => ?_
      exact ih (fun other hMem => hEach other (List.mem_cons_of_mem node hMem)) size

theorem faults_measureNode (node : Node) : Faults (measureNode node) := by
  induction node using Node.written_induction with
  | block header body _ =>
      rw [measureNode]
      exact faults_throw (Or.inl rfl)
  | data bytes =>
      rw [measureNode]
      exact faults_checked bytes.size
  | object head fixed body ih =>
      have hArgs := faults_measureNodes_of_each ih 0
      rw [measureNode_object]
      refine (faults_opcodeSize head).bind fun opcode => ?_
      simp only
      split
      · exact hArgs
      · split
        · exact hArgs.packaged.bind fun size => faults_checked _
        · exact hArgs.bind fun size => faults_checked _

theorem error_of_run {measurement : MeasureM Nat} (h : Faults measurement) {error : EncodeError}
    (hRun : run measurement = .error error) : error = .invalidTree ∨ error = .sizeOverflow := by
  unfold run EStateM.run at hRun
  cases hOutcome : measurement #[] with
  | ok found after =>
      rw [hOutcome] at hRun
      cases hRun
  | error error' after =>
      rw [hOutcome] at hRun
      cases hRun
      exact h _ _ _ hOutcome

/-- A table that cannot be measured is malformed or too large. -/
theorem error_of_ofBody {body : List Node} {error : EncodeError}
    (h : ofBody body = .error error) : error = .invalidTree ∨ error = .sizeOverflow := by
  refine error_of_run (Faults.bind ?_ fun size => faults_checked _) h
  exact faults_measureNodes_of_each (fun node _ => faults_measureNode node) 0

end Acpi.Layout
