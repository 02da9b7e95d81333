import Acpi.Proofs.Measure

/-!
# Limits of measuring

Two things can be wrong with a tree.  It can be put together badly, which is a matter of its shape,
or it can be too large, which is a matter of numbers.  This module keeps the two apart.

* `Node.WellBuilt` and `Node.WithinLimits` say what is asked of a tree in either respect.  The
  numbers are natural numbers: `Node.exactSize` has no limit of its own.
* `Node.encodable_iff` splits `Node.Encodable` into its two halves.
* `Layout.avoids_measureNode` traces a failure back to its half: a tree that gives no occasion for
  a cause never fails with it.

Sums are checked one by one while a tree is measured, with all 32 bits taken into account.
`Layout.ofNode_exact` says that this amounts to one comparison at the end: no sum on the way is
refused unless the whole is too large.
-/

namespace Acpi

namespace Node

/-! ## Shape and size -/

/-- A tree below the top that is put together well, whatever its size: no block stands in it, and a
second opcode byte stands exactly where one is due. -/
inductive WellBuilt : Node → Prop
  | data (bytes : ByteArray) : WellBuilt (.data bytes)
  | object (head : Head) (fixed body : List Node)
      (args : ∀ node ∈ head.writtenArgs fixed body, WellBuilt node)
      (paired : head.WellPaired) :
      WellBuilt (.object head fixed body)

/-- A tree below the top in which every length field can count its payload, whatever its shape.  A
block counts for nothing there, so it does not matter what stands in it. -/
inductive PayloadsFit : Node → Prop
  | block (header : Header) (body : List Node) : PayloadsFit (.block header body)
  | data (bytes : ByteArray) : PayloadsFit (.data bytes)
  | object (head : Head) (fixed body : List Node)
      (args : ∀ node ∈ head.writtenArgs fixed body, PayloadsFit node)
      (payload : head.hasLength = true →
        planSize (head.writtenArgs fixed body) ≤ PkgLength.maxPayload) :
      PayloadsFit (.object head fixed body)

/-- A whole tree that is put together well; only its top may be a block. -/
def WellFormed (node : Node) : Prop := ∀ term ∈ node.terms, term.WellBuilt

/-- No payload is too large for its length field, and the whole is not too large for 32 bits. -/
structure WithinLimits (node : Node) : Prop where
  payloads : ∀ term ∈ node.terms, term.PayloadsFit
  size_le : node.exactSize ≤ maxSize

theorem wellBuilt_object_iff {head : Head} {fixed body : List Node} :
    WellBuilt (.object head fixed body) ↔
      (∀ node ∈ head.writtenArgs fixed body, WellBuilt node) ∧ head.WellPaired := by
  constructor
  · intro h
    cases h with
    | object _ _ _ hArgs hPaired => exact ⟨hArgs, hPaired⟩
  · intro h
    exact .object head fixed body h.1 h.2

theorem payloadsFit_object_iff {head : Head} {fixed body : List Node} :
    PayloadsFit (.object head fixed body) ↔
      (∀ node ∈ head.writtenArgs fixed body, PayloadsFit node) ∧
        (head.hasLength = true →
          planSize (head.writtenArgs fixed body) ≤ PkgLength.maxPayload) := by
  constructor
  · intro h
    cases h with
    | object _ _ _ hArgs hPayload => exact ⟨hArgs, hPayload⟩
  · intro h
    exact .object head fixed body h.1 h.2

theorem planSize_writtenArgs_le (head : Head) (fixed body : List Node) :
    planSize (head.writtenArgs fixed body) ≤ (plan (.object head fixed body)).size := by
  rw [plan_object]
  exact Nat.le_add_left _ _

/-- A tree has an encoding if it is well formed and its payloads fit, and only then. -/
theorem encodable_iff (node : Node) : Encodable node ↔ WellBuilt node ∧ PayloadsFit node := by
  induction node using written_induction with
  | block header body _ =>
      constructor
      · intro h
        cases h
      · rintro ⟨h, -⟩
        cases h
  | data bytes => exact ⟨fun _ => ⟨.data bytes, .data bytes⟩, fun _ => .data bytes⟩
  | object head fixed body ih =>
      rw [encodable_object_iff, wellBuilt_object_iff, payloadsFit_object_iff,
        PkgLength.isSome_ofPayload?_iff]
      constructor
      · intro h
        obtain ⟨hArgs, hPaired, hPayload⟩ := h
        exact ⟨⟨fun node hMem => ((ih node hMem).1 (hArgs node hMem)).1, hPaired⟩,
          fun node hMem => ((ih node hMem).1 (hArgs node hMem)).2, hPayload⟩
      · intro h
        obtain ⟨⟨hForm, hPaired⟩, hFit, hPayload⟩ := h
        exact ⟨fun node hMem => (ih node hMem).2 ⟨hForm node hMem, hFit node hMem⟩, hPaired,
          hPayload⟩

theorem wellFormed_and_withinLimits_iff (node : Node) :
    node.WellFormed ∧ node.WithinLimits ↔
      (∀ term ∈ node.terms, Encodable term) ∧ node.exactSize ≤ maxSize := by
  constructor
  · intro h
    obtain ⟨hForm, hPayloads, hSize⟩ := h
    exact ⟨fun term hMem => (encodable_iff term).2 ⟨hForm term hMem, hPayloads term hMem⟩, hSize⟩
  · intro h
    obtain ⟨hEach, hSize⟩ := h
    exact ⟨fun term hMem => ((encodable_iff term).1 (hEach term hMem)).1,
      fun term hMem => ((encodable_iff term).1 (hEach term hMem)).2, hSize⟩

end Node

namespace Layout

open Node (Encodable WellBuilt PayloadsFit WellFormed WithinLimits planSize planLengths)

variable {α β : Type} {cause : EncodeError}

/-! ## Causes that do not arise -/

/-- The measurement never fails with this cause. -/
def Avoids (cause : EncodeError) (measurement : MeasureM α) : Prop :=
  ∀ before after, measurement before ≠ .error cause after

/-- What comes second need only avoid the cause for what the first can find. -/
theorem Avoids.bind {x : MeasureM α} {f : α → MeasureM β} (hFirst : Avoids cause x)
    (hSecond : ∀ a before after, x before = .ok a after → Avoids cause (f a)) :
    Avoids cause (x >>= f) := by
  intro before after h
  change EStateM.bind x f before = _ at h
  unfold EStateM.bind at h
  cases hOutcome : x before with
  | ok a between =>
      rw [hOutcome] at h
      exact hSecond a before between hOutcome between after h
  | error error between =>
      rw [hOutcome] at h
      cases h
      exact hFirst before _ hOutcome

theorem avoids_pure (a : α) : Avoids cause (pure a : MeasureM α) := by
  intro before after h
  cases h

theorem avoids_throw {error : EncodeError} (h : error ≠ cause) :
    Avoids cause (throw error : MeasureM α) := by
  intro before after hThrow
  cases hThrow
  exact h rfl

theorem avoids_checked {size : Nat} (h : cause = .sizeOverflow → size ≤ maxSize) :
    Avoids cause (checked size) := by
  unfold checked
  by_cases hFits : size ≤ maxSize
  · rw [if_pos hFits]
    exact avoids_pure size
  · rw [if_neg hFits]
    exact avoids_throw fun hCause => hFits (h hCause.symm)

theorem avoids_opcodeSize {head : Head} (h : cause = .invalidTree → head.WellPaired) :
    Avoids cause (opcodeSize head) := by
  unfold opcodeSize
  by_cases hPaired : head.WellPaired
  · rw [Head.opcodeSize_eq_ok_iff.2 ⟨hPaired, rfl⟩]
    exact avoids_pure _
  · rw [Head.opcodeSize_of_not_wellPaired hPaired]
    exact avoids_throw fun hCause => hPaired (h hCause.symm)

theorem Avoids.packaged {payload : MeasureM Nat} (h : Avoids cause payload)
    (hLength : cause = .sizeOverflow → ∀ size before after, payload before = .ok size after →
      (PkgLength.search? (UInt32.ofNat size) PkgLength.widths).isSome) :
    Avoids cause (Layout.packaged payload) := by
  unfold Layout.packaged
  refine Avoids.bind (fun _ _ hReserve => nomatch hReserve) fun slot _ _ _ => ?_
  refine h.bind fun size before after hSize => ?_
  split
  next length _ =>
    exact Avoids.bind (fun _ _ hFill => nomatch hFill) fun _ _ _ _ => avoids_pure length.value
  next hNone =>
    refine avoids_throw fun hCause => ?_
    have hSome := hLength hCause.symm size before after hSize
    rw [hNone] at hSome
    cases hSome

/-- A list of trees, none of which fails with the cause.  The sums cannot do so either, if all of
them together fit. -/
theorem avoids_measureNodes {nodes : List Node}
    (hEach : ∀ node ∈ nodes, Avoids cause (measureNode node)) {size : Nat}
    (hSize : cause = .sizeOverflow → size + planSize nodes ≤ maxSize) :
    Avoids cause (measureNodes size nodes) := by
  induction nodes generalizing size with
  | nil =>
      rw [measureNodes]
      exact avoids_pure size
  | cons node nodes ih =>
      rw [Node.planSize_cons] at hSize
      rw [measureNodes]
      refine (hEach node List.mem_cons_self).bind fun more before after hMore => ?_
      obtain ⟨-, rfl, -⟩ := (finds_measureNode node more before after).1 hMore
      have hSum : cause = .sizeOverflow → size + node.plan.size ≤ maxSize := by
        intro hCause
        have hAll := hSize hCause
        omega
      refine (avoids_checked hSum).bind fun sum before after hFound => ?_
      obtain ⟨-, rfl, -⟩ := (finds_checked _ sum before after).1 hFound
      refine ih (fun other hMem => hEach other (List.mem_cons_of_mem node hMem)) ?_
      intro hCause
      have hAll := hSize hCause
      omega

/-- **Causes of failure.**  A well-formed tree is never called malformed, and a tree within the
limits is never called too large, whatever else may be wrong with it. -/
theorem avoids_measureNode (node : Node) (hForm : cause = .invalidTree → WellBuilt node)
    (hFits : cause = .sizeOverflow → PayloadsFit node ∧ node.plan.size ≤ maxSize) :
    Avoids cause (measureNode node) := by
  induction node using Node.written_induction with
  | block header body _ =>
      rw [measureNode]
      refine avoids_throw fun hCause => ?_
      cases hForm hCause.symm
  | data bytes =>
      rw [measureNode]
      refine avoids_checked fun hCause => ?_
      have hSize := (hFits hCause).2
      rwa [Node.plan_data] at hSize
  | object head fixed body ih =>
      rw [Node.wellBuilt_object_iff] at hForm
      rw [Node.payloadsFit_object_iff] at hFits
      have hPart := Node.planSize_writtenArgs_le head fixed body
      have hArgs : Avoids cause (measureNodes 0 (head.writtenArgs fixed body)) := by
        refine avoids_measureNodes (fun node hMem => ih node hMem ?_ ?_) ?_
        · intro hCause
          exact (hForm hCause).1 node hMem
        · intro hCause
          have hNode := Node.size_le_planSize hMem
          have hSize := (hFits hCause).2
          exact ⟨(hFits hCause).1.1 node hMem, by omega⟩
        · intro hCause
          have hSize := (hFits hCause).2
          omega
      rw [measureNode_object]
      refine (avoids_opcodeSize fun hCause => (hForm hCause).2).bind ?_
      intro opcode before after hOpcode
      obtain ⟨-, rfl, -⟩ := (finds_opcodeSize head opcode before after).1 hOpcode
      simp only
      have hFound := finds_measureNodes (head.writtenArgs fixed body)
      rw [Node.plan_object] at hFits
      -- What remains is to know the sum that is checked last: it is the planned size of the object.
      by_cases hPseudo : head.pseudo = true
      · rw [if_pos hPseudo]
        exact hArgs
      · rw [if_neg hPseudo]
        have hHas := Head.hasLength_of_not_pseudo hPseudo
        by_cases hPackaged : head.packaged = true
        · rw [hPackaged] at hHas
          rw [if_pos hPackaged]
          rw [Node.Plan.ofObject_of_length hHas] at hFits
          refine Avoids.bind (hArgs.packaged ?_) ?_
          · intro hCause size before after hSize
            obtain ⟨⟨-, hPayload⟩, rfl, -⟩ := (hFound size before after).1 hSize
            rw [search?_ofNat hPayload]
            exact PkgLength.isSome_ofPayload?_iff.2 ((hFits hCause).1.2 hHas)
          · intro size before after hSize
            obtain ⟨-, rfl, -⟩ := (hFound.packaged And.right size before after).1 hSize
            refine avoids_checked fun hCause => ?_
            have hWhole := (hFits hCause).2
            simp only at hWhole
            omega
        · rw [eq_false_of_ne_true hPackaged] at hHas
          rw [if_neg hPackaged]
          rw [Node.Plan.ofObject_of_no_length hHas] at hFits
          refine hArgs.bind fun size before after hSize => ?_
          obtain ⟨-, rfl, -⟩ := (hFound size before after).1 hSize
          refine avoids_checked fun hCause => ?_
          have hWhole := (hFits hCause).2
          simp only at hWhole
          omega

/-! ## Whole trees -/

theorem run_ne_error {measurement : MeasureM Nat} (h : Avoids cause measurement) :
    run measurement ≠ .error cause := by
  intro hRun
  unfold run EStateM.run at hRun
  cases hOutcome : measurement #[] with
  | ok found after =>
      rw [hOutcome] at hRun
      cases hRun
  | error error after =>
      rw [hOutcome] at hRun
      cases hRun
      exact h _ _ hOutcome

/-- A whole tree that gives no occasion for a cause does not fail with it. -/
theorem ofNode_ne_error (node : Node) (hForm : cause = .invalidTree → WellFormed node)
    (hFits : cause = .sizeOverflow → WithinLimits node) : ofNode node ≠ .error cause := by
  have hTerm : ∀ term ∈ node.terms,
      (cause = .sizeOverflow → term.plan.size ≤ maxSize) → Avoids cause (measureNode term) := by
    intro term hMem hSize
    refine avoids_measureNode term (fun hCause => hForm hCause term hMem) fun hCause => ?_
    exact ⟨(hFits hCause).payloads term hMem, hSize hCause⟩
  cases node with
  | block header body =>
      have hSum : cause = .sizeOverflow → Header.size + planSize body ≤ maxSize :=
        fun hCause => (hFits hCause).size_le
      refine run_ne_error (Avoids.bind (avoids_measureNodes (fun term hMem => ?_) ?_) ?_)
      · refine hTerm term hMem fun hCause => ?_
        have hPart := Node.size_le_planSize hMem
        have hAll := hSum hCause
        omega
      · intro hCause
        have hAll := hSum hCause
        omega
      · intro size before after hSize
        obtain ⟨-, rfl, -⟩ := (finds_measureNodes body size before after).1 hSize
        refine avoids_checked fun hCause => ?_
        have hAll := hSum hCause
        omega
  | data bytes =>
      exact run_ne_error (hTerm _ List.mem_cons_self fun hCause => (hFits hCause).size_le)
  | object head fixed body =>
      exact run_ne_error (hTerm _ List.mem_cons_self fun hCause => (hFits hCause).size_le)

theorem error_of_ofNode {node : Node} {error : EncodeError} (h : ofNode node = .error error) :
    error = .invalidTree ∨ error = .sizeOverflow := by
  cases node with
  | block header body => exact error_of_ofBody h
  | data bytes => exact error_of_run (faults_measureNode _) h
  | object head fixed body => exact error_of_run (faults_measureNode _) h

/-- **Measuring is exact.**  A tree has a layout if and only if it is well formed and within the
limits, and then the total is its size as a natural number.  A well-formed tree that exceeds a limit
is refused as too large, and a malformed tree within the limits is refused as malformed.  A tree
with both faults is refused for one of them. -/
theorem ofNode_exact (node : Node) :
    ((∃ layout, ofNode node = .ok layout) ↔ WellFormed node ∧ WithinLimits node) ∧
      (∀ layout, ofNode node = .ok layout → layout.total.toNat = node.exactSize) ∧
      (WellFormed node → ¬ WithinLimits node → ofNode node = .error .sizeOverflow) ∧
      (¬ WellFormed node → WithinLimits node → ofNode node = .error .invalidTree) ∧
      (¬ WellFormed node → ¬ WithinLimits node →
        ofNode node = .error .invalidTree ∨ ofNode node = .error .sizeOverflow) := by
  have hOk : (∃ layout, ofNode node = .ok layout) ↔ WellFormed node ∧ WithinLimits node := by
    rw [Node.wellFormed_and_withinLimits_iff]
    constructor
    · intro h
      obtain ⟨layout, hLayout⟩ := h
      exact (ofNode_eq_ok_iff.1 hLayout).1
    · intro h
      exact ⟨_, ofNode_eq_ok_iff.2 ⟨h, rfl⟩⟩
  have hFail : ¬ (WellFormed node ∧ WithinLimits node) →
      ofNode node = .error .invalidTree ∨ ofNode node = .error .sizeOverflow := by
    intro hNot
    cases hLayout : ofNode node with
    | ok layout => exact absurd (hOk.1 ⟨layout, hLayout⟩) hNot
    | error error =>
        rcases error_of_ofNode hLayout with rfl | rfl
        · exact Or.inl rfl
        · exact Or.inr rfl
  refine ⟨hOk, fun layout => total_ofNode, ?_, ?_, ?_⟩
  · intro hForm hLimits
    rcases hFail (fun h => hLimits h.2) with h | h
    · exact absurd h (ofNode_ne_error node (fun _ => hForm) nofun)
    · exact h
  · intro hForm hLimits
    rcases hFail (fun h => hForm h.1) with h | h
    · exact h
    · exact absurd h (ofNode_ne_error node nofun fun _ => hLimits)
  · intro hForm _
    exact hFail fun h => hForm h.1

end Layout

end Acpi
