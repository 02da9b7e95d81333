import Acpi.Proofs.ResourceTemplate

/-!
# Writing resources one after the other

Descriptors are appended to one output by call after call, and a call that fails does not end the
run.  A call appends a whole descriptor or nothing (`appends_emit`, `emit_of_refused`), so what a
run appends is the descriptors of the resources in range, in order, whatever the output held before
(`emitAll_eq`).  A reader that takes the end of each descriptor from its tag alone cuts this where
one call ended and the next began.

Main result: `run_reads_back`.
-/

namespace Acpi.Resource

open ByteReader (Takes readAll)

/-! ## A run of calls -/

/-- What the output holds behind a call, whether it failed or not. -/
def outputOf : EStateM.Result TermError (List UInt8) Unit → List UInt8
  | .ok _ out => out
  | .error _ out => out

/-- Calls in order on one output; a call is made whatever became of those before. -/
def emitAll (resources : List Resource) (out : List UInt8) : List UInt8 :=
  resources.foldl (fun out resource => outputOf (resource.emit.run out)) out

/-- What the resources in range are written as. -/
def descriptors (resources : List Resource) : List UInt8 :=
  (resources.filter inRange).flatMap Resource.bytes

/-- A run appends the descriptors of the resources in range. -/
theorem emitAll_eq (resources : List Resource) (out : List UInt8) :
    emitAll resources out = out ++ descriptors resources := by
  induction resources generalizing out with
  | nil => exact (List.append_nil out).symm
  | cons resource resources ih =>
      show emitAll resources (outputOf (resource.emit.run out)) = _
      rw [ih]
      unfold descriptors
      by_cases hRange : resource.inRange = true
      · rw [appends_emit hRange, List.filter_cons_of_pos hRange, List.flatMap_cons]
        exact List.append_assoc ..
      · have hRefused := (refused_iff resource).2 (eq_false_of_ne_true hRange)
        rw [emit_of_refused hRefused, List.filter_cons_of_neg hRange]
        rfl

/-! ## Reading back -/

/-- Takes the bytes of a descriptor off the front, as many as its tag tells. -/
def readPiece : ByteReader (List UInt8) := fun bytes =>
  (readFrame bytes).map fun (_, rest) => (bytes.take (bytes.length - rest.length), rest)

theorem takes_readPiece {piece : List UInt8} {frame : Frame} (h : Takes readFrame piece frame) :
    Takes readPiece piece piece := by
  intro rest
  rw [readPiece, h]
  show some ((piece ++ rest).take ((piece ++ rest).length - rest.length), rest) = some (piece, rest)
  rw [List.length_append, Nat.add_sub_cancel, List.take_left]

theorem takes_readPieces {pieces : List (List UInt8)} {frames : List Frame}
    (h : List.Forall₂ (Takes readFrame) pieces frames) :
    List.Forall₂ (Takes readPiece) pieces pieces := by
  induction h with
  | nil => exact .nil
  | cons hPiece _ ih => exact .cons (takes_readPiece hPiece) ih

/-- Frames that stand for resources are not end tags. -/
theorem tag_ne_of_mapM {frames : List Frame} {resources : List Resource}
    (h : frames.mapM (fun frame => ofFields? frame.1 frame.2) = some resources) :
    ∀ frame ∈ frames, frame.1 ≠ 0x79 := by
  induction frames generalizing resources with
  | nil => exact fun _ hMem => absurd hMem List.not_mem_nil
  | cons frame frames ih =>
      rw [List.mapM_cons] at h
      obtain ⟨resource, hFirst, h⟩ := Option.bind_eq_some_iff.1 h
      obtain ⟨others, hOthers, -⟩ := Option.bind_eq_some_iff.1 h
      rw [List.forall_mem_cons]
      refine ⟨fun hTag => ?_, ih hOthers⟩
      rw [hTag] at hFirst
      cases hFirst

/-! ## Templates -/

theorem template_eq_ok_iff_refused {resources : List Resource} {bytes : List UInt8} :
    template resources = .ok bytes ↔
      (∀ resource ∈ resources, ¬ resource.Refused) ∧ bytes = descriptors resources ++ endTag := by
  rw [template_eq_ok_iff]
  simp only [← inRange_iff_not_refused]
  refine and_congr_right fun hAll => ?_
  rw [descriptors, List.filter_eq_self.2 hAll]

/-- What a run over the resources has written, and the frames that a reader finds in it. -/
structure ReadsBack (resources : List Resource) (written : List UInt8) (frames : List Frame) :
    Prop where
  appended : ∀ before, emitAll resources before = before ++ written
  pieces : readAll readPiece written = some ((resources.filter inRange).map Resource.bytes)
  frames_eq : readAll readFrame written = some frames
  fields : frames.mapM (fun frame => ofFields? frame.1 frame.2) = some (resources.filter inRange)
  template_iff : ∀ bytes, template resources = .ok bytes ↔
    (∀ resource ∈ resources, ¬ resource.Refused) ∧ bytes = written ++ [0x79, 0x00]
  template_error : (∃ resource ∈ resources, resource.Refused) →
    template resources = .error .invalidResource
  closed : readAll readFrame (written ++ [0x79, 0x00]) = some (frames ++ [(0x79, [0x00])])
  end_last : ∀ frame ∈ frames, frame.1 ≠ 0x79

/-- **Runs of resources read back.**  A call fails exactly for an interrupt line above 15 or a
channel above 7, and then leaves the output as it was.  What a run of calls appends does not depend
on what the output held; read by tags and lengths alone it falls apart into the descriptors of the
resources in range, and their fields give these resources back in order.  A template is what is
appended and an end tag, unless a resource is refused, and no end tag is met before its end. -/
theorem run_reads_back (resources : List Resource) :
    (∀ (resource : Resource) (out : List UInt8),
        (resource.Refused → resource.emit.run out = .error .invalidResource out) ∧
          (¬ resource.Refused → resource.emit.run out = .ok () (out ++ resource.bytes))) ∧
      ∃ written frames, ReadsBack resources written frames := by
  refine ⟨fun resource out => ⟨fun h => emit_of_refused h out, fun h => emit_of_not_refused h out⟩,
    descriptors resources, ?_⟩
  have hRange : ∀ resource ∈ resources.filter inRange, resource.inRange = true :=
    fun _ hMem => (List.mem_filter.1 hMem).2
  obtain ⟨frames, hFrames, hFields⟩ := exists_frames hRange
  have hFlatten : descriptors resources =
      ((resources.filter inRange).map Resource.bytes).flatten := List.flatMap_def
  exact ⟨frames, {
    appended := emitAll_eq resources
    pieces := by
      rw [hFlatten]
      exact ByteReader.readAll_flatten rfl (takes_readPieces hFrames)
    frames_eq := by
      rw [hFlatten]
      exact ByteReader.readAll_flatten rfl hFrames
    fields := hFields
    template_iff := fun _ => template_eq_ok_iff_refused
    template_error := template_of_refused
    closed := readAll_closed hFrames
    end_last := tag_ne_of_mapM hFields }⟩

/-- A call that fails between two others leaves no trace. -/
example : emitAll [.fixedIo 0x79 8, .irq 16 ⟨true, false, false⟩, .dma 1 true] [0xAA] =
    [0xAA, 0x4B, 0x79, 0x00, 0x08, 0x2A, 0x02, 0x04] := by
  decide

end Acpi.Resource
