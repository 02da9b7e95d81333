import Acpi.Resource

/-!
# The bytes of resource descriptors

A descriptor is appended field by field, with its length written down by hand.  `Resource.bytes`
says what comes of it in one piece: the tag, for a large descriptor the length of its fields, and
the fields.  A call appends just these bytes, whatever the output held before (`appends_emit`), or
it is refused and appends nothing (`emit_of_refused`).

So a template can be built exactly if no resource is refused (`template_eq_ok_iff`,
`template_of_refused`).
-/

namespace Acpi.Resource

/-! ## What a descriptor is -/

/-- A large descriptor: its tag, the length of its fields and the fields. -/
def large (tag : UInt8) (fields : List UInt8) : List UInt8 :=
  tag :: LittleEndian.encode 2 fields.length ++ fields

/-- Whether a descriptor can hold the resource. -/
def inRange : Resource → Bool
  | .irq line _ => line ≤ 15
  | .dma channel _ => channel ≤ 7
  | _ => true

/-- The bytes of a descriptor, for a resource in range. -/
def bytes : Resource → List UInt8
  | .io decode16 min max alignment length =>
      [0x47, UInt8.ofNat (bit decode16 0)] ++ word min ++ word max ++ [alignment, length]
  | .fixedIo base length => [0x4B] ++ word base ++ [length]
  | .irq line s =>
      [0x23] ++ LittleEndian.encode 2 (single line.toNat) ++
        [UInt8.ofNat (bit s.edgeTriggered 0 + bit s.activeLow 3 + bit s.shared 4)]
  | .dma channel busMaster =>
      [0x2A, UInt8.ofNat (single channel.toNat), UInt8.ofNat (bit busMaster 2)]
  | .memory32 writable min max alignment length =>
      large 0x85 ([UInt8.ofNat (bit writable 0)] ++ dword min ++ dword max ++ dword alignment ++
        dword length)
  | .fixedMemory32 writable base length =>
      large 0x86 ([UInt8.ofNat (bit writable 0)] ++ dword base ++ dword length)
  | .extendedIrq gsi s =>
      large 0x89 ([UInt8.ofNat (1 + bit s.edgeTriggered 1 + bit s.activeLow 2 + bit s.shared 3), 1]
        ++ dword gsi)

theorem length_word (w : UInt16) : (word w).length = 2 := LittleEndian.length_encode ..

theorem length_dword (w : UInt32) : (dword w).length = 4 := LittleEndian.length_encode ..

/-! ## One call -/

/-- The action succeeds and appends exactly these bytes, whatever the output holds. -/
def Appends (action : OutputM Unit) (bytes : List UInt8) : Prop :=
  ∀ out, action.run out = .ok () (out ++ bytes)

theorem appends_push (bytes : List UInt8) : Appends (push bytes) bytes := fun _ => rfl

theorem Appends.bind {first second : OutputM Unit} {bytes more : List UInt8}
    (h : Appends first bytes) (h' : Appends second more) :
    Appends (do first; second) (bytes ++ more) := by
  intro out
  show EStateM.bind first (fun _ => second) out = _
  have hFirst : first out = .ok () (out ++ bytes) := h out
  have hSecond : second (out ++ bytes) = .ok () (out ++ bytes ++ more) := h' _
  rw [EStateM.bind, hFirst]
  simp only [hSecond, List.append_assoc]

theorem Appends.congr {action : OutputM Unit} {bytes bytes' : List UInt8} (h : Appends action bytes)
    (hSame : bytes = bytes') : Appends action bytes' := hSame ▸ h

theorem appends_ensure {holds : Bool} (h : holds = true) : Appends (ensure holds) [] := by
  intro out
  rw [ensure, if_pos h, List.append_nil]
  rfl

theorem appends_forM {α : Type} {each : α → OutputM Unit} {bytes : α → List UInt8}
    {items : List α} (h : ∀ item ∈ items, Appends (each item) (bytes item)) :
    Appends (items.forM each) (items.flatMap bytes) := by
  induction items with
  | nil =>
      intro out
      rw [List.flatMap_nil, List.append_nil]
      rfl
  | cons item items ih =>
      obtain ⟨hItem, hItems⟩ := List.forall_mem_cons.1 h
      exact hItem.bind (ih hItems)

theorem appends_pushLarge (tag : UInt8) (length : UInt16) :
    Appends (pushLarge tag length) (tag :: word length) :=
  (appends_push [tag]).bind (appends_push (word length))

/-- What stands in front of the fields of a large descriptor is its tag and their length. -/
theorem large_eq (length : UInt16) {tag : UInt8} {fields : List UInt8}
    (h : fields.length = length.toNat) : large tag fields = tag :: word length ++ fields := by
  rw [large, h, word]

/-- For a resource in range the fields make up its descriptor. -/
theorem appends_emit {resource : Resource} (h : resource.inRange = true) :
    Appends resource.emit resource.bytes := by
  cases resource with
  | io decode16 min max alignment length =>
      refine ((appends_push _).bind ((appends_push _).bind ((appends_push _).bind
        (appends_push _)))).congr ?_
      simp [bytes]
  | fixedIo base length =>
      refine ((appends_push _).bind ((appends_push _).bind (appends_push _))).congr ?_
      simp [bytes]
  | irq line signalling =>
      refine ((appends_ensure h).bind ((appends_push _).bind ((appends_push _).bind
        (appends_push _)))).congr ?_
      simp [bytes]
  | dma channel busMaster =>
      refine ((appends_ensure h).bind (appends_push _)).congr ?_
      simp [bytes]
  | memory32 writable min max alignment length =>
      refine ((appends_pushLarge _ _).bind ((appends_push _).bind
        (appends_forM fun value _ => appends_push (dword value)))).congr ?_
      rw [bytes, large_eq 17 (by simp [length_dword])]
      simp
  | fixedMemory32 writable base length =>
      refine ((appends_pushLarge _ _).bind ((appends_push _).bind ((appends_push _).bind
        (appends_push _)))).congr ?_
      rw [bytes, large_eq 9 (by simp [length_dword])]
      simp
  | extendedIrq gsi signalling =>
      refine ((appends_pushLarge _ _).bind ((appends_push _).bind (appends_push _))).congr ?_
      rw [bytes, large_eq 6 (by simp [length_dword])]

/-- The resources that no descriptor can hold: an interrupt line above 15 and a channel above 7. -/
def Refused : Resource → Prop
  | .irq line _ => 15 < line.toNat
  | .dma channel _ => 7 < channel.toNat
  | _ => False

theorem refused_iff (resource : Resource) : resource.Refused ↔ resource.inRange = false := by
  cases resource <;> simp [Refused, inRange, UInt8.lt_iff_toNat_lt]

theorem inRange_iff_not_refused (resource : Resource) :
    resource.inRange = true ↔ ¬ resource.Refused := by
  rw [refused_iff, Bool.not_eq_false]

/-- A check that fails ends the call before anything has been written. -/
theorem emit_of_refused {resource : Resource} (h : resource.Refused) (out : List UInt8) :
    resource.emit.run out = .error .invalidResource out := by
  have hRange := (refused_iff resource).1 h
  have hCheck : ∀ next : OutputM Unit,
      EStateM.run (do ensure resource.inRange; next) out = .error .invalidResource out := by
    rw [hRange]
    exact fun _ => rfl
  cases resource with
  | irq line signalling => exact hCheck _
  | dma channel busMaster => exact hCheck _
  | io | fixedIo | memory32 | fixedMemory32 | extendedIrq => cases h

theorem emit_of_not_refused {resource : Resource} (h : ¬ resource.Refused) (out : List UInt8) :
    resource.emit.run out = .ok () (out ++ resource.bytes) :=
  appends_emit ((inRange_iff_not_refused resource).2 h) out

/-! ## Templates -/

/-- Resources in range are written one behind the other, and then the end tag. -/
theorem template_of_inRange {resources : List Resource}
    (h : ∀ resource ∈ resources, resource.inRange = true) :
    template resources = .ok (resources.flatMap bytes ++ endTag) := by
  have hRun := (appends_forM fun resource hMem => appends_emit (h resource hMem)).bind
    (appends_push endTag)
  rw [template, emitTemplate, hRun]
  rfl

/-- The first resource that no descriptor can hold ends the run. -/
theorem forM_emit_of_refused {resources : List Resource}
    (h : ∃ resource ∈ resources, resource.Refused) (out : List UInt8) :
    ∃ kept, resources.forM emit out = .error .invalidResource kept := by
  induction resources generalizing out with
  | nil =>
      obtain ⟨_, hMem, -⟩ := h
      cases hMem
  | cons resource resources ih =>
      show ∃ kept, EStateM.bind resource.emit (fun _ => resources.forM emit) out = _
      unfold EStateM.bind
      by_cases hRefused : resource.Refused
      · have hFirst : resource.emit out = _ := emit_of_refused hRefused out
        exact ⟨out, by rw [hFirst]⟩
      · have hFirst : resource.emit out = _ := emit_of_not_refused hRefused out
        obtain ⟨other, hMem, hOther⟩ := h
        rcases List.mem_cons.1 hMem with rfl | hMem
        · exact absurd hOther hRefused
        · rw [hFirst]
          exact ih ⟨other, hMem, hOther⟩ _

/-- One resource that no descriptor can hold spoils the template. -/
theorem template_of_refused {resources : List Resource}
    (h : ∃ resource ∈ resources, resource.Refused) :
    template resources = .error .invalidResource := by
  obtain ⟨kept, hRun⟩ := forM_emit_of_refused h []
  have hTemplate : (emitTemplate resources).run [] = .error .invalidResource kept := by
    show EStateM.bind (resources.forM emit) (fun _ => push endTag) [] = _
    rw [EStateM.bind, hRun]
  rw [template, hTemplate]

/-- A template can be built if every resource is in range: it holds their descriptors in order and
then the end tag. -/
theorem template_eq_ok_iff {resources : List Resource} {bytes : List UInt8} :
    template resources = .ok bytes ↔
      (∀ resource ∈ resources, resource.inRange = true) ∧
        bytes = resources.flatMap Resource.bytes ++ endTag := by
  by_cases hRefused : ∃ resource ∈ resources, resource.Refused
  · obtain ⟨resource, hMem, hResource⟩ := hRefused
    rw [template_of_refused ⟨resource, hMem, hResource⟩]
    constructor
    · intro h
      cases h
    · intro h
      exact absurd hResource ((inRange_iff_not_refused resource).1 (h.1 resource hMem))
  · have hRange : ∀ resource ∈ resources, resource.inRange = true := by
      intro resource hMem
      exact (inRange_iff_not_refused resource).2 fun h => hRefused ⟨resource, hMem, h⟩
    rw [template_of_inRange hRange, Except.ok.injEq, and_iff_right hRange]
    exact eq_comm

end Acpi.Resource
