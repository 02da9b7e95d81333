import Acpi.Proofs.ByteReader
import Acpi.Proofs.Descriptor

/-!
# Reading resource templates

A reader of templates that takes descriptors apart in two steps.  Where a descriptor ends is told by
its tag alone: the low three bits of a small tag, or the 16-bit length behind a large one
(`readFrame`).  Only then its fields are looked at (`ofFields?`).  A template is read up to its last
byte, and its last descriptor must be the end tag (`readTemplate`).

Main result: `readTemplate_template`, that a template gives back its resources in order.
-/

namespace Acpi.Resource

open ByteReader (Takes readAll)

/-! ## The reader -/

/-- A descriptor as it stands: its tag and its fields. -/
abbrev Frame := UInt8 × List UInt8

/-- Takes as many fields as told off the front. -/
def readFields (tag : UInt8) (count : Nat) : ByteReader Frame := fun bytes =>
  if count ≤ bytes.length then some ((tag, bytes.take count), bytes.drop count) else none

/-- Takes a descriptor off the front. -/
def readFrame : ByteReader Frame
  | [] => none
  | tag :: rest =>
      if tag < 0x80 then
        readFields tag (tag % 8).toNat rest
      else if 2 ≤ rest.length then
        readFields tag (LittleEndian.decode (rest.take 2)) (rest.drop 2)
      else
        none

/-- Whether the given bit of a byte is set. -/
def flag (byte : UInt8) (position : Nat) : Bool := byte.toNat.testBit position

/-- The word that two bytes make. -/
def wordOf (bytes : List UInt8) : UInt16 := UInt16.ofNat (LittleEndian.decode bytes)

/-- The double word that four bytes make. -/
def dwordOf (bytes : List UInt8) : UInt32 := UInt32.ofNat (LittleEndian.decode bytes)

/-- The position of the only bit that is set. -/
def position? (mask : Nat) : Option UInt8 :=
  ((List.range 16).find? fun position => mask == 1 <<< position).map UInt8.ofNat

/-- The resource that a tag and its fields stand for. -/
def ofFields? : UInt8 → List UInt8 → Option Resource
  | 0x47, [flags, a, b, c, d, alignment, length] =>
      some (.io (flag flags 0) (wordOf [a, b]) (wordOf [c, d]) alignment length)
  | 0x4B, [a, b, length] => some (.fixedIo (wordOf [a, b]) length)
  | 0x23, [low, high, flags] => do
      let line ← position? (LittleEndian.decode [low, high])
      return .irq line ⟨flag flags 0, flag flags 3, flag flags 4⟩
  | 0x2A, [mask, flags] => do
      let channel ← position? mask.toNat
      return .dma channel (flag flags 2)
  | 0x85, [flags, a, b, c, d, e, f, g, h, i, j, k, l, m, n, o, p] =>
      some (.memory32 (flag flags 0) (dwordOf [a, b, c, d]) (dwordOf [e, f, g, h])
        (dwordOf [i, j, k, l]) (dwordOf [m, n, o, p]))
  | 0x86, [flags, a, b, c, d, e, f, g, h] =>
      some (.fixedMemory32 (flag flags 0) (dwordOf [a, b, c, d]) (dwordOf [e, f, g, h]))
  | 0x89, [flags, 1, a, b, c, d] =>
      some (.extendedIrq (dwordOf [a, b, c, d]) ⟨flag flags 1, flag flags 2, flag flags 3⟩)
  | _, _ => none

/-- Reads a whole template: descriptors up to the last byte, the last of them the end tag. -/
def readTemplate (bytes : List UInt8) : Option (List Resource) := do
  let frames ← readAll readFrame bytes
  if frames.getLast? = some (0x79, [0x00]) then
    frames.dropLast.mapM fun frame => ofFields? frame.1 frame.2
  else
    none

/-! ## Where a descriptor ends -/

theorem takes_readFields (tag : UInt8) (fields : List UInt8) :
    Takes (readFields tag fields.length) fields (tag, fields) := by
  intro rest
  rw [readFields, if_pos (by simp), List.take_left, List.drop_left]

theorem takes_small {tag : UInt8} {fields bytes : List UInt8} (hBytes : bytes = tag :: fields)
    (hSmall : tag < 0x80) (hLength : fields.length = (tag % 8).toNat) :
    Takes readFrame bytes (tag, fields) := by
  intro rest
  rw [hBytes, List.cons_append, readFrame, if_pos hSmall, ← hLength, takes_readFields]

theorem takes_large {tag : UInt8} {fields : List UInt8} (hLarge : ¬ tag < 0x80)
    (hLength : fields.length < 65536) : Takes readFrame (large tag fields) (tag, fields) := by
  intro rest
  have hField := LittleEndian.length_encode 2 fields.length
  have hDecode : LittleEndian.decode (LittleEndian.encode 2 fields.length) = fields.length :=
    LittleEndian.decode_encode_of_lt hLength
  have hRoom : 2 ≤ (LittleEndian.encode 2 fields.length ++ (fields ++ rest)).length := by
    rw [List.length_append]
    omega
  rw [large, List.cons_append, List.cons_append, List.append_assoc, readFrame, if_neg hLarge,
    if_pos hRoom, List.take_left' hField, List.drop_left' hField, hDecode, takes_readFields]

/-! ## What the fields hold -/

theorem wordOf_word (w : UInt16) : wordOf (word w) = w := by
  rw [wordOf, word, LittleEndian.decode_encode_of_lt w.toNat_lt, UInt16.ofNat_toNat]

theorem dwordOf_dword (w : UInt32) : dwordOf (dword w) = w := by
  rw [dwordOf, dword, LittleEndian.decode_encode_of_lt w.toNat_lt, UInt32.ofNat_toNat]

theorem position?_single :
    ∀ position < 16, position? (single position) = some (UInt8.ofNat position) := by
  decide

theorem decode_single : ∀ position < 16,
    LittleEndian.decode (LittleEndian.encode 2 (single position)) = single position := by
  decide

theorem toNat_single : ∀ position < 8, (UInt8.ofNat (single position)).toNat = single position := by
  decide

/-- A resource in range is told by the tag and the fields of its descriptor. -/
theorem exists_frame {resource : Resource} (h : resource.inRange = true) :
    ∃ frame : Frame, Takes readFrame resource.bytes frame ∧
      ofFields? frame.1 frame.2 = some resource := by
  cases resource with
  | io decode16 min max alignment length =>
      refine ⟨(0x47, [UInt8.ofNat (bit decode16 0)] ++ word min ++ word max ++
        [alignment, length]), takes_small rfl (by decide) ?_, ?_⟩
      · simp [length_word]
      · show some (Resource.io (flag (UInt8.ofNat (bit decode16 0)) 0) (wordOf (word min))
          (wordOf (word max)) alignment length) = _
        rw [wordOf_word, wordOf_word]
        cases decode16 <;> rfl
  | fixedIo base length =>
      refine ⟨(0x4B, word base ++ [length]), takes_small rfl (by decide) ?_, ?_⟩
      · simp [length_word]
      · show some (Resource.fixedIo (wordOf (word base)) length) = _
        rw [wordOf_word]
  | irq line signalling =>
      have hLine : line.toNat < 16 :=
        Nat.lt_succ_of_le (UInt8.le_iff_toNat_le.1 (of_decide_eq_true h))
      refine ⟨(0x23, LittleEndian.encode 2 (single line.toNat) ++ [UInt8.ofNat
        (bit signalling.edgeTriggered 0 + bit signalling.activeLow 3 + bit signalling.shared 4)]),
        takes_small rfl (by decide) ?_, ?_⟩
      · simp
      · show (position? (LittleEndian.decode
          (LittleEndian.encode 2 (single line.toNat)))).bind _ = _
        rw [decode_single _ hLine, position?_single _ hLine, UInt8.ofNat_toNat]
        obtain ⟨edgeTriggered, activeLow, shared⟩ := signalling
        cases edgeTriggered <;> cases activeLow <;> cases shared <;> rfl
  | dma channel busMaster =>
      have hChannel : channel.toNat < 8 :=
        Nat.lt_succ_of_le (UInt8.le_iff_toNat_le.1 (of_decide_eq_true h))
      refine ⟨(0x2A, [UInt8.ofNat (single channel.toNat), UInt8.ofNat (bit busMaster 2)]),
        takes_small rfl (by decide) (by simp), ?_⟩
      show (position? (UInt8.ofNat (single channel.toNat)).toNat).bind _ = _
      rw [toNat_single _ hChannel, position?_single _ (by omega), UInt8.ofNat_toNat]
      cases busMaster <;> rfl
  | memory32 writable min max alignment length =>
      refine ⟨(0x85, [UInt8.ofNat (bit writable 0)] ++ dword min ++ dword max ++ dword alignment ++
        dword length), takes_large (by decide) ?_, ?_⟩
      · simp [length_dword]
      · show some (Resource.memory32 (flag (UInt8.ofNat (bit writable 0)) 0) (dwordOf (dword min))
          (dwordOf (dword max)) (dwordOf (dword alignment)) (dwordOf (dword length))) = _
        rw [dwordOf_dword, dwordOf_dword, dwordOf_dword, dwordOf_dword]
        cases writable <;> rfl
  | fixedMemory32 writable base length =>
      refine ⟨(0x86, [UInt8.ofNat (bit writable 0)] ++ dword base ++ dword length),
        takes_large (by decide) ?_, ?_⟩
      · simp [length_dword]
      · show some (Resource.fixedMemory32 (flag (UInt8.ofNat (bit writable 0)) 0)
          (dwordOf (dword base)) (dwordOf (dword length))) = _
        rw [dwordOf_dword, dwordOf_dword]
        cases writable <;> rfl
  | extendedIrq gsi signalling =>
      refine ⟨(0x89, [UInt8.ofNat (1 + bit signalling.edgeTriggered 1 +
        bit signalling.activeLow 2 + bit signalling.shared 3), 1] ++ dword gsi),
        takes_large (by decide) ?_, ?_⟩
      · simp [length_dword]
      · show some (Resource.extendedIrq (dwordOf (dword gsi)) _) = _
        rw [dwordOf_dword]
        obtain ⟨edgeTriggered, activeLow, shared⟩ := signalling
        cases edgeTriggered <;> cases activeLow <;> cases shared <;> rfl

/-! ## Templates -/

/-- Resources in range are told by the frames of their descriptors, one for each. -/
theorem exists_frames {resources : List Resource}
    (h : ∀ resource ∈ resources, resource.inRange = true) :
    ∃ frames : List Frame,
      List.Forall₂ (Takes readFrame) (resources.map Resource.bytes) frames ∧
        frames.mapM (fun frame => ofFields? frame.1 frame.2) = some resources := by
  induction resources with
  | nil => exact ⟨[], .nil, rfl⟩
  | cons resource resources ih =>
      obtain ⟨hFirst, hRest⟩ := List.forall_mem_cons.1 h
      obtain ⟨frame, hFrame, hField⟩ := exists_frame hFirst
      obtain ⟨frames, hFrames, hFields⟩ := ih hRest
      refine ⟨frame :: frames, .cons hFrame hFrames, ?_⟩
      rw [List.mapM_cons, hField, hFields]
      rfl

/-- Behind the descriptors the end tag is read as one more frame. -/
theorem readAll_closed {resources : List Resource} {frames : List Frame}
    (h : List.Forall₂ (Takes readFrame) (resources.map Resource.bytes) frames) :
    readAll readFrame (resources.flatMap Resource.bytes ++ endTag) =
      some (frames ++ [(0x79, [0x00])]) := by
  have hEnd : Takes readFrame endTag (0x79, [0x00]) := takes_small rfl (by decide) (by decide)
  have hFlatten := ByteReader.readAll_flatten rfl (List.rel_append h (.cons hEnd .nil))
  rwa [List.flatten_append, ← List.flatMap_def, List.flatten_singleton] at hFlatten

/-- A template that can be built is read as its resources in order. -/
theorem readTemplate_template {resources : List Resource} {bytes : List UInt8}
    (h : template resources = .ok bytes) : readTemplate bytes = some resources := by
  obtain ⟨hRange, rfl⟩ := template_eq_ok_iff.1 h
  obtain ⟨frames, hFrames, hFields⟩ := exists_frames hRange
  unfold readTemplate
  rw [readAll_closed hFrames]
  show (if (frames ++ [(0x79, [0x00])]).getLast? = some (0x79, [0x00]) then _ else none) = _
  rw [List.getLast?_concat, if_pos rfl, List.dropLast_concat, hFields]

/-- A template that holds the value of the end tag among its fields. -/
example : readTemplate [0x4B, 0x79, 0x00, 0x08, 0x79, 0x00] = some [.fixedIo 0x79 8] := by
  decide +kernel

end Acpi.Resource
