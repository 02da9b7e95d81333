import Acpi.Bytes
import Acpi.Proofs.Header
import Acpi.Proofs.Measure
import Acpi.Proofs.PkgLength
import Acpi.Proofs.Script
import Acpi.Proofs.StreamRun

/-!
# Writing with every index checked

A writer relies on the bound in the type of streams, on the widths of length fields and on the
places of the fields of a header; nothing in it looks whether an index is in range.
`CheckedWriter` does: it works on a `Cursor`, which has no bound, and checks every subtraction,
every slice and every copy.  A check that fails ends the run with `none`.

A checked computation agrees with a plain one if, on every state of the plain one, no check fails
and the result is the same (`Checked.Agrees`).  Agreement passes on to sequences
(`Checked.Agrees.andThen`), so what is shown for single orders (`CheckedWriter.agrees_obey`) holds
for scripts (`CheckedWriter.agrees_obeyAll`).

The length fields must be such as measuring finds (`PkgLength.Fits`): the array in which a field is
put together has four bytes.
-/

namespace Acpi

/-! ## Checked computations -/

/-- A computation with checks: `none` if one of them fails. -/
abbrev Checked (σ : Type) := σ → Option (EStateM.Result EncodeError σ Unit)

/-- The same result with another view of the state. -/
def viewResult {σ τ : Type} (view : σ → τ) :
    EStateM.Result EncodeError σ Unit → EStateM.Result EncodeError τ Unit
  | .ok _ state => .ok () (view state)
  | .error error state => .error error (view state)

theorem viewResult_eq_ok {σ τ : Type} {view : σ → τ} {result : EStateM.Result EncodeError σ Unit}
    {after : τ} (h : viewResult view result = .ok () after) :
    ∃ state, result = .ok () state ∧ view state = after := by
  cases result with
  | ok _ state =>
      injection h with _ h
      exact ⟨state, rfl, h⟩
  | error error state => cases h

namespace Checked

variable {σ τ : Type} {view : σ → τ} {Good : σ → Prop}

/-- One computation and, if it ends well, another. -/
def andThen (first second : Checked σ) : Checked σ := fun state => do
  match ← first state with
  | .ok _ after => second after
  | .error error after => some (.error error after)

/-- On good states no check fails and the result is that of the plain computation, which leads from
good states to good states. -/
structure Agrees (view : σ → τ) (Good : σ → Prop) (checked : Checked τ)
    (plain : EStateM EncodeError σ Unit) : Prop where
  eq : ∀ state, Good state → checked (view state) = some (viewResult view (plain state))
  good : ∀ state after, Good state → plain state = .ok () after → Good after

theorem Agrees.andThen {first second : Checked τ} {plain next : EStateM EncodeError σ Unit}
    (h : Agrees view Good first plain) (hNext : Agrees view Good second next) :
    Agrees view Good (first.andThen second) (do plain; next) where
  eq := by
    intro state hGood
    unfold Checked.andThen
    show _ = some (viewResult view (EStateM.bind plain (fun _ => next) state))
    unfold EStateM.bind
    rw [h.eq state hGood]
    cases hPlain : plain state with
    | ok _ after => exact hNext.eq after (h.good state after hGood hPlain)
    | error error after => rfl
  good := by
    intro state after hGood hRun
    change EStateM.bind plain (fun _ => next) state = _ at hRun
    unfold EStateM.bind at hRun
    cases hPlain : plain state with
    | ok _ middle =>
        rw [hPlain] at hRun
        exact hNext.good middle after (h.good state middle hGood hPlain) hRun
    | error error middle =>
        rw [hPlain] at hRun
        cases hRun

end Checked

/-! ## Headers and length fields -/

namespace Cursor

theorem copy?_of_le {buffer : ByteArray} {start stop : Nat} {field : List UInt8}
    (hStop : start + field.length = stop) (hSize : stop ≤ buffer.size) :
    copy? buffer start stop field.toByteArray =
      some (Stream.overwrite buffer start field.toByteArray) := by
  have hField : stop - start = field.toByteArray.size := by
    rw [List.size_toByteArray]
    omega
  exact if_pos ⟨by omega, hSize, hField⟩

/-- Copies fields to the places that stand in front of them. -/
def copyAll? : List (Nat × Nat × List UInt8) → ByteArray → Option ByteArray
  | [], buffer => some buffer
  | (start, stop, field) :: fields, buffer => do
      copyAll? fields (← copy? buffer start stop field.toByteArray)

/-- Each field has as many bytes as its place, and its place begins where the one before ends. -/
def Joined : Nat → List (Nat × Nat × List UInt8) → Nat → Prop
  | first, [], last => first = last
  | first, (start, stop, field) :: fields, last =>
      start = first ∧ start + field.length = stop ∧ Joined stop fields last

theorem Joined.le {first last : Nat} {fields : List (Nat × Nat × List UInt8)}
    (h : Joined first fields last) : first ≤ last := by
  induction fields generalizing first with
  | nil => exact Nat.le_of_eq h
  | cons entry fields ih =>
      obtain ⟨rfl, hStop, hFields⟩ := h
      have hRest := ih hFields
      omega

/-- Fields that join are copied as one. -/
theorem copyAll?_of_joined {first last : Nat} {fields : List (Nat × Nat × List UInt8)}
    {buffer : ByteArray} (h : Joined first fields last) (hSize : last ≤ buffer.size) :
    copyAll? fields buffer =
      some (Stream.overwrite buffer first
        (fields.flatMap fun entry => entry.2.2).toByteArray) := by
  induction fields generalizing first buffer with
  | nil =>
      have hEmpty : Stream.overwrite buffer first [].toByteArray = buffer := by
        apply ByteArray.ext
        apply Array.toList_inj.1
        rw [Stream.toList_overwrite]
        simp
      exact congrArg some hEmpty.symm
  | cons entry fields ih =>
      obtain ⟨start, stop, field⟩ := entry
      obtain ⟨rfl, hStop, hFields⟩ := h
      have hLe := hFields.le
      have hField : start + field.toByteArray.size = stop := by rw [List.size_toByteArray, hStop]
      have hFits : start + field.toByteArray.size ≤ buffer.size := by omega
      have hKept := Stream.size_overwrite hFits
      rw [copyAll?, copy?_of_le hStop (by omega)]
      show copyAll? fields (Stream.overwrite buffer start field.toByteArray) = _
      rw [ih hFields (by omega), ← hField, Stream.overwrite_append (by omega),
        ← List.toByteArray_append]
      rfl

end Cursor

/-- The fields of a header and their places. -/
def Header.places (header : Header) : List (Nat × Nat × List UInt8) :=
    [(0, 4, header.signature.toList), (4, 8, LittleEndian.encode 4 header.length.toNat),
      (8, 9, [header.revision]), (checksumOffset, checksumOffset + 1, [header.checksum]),
      (10, 16, header.oemId.toList), (16, 24, header.oemTableId.toList),
      (24, 28, LittleEndian.encode 4 header.oemRevision.toNat),
      (28, 32, LittleEndian.encode 4 header.creatorId.toNat),
      (32, 36, LittleEndian.encode 4 header.creatorRevision.toNat)]

theorem Header.joined_places (header : Header) : Cursor.Joined 0 header.places size := by
  simp [places, Cursor.Joined, checksumOffset, size]

theorem Header.flatMap_places (header : Header) :
    (header.places.flatMap fun entry => entry.2.2) = header.bytes := by
  simp [places, bytes]

/-- The bytes of a header, put together field by field. -/
def Header.bytes? (header : Header) : Option ByteArray :=
  Cursor.copyAll? header.places (Bytes.fill size 0)

theorem Header.bytes?_eq (header : Header) : header.bytes? = some header.bytes.toByteArray := by
  have hSize : (Bytes.fill size 0).size = size := Bytes.size_fill size 0
  have hFull : header.bytes.toByteArray.size = (Bytes.fill size 0).size := by
    rw [List.size_toByteArray, header.length_bytes, hSize]
  rw [bytes?, Cursor.copyAll?_of_joined header.joined_places (Nat.le_of_eq hSize.symm),
    flatMap_places]
  exact congrArg some (Stream.put_fresh_of_size_eq hFull (Nat.le_of_eq hFull)).1

/-- The bytes of a length field, put together in an array of four. -/
def PkgLength.field? (length : PkgLength) : Option ByteArray := do
  let raw ← Cursor.copy? (Bytes.fill 4 0) 0 length.width length.bytes.toByteArray
  Cursor.slice? raw 0 length.width

theorem PkgLength.field?_of_fits {length : PkgLength} (h : length.Fits) :
    length.field? = some length.bytes.toByteArray := by
  have hWidth := length_bytes h
  have hLe := h.width_le
  have hSize : (Bytes.fill 4 0).size = 4 := Bytes.size_fill 4 0
  have hKept := Stream.size_overwrite
    (show 0 + length.bytes.toByteArray.size ≤ (Bytes.fill 4 0).size by
      rw [List.size_toByteArray]
      omega)
  rw [field?, Cursor.copy?_of_le (by omega) (by omega)]
  show Cursor.slice? _ 0 length.width = _
  rw [Cursor.slice?, if_pos ⟨Nat.zero_le _, by omega⟩]
  congr 1
  apply ByteArray.ext
  apply Array.toList_inj.1
  rw [ByteArray.data_extract, Array.toList_extract, List.extract, Stream.toList_overwrite,
    List.data_toByteArray, List.drop_zero, Nat.sub_zero, List.take_zero, List.nil_append,
    List.take_left' hWidth]

/-- Measuring finds length fields of one to four bytes. -/
theorem Node.fits_of_mem_plan (node : Node) : ∀ length ∈ node.plan.lengths, length.Fits := by
  induction node using written_induction with
  | block header body _ =>
      rw [plan, fold_block]
      exact List.forall_mem_nil _
  | data bytes =>
      rw [plan_data]
      exact List.forall_mem_nil _
  | object head fixed body ih =>
      intro length hMem
      rw [plan_object, Plan.ofObject, List.mem_append] at hMem
      rcases hMem with hOwn | hArgs
      · rw [Head.lengthField] at hOwn
        split at hOwn
        · exact (PkgLength.fits_of_ofPayload? (Option.mem_toList.1 hOwn)).1
        · cases hOwn
      · obtain ⟨arg, hArg, hLength⟩ := List.mem_flatMap.1 hArgs
        exact ih arg hArg length hLength

theorem Layout.fits_of_ofNode {node : Node} {layout : Layout}
    (h : ofNode node = .ok layout) : ∀ length ∈ layout.lengths.toList, length.Fits := by
  obtain ⟨-, rfl⟩ := ofNode_eq_ok_iff.1 h
  intro length hMem
  obtain ⟨term, -, hLength⟩ := List.mem_flatMap.1 hMem
  exact term.fits_of_mem_plan length hLength

/-! ## The checked writer -/

/-- A writer whose place in the buffer is not known to be in range. -/
structure CheckedWriter where
  lengths : List PkgLength
  cursor : Cursor

namespace CheckedWriter

open Checked (Agrees)
open Acpi.Stream (Call)

def ofWriter (writer : Writer) : CheckedWriter := ⟨writer.lengths, .ofStream writer.stream⟩

/-- Writes one chunk. -/
def writeChunk? (chunk : ByteArray) : Checked CheckedWriter := fun ⟨lengths, cursor⟩ => do
  match ← cursor.write? chunk with
  | (.ok _, cursor) => some (.ok () ⟨lengths, cursor⟩)
  | (.error error, cursor) => some (.error error ⟨lengths, cursor⟩)

/-- Takes the next length and writes its field. -/
def writeLength? : Checked CheckedWriter := fun ⟨lengths, cursor⟩ =>
  match lengths with
  | [] => some (.error .sizeMismatch ⟨[], cursor⟩)
  | length :: lengths => do writeChunk? (← length.field?) ⟨lengths, cursor⟩

/-- Carries out one order. -/
def obey? : Order → Checked CheckedWriter
  | .chunk bytes => writeChunk? bytes.toByteArray
  | .length => writeLength?
  | .refuse => fun writer => some (.error .invalidTree writer)

/-- Carries out a script. -/
def obeyAll? : List Order → Checked CheckedWriter
  | [] => fun writer => some (.ok () writer)
  | order :: orders => (obey? order).andThen (obeyAll? orders)

/-- All lengths that are left are such as measuring finds. -/
def LengthsFit (writer : Writer) : Prop := ∀ length ∈ writer.lengths, length.Fits

theorem agrees_writeChunk (chunk : ByteArray) :
    Agrees ofWriter LengthsFit (writeChunk? chunk) (Writer.writeChunk chunk) where
  eq := by
    rintro ⟨lengths, stream⟩ -
    have hWrite := Cursor.write?_ofStream (.write chunk) stream
    rw [Call.bytes, Bytes.toByteArray_toList] at hWrite
    unfold writeChunk? Writer.writeChunk EStateM.run
    show (Cursor.write? (.ofStream stream) chunk).bind _ = _
    rw [hWrite]
    unfold Call.perform
    rw [Call.run]
    dsimp only
    cases Stream.write chunk stream <;> rfl
  good := by
    rintro ⟨lengths, stream⟩ after hFit hRun
    unfold Writer.writeChunk EStateM.run at hRun
    dsimp only at hRun
    cases hWrite : Stream.write chunk stream with
    | ok _ written =>
        rw [hWrite] at hRun
        cases hRun
        exact hFit
    | error error written =>
        rw [hWrite] at hRun
        cases hRun

theorem agrees_writeLength : Agrees ofWriter LengthsFit writeLength? (Writer.obey .length) where
  eq := by
    rintro ⟨lengths, stream⟩ hFit
    cases lengths with
    | nil => rfl
    | cons length lengths =>
        obtain ⟨hLength, hLengths⟩ := List.forall_mem_cons.1 hFit
        show (length.field?).bind (fun field => writeChunk? field _) = _
        rw [PkgLength.field?_of_fits hLength]
        exact (agrees_writeChunk length.bytes.toByteArray).eq ⟨lengths, stream⟩ hLengths
  good := by
    rintro ⟨lengths, stream⟩ after hFit hRun
    cases lengths with
    | nil => cases hRun
    | cons length lengths =>
        obtain ⟨-, hLengths⟩ := List.forall_mem_cons.1 hFit
        exact (agrees_writeChunk length.bytes.toByteArray).good ⟨lengths, stream⟩ after hLengths
          hRun

theorem agrees_obey (order : Order) :
    Agrees ofWriter LengthsFit (obey? order) (Writer.obey order) := by
  cases order with
  | chunk bytes => exact agrees_writeChunk bytes.toByteArray
  | length => exact agrees_writeLength
  | refuse =>
      refine ⟨fun _ _ => rfl, ?_⟩
      rintro writer after - ⟨⟩

theorem agrees_obeyAll (orders : List Order) :
    Agrees ofWriter LengthsFit (obeyAll? orders) (Writer.obeyAll orders) := by
  induction orders with
  | nil =>
      refine ⟨fun _ _ => rfl, ?_⟩
      rintro writer after hFit ⟨⟩
      exact hFit
  | cons order orders ih => exact (agrees_obey order).andThen ih

end CheckedWriter

end Acpi
