import Acpi.Proofs.CheckedWriter
import Acpi.Proofs.GivenLengths
import Acpi.Proofs.Table

/-!
# Filling bytes with any layout

`fill` trusts nobody: the layout that it is given may belong to another tree, and the bytes may be
too few or too many.  What it does depends on three things that can be read off its arguments
(`Fillable`): no block stands among the terms, there is a length for every object that has a length
field, and the bytes are as many as the header and the terms with these lengths take.  If so, the
bytes are the table and nothing of what they held is left (`fill_of_fillable`); if not, they are all
zero (`fill_of_not_fillable`).

Reading the length field back gives what the layout says, which need not be the size of the table.

`fill?` does the same with every index checked, and no check fails (`fill?_eq`).

Main result: `fill_covers_or_clears`.
-/

namespace Acpi.Table

open Log (Record)

/-! ## What the writer does in a table -/

/-- Writes a header and the terms behind it. -/
def writing (header : Header) (body : List Node) : EStateM EncodeError Progress Unit := do
  writeHeader header
  writeTerms body

/-- But for the records, writing terms is writing trees. -/
theorem writer_writeTerms (body : List Node) (progress : Progress) :
    viewResult Progress.writer (writeTerms body progress) =
      Writer.writeNodes body progress.writer := by
  induction body generalizing progress with
  | nil =>
      rw [writeTerms, Writer.writeNodes]
      rfl
  | cons node nodes ih =>
      rw [writeTerms, Writer.writeNodes]
      show viewResult _ (EStateM.bind (writeTerm node) (fun _ => writeTerms nodes) progress) =
        EStateM.bind (Writer.writeNode node) (fun _ => Writer.writeNodes nodes) progress.writer
      unfold EStateM.bind writeTerm EStateM.run
      dsimp only
      cases Writer.writeNode node progress.writer with
      | ok _ after => exact ih ⟨after, _⟩
      | error error after => rfl

/-- But for the records, writing a table is writing a block. -/
theorem writer_writing (header : Header) (body : List Node) (progress : Progress) :
    viewResult Progress.writer (writing header body progress) =
      Writer.writeTop (.block header body) progress.writer := by
  rw [writing, Writer.writeTop]
  show viewResult _ (EStateM.bind (writeHeader header) (fun _ => writeTerms body) progress) =
    EStateM.bind (Writer.writeChunk header.bytes.toByteArray) (fun _ => Writer.writeNodes body)
      progress.writer
  unfold EStateM.bind writeHeader EStateM.run
  dsimp only
  cases Writer.writeChunk header.bytes.toByteArray progress.writer with
  | ok _ after => exact writer_writeTerms body ⟨after, _⟩
  | error error after => rfl

/-! ## Which bytes can be filled -/

/-- The terms of a table with the lengths of a layout. -/
def termText (body : List Node) (layout : Layout) : List UInt8 :=
  Node.textWith body layout.lengths.toList

/-- So many bytes can be filled with a header and these terms, if the lengths come from this
layout. -/
structure Fillable (body : List Node) (layout : Layout) (size : Nat) : Prop where
  no_block : ∀ node ∈ body, node.NoBlock
  enough : (body.flatMap Node.lengthHeads).length ≤ layout.lengths.size
  size_eq : Header.size + (termText body layout).length = size

section

variable {header : Header} {body : List Node} {layout : Layout} {bytes : ByteArray}

theorem Fillable.size_le {size : Nat} (h : Fillable body layout size) : Header.size ≤ size := by
  have hSize := h.size_eq
  omega

/-- The script of a block spells the header and the terms. -/
theorem fill_topScript (header : Header) (body : List Node) (layout : Layout) :
    (scriptText (Node.topScript (.block header body))).fill
        (layout.lengths.toList.map PkgLength.bytes) = header.bytes ++ termText body layout := by
  rw [Node.topScript, fill_chunk, termText, Node.textWith_eq]

theorem gapCount_topScript (header : Header) (body : List Node) :
    gapCount (Node.topScript (.block header body)) = (body.flatMap Node.lengthHeads).length := by
  rw [Node.topScript, gapCount_chunk, Node.gapCount_script]

theorem refuse_not_mem_topScript_iff (header : Header) (body : List Node) :
    .refuse ∉ Node.topScript (.block header body) ↔ ∀ node ∈ body, node.NoBlock := by
  rw [← Node.refuse_not_mem_script_iff, Node.topScript, List.mem_cons, not_or]
  exact and_iff_right (by rintro ⟨⟩)

/-- The state in which filling begins. -/
def start (layout : Layout) (bytes : ByteArray) : Progress :=
  ⟨⟨layout.lengths.toList, Stream.fresh .forward bytes⟩, []⟩

/-- Bytes that can be filled are full in the end. -/
theorem writing_of_fillable (header : Header) (h : Fillable body layout bytes.size) :
    ∃ progress, writing header body (start layout bytes) = .ok () progress ∧
      progress.writer.stream.remaining = 0 ∧
      progress.writer.stream.buffer = (header.bytes ++ termText body layout).toByteArray := by
  have hText := fill_topScript header body layout
  have hSize : (header.bytes ++ termText body layout).toByteArray.size = bytes.size := by
    rw [List.size_toByteArray, List.length_append, header.length_bytes, h.size_eq]
  have hRoom : (header.bytes ++ termText body layout).toByteArray.size ≤
      (Stream.fresh .forward bytes).remaining := Nat.le_of_eq hSize
  have hEnough : gapCount (Node.topScript (.block header body)) ≤ layout.lengths.toList.length := by
    rw [gapCount_topScript]
    exact h.enough
  have hRun := writer_writing header body (start layout bytes)
  rw [Writer.writeTop_eq, start,
    Writer.obeyAll_of_enough ((refuse_not_mem_topScript_iff header body).2 h.no_block) rfl hEnough
      (hText ▸ hRoom)] at hRun
  simp only [hText] at hRun
  obtain ⟨progress, hProgress, hWriter⟩ := viewResult_eq_ok hRun
  obtain ⟨hBuffer, hFull⟩ := Stream.put_fresh_of_size_eq hSize hRoom
  rw [← start] at hProgress
  refine ⟨progress, hProgress, ?_⟩
  rw [hWriter]
  exact ⟨hFull, hBuffer⟩

/-- What ends well and leaves no byte over had bytes that can be filled. -/
theorem fillable_of_writing {progress : Progress}
    (h : writing header body (start layout bytes) = .ok () progress)
    (hFull : progress.writer.stream.remaining = 0) : Fillable body layout bytes.size := by
  have hRun := writer_writing header body (start layout bytes)
  rw [h, Writer.writeTop_eq] at hRun
  obtain ⟨hOrders, hEnough, hRoom, hStream⟩ := Writer.obeyAll_ok_inv rfl hRun.symm
  rw [gapCount_topScript] at hEnough
  rw [hStream, Stream.remaining_put] at hFull
  rw [fill_topScript, List.size_toByteArray, List.length_append, header.length_bytes] at hRoom hFull
  have hRemaining : (Stream.fresh .forward bytes).remaining = bytes.size := rfl
  exact ⟨(refuse_not_mem_topScript_iff header body).1 hOrders, hEnough, by omega⟩

/-- Full bytes have a place for the checksum. -/
theorem checksumOffset_lt_of_writing {progress : Progress}
    (h : writing header body (start layout bytes) = .ok () progress)
    (hFull : progress.writer.stream.remaining = 0) :
    Header.checksumOffset < progress.writer.stream.buffer.size := by
  obtain ⟨progress', hRun, -, hBuffer⟩ :=
    writing_of_fillable header (fillable_of_writing h hFull)
  cases hRun.symm.trans h
  rw [hBuffer, List.size_toByteArray, List.length_append, header.length_bytes]
  exact Nat.lt_add_right _ (by decide)

/-! ## What filling leaves -/

/-- The checksum of a table whose terms have been written with the lengths of a layout. -/
def termChecksum (header : Header) (body : List Node) (layout : Layout) : UInt8 :=
  -Checksum.listSum ((openHeader header layout.total).bytes ++ termText body layout)

/-- The bytes of such a table. -/
def filledBytes (header : Header) (body : List Node) (layout : Layout) : List UInt8 :=
  Header.bytes
      { header with length := layout.total, checksum := termChecksum header body layout } ++
    termText body layout

theorem listSum_filledBytes (header : Header) (body : List Node) (layout : Layout) :
    Checksum.listSum (filledBytes header body layout) = 0 :=
  (listSum_eq_zero_iff_checksum header layout.total _ _).2 rfl

/-- A failure leaves zeros. -/
def cleared (header : Header) (size : Nat) (cause : EncodeError) (log : List Record) : Filled :=
  ⟨.error cause, Bytes.fill size 0, log ++ [.failed header.signature cause]⟩

/-- Filling, in the words of this module. -/
theorem fill_eq_match (header : Header) (body : List Node) (layout : Layout) (bytes : ByteArray) :
    fill header body layout bytes =
      match writing (openHeader header layout.total) body (start layout bytes) with
      | .error cause progress => cleared header bytes.size cause progress.log
      | .ok _ progress =>
          if progress.writer.stream.remaining = 0 then
            ⟨.ok (Checksum.compute progress.writer.stream.buffer),
              Stream.overwrite progress.writer.stream.buffer Header.checksumOffset
                (ByteArray.empty.push (Checksum.compute progress.writer.stream.buffer)),
              progress.log⟩
          else
            cleared header bytes.size .sizeMismatch progress.log := by
  unfold fill EStateM.run
  rw [← writing, ← start]
  dsimp only
  cases writing (openHeader header layout.total) body (start layout bytes) <;> rfl

/-- Bytes that can be filled become the table. -/
theorem fill_of_fillable (header : Header) (h : Fillable body layout bytes.size) :
    (fill header body layout bytes).result = .ok (termChecksum header body layout) ∧
      (fill header body layout bytes).bytes = (filledBytes header body layout).toByteArray := by
  obtain ⟨progress, hRun, hFull, hBuffer⟩ :=
    writing_of_fillable (openHeader header layout.total) h
  have hSum : Checksum.compute
      ((openHeader header layout.total).bytes ++ termText body layout).toByteArray =
        termChecksum header body layout := by
    rw [Checksum.compute, Checksum.sum_eq_listSum, List.data_toByteArray, termChecksum]
  rw [fill_eq_match, hRun]
  simp only [if_pos hFull, hBuffer, hSum, overwrite_checksum]
  exact ⟨trivial, rfl⟩

/-- Bytes that cannot be filled are cleared. -/
theorem fill_of_not_fillable (header : Header) (h : ¬ Fillable body layout bytes.size) :
    ∃ cause log, fill header body layout bytes = cleared header bytes.size cause log := by
  rw [fill_eq_match]
  cases hRun : writing (openHeader header layout.total) body (start layout bytes) with
  | error cause progress => exact ⟨cause, progress.log, rfl⟩
  | ok _ progress =>
      have hLeft : progress.writer.stream.remaining ≠ 0 := mt (fillable_of_writing hRun) h
      exact ⟨.sizeMismatch, progress.log, if_neg hLeft⟩

end

/-! ## Filling with every index checked -/

open Checked (Agrees)

/-- The state of writing the terms of a table, with a writer that is checked. -/
structure CheckedProgress where
  writer : CheckedWriter
  log : List Record

def CheckedProgress.ofProgress (progress : Progress) : CheckedProgress :=
  ⟨.ofWriter progress.writer, progress.log⟩

/-- Runs a writer and adds the records of what it has done. -/
def reporting? (run : Checked CheckedWriter) (records : CheckedWriter → List Record) :
    Checked CheckedProgress := fun ⟨writer, log⟩ => do
  match ← run writer with
  | .ok _ after => some (.ok () ⟨after, log ++ records after⟩)
  | .error error after => some (.error error ⟨after, log⟩)

/-- Writes a header. -/
def writeHeader? (header : Header) : Checked CheckedProgress :=
  reporting? (fun writer => do CheckedWriter.writeChunk? (← header.bytes?) writer) fun _ => []

/-- Writes one term and reports how far the table has come. -/
def writeTerm? (node : Node) : Checked CheckedProgress :=
  reporting? (CheckedWriter.obeyAll? node.script) fun writer => [.term writer.cursor.written]

/-- Writes the terms of a table in order. -/
def writeTerms? : List Node → Checked CheckedProgress
  | [] => fun progress => some (.ok () progress)
  | node :: nodes => (writeTerm? node).andThen (writeTerms? nodes)

/-- Writes a whole table over the given bytes. -/
def fill? (header : Header) (body : List Node) (layout : Layout) (bytes : ByteArray) :
    Option Filled := do
  let writing := (writeHeader? (openHeader header layout.total)).andThen (writeTerms? body)
  match ← writing ⟨⟨layout.lengths.toList, ⟨.forward, bytes, 0⟩⟩, []⟩ with
  | .error cause progress => some (cleared header bytes.size cause progress.log)
  | .ok _ progress =>
      let cursor := progress.writer.cursor
      if (← cursor.remaining?) = 0 then
        let checksum := Checksum.compute cursor.buffer
        let bytes ← Cursor.copy? cursor.buffer Header.checksumOffset (Header.checksumOffset + 1)
          [checksum].toByteArray
        some ⟨.ok checksum, bytes, progress.log⟩
      else
        some (cleared header bytes.size .sizeMismatch progress.log)

def LengthsFit (progress : Progress) : Prop := CheckedWriter.LengthsFit progress.writer

/-- Records do not disturb agreement. -/
theorem agrees_reporting {run : Checked CheckedWriter} {records : CheckedWriter → List Record}
    {plain : Writer.WriteM Unit} {reporting : EStateM EncodeError Progress Unit}
    (h : Agrees .ofWriter CheckedWriter.LengthsFit run plain)
    (hReporting : ∀ writer log, reporting ⟨writer, log⟩ =
      match plain writer with
      | .ok _ after => .ok () ⟨after, log ++ records (.ofWriter after)⟩
      | .error error after => .error error ⟨after, log⟩) :
    Agrees .ofProgress LengthsFit (reporting? run records) reporting where
  eq := by
    rintro ⟨writer, log⟩ hFit
    have hRun := h.eq writer hFit
    unfold reporting?
    show (run (.ofWriter writer)).bind _ = _
    rw [hRun, hReporting]
    cases plain writer <;> rfl
  good := by
    rintro ⟨writer, log⟩ after hFit hRun
    rw [hReporting] at hRun
    cases hPlain : plain writer with
    | ok _ middle =>
        rw [hPlain] at hRun
        cases hRun
        exact h.good writer middle hFit hPlain
    | error error middle =>
        rw [hPlain] at hRun
        cases hRun

theorem agrees_writeHeader (header : Header) :
    Agrees .ofProgress LengthsFit (writeHeader? header) (writeHeader header) := by
  unfold writeHeader?
  rw [header.bytes?_eq]
  refine agrees_reporting (CheckedWriter.agrees_writeChunk header.bytes.toByteArray) ?_
  intro writer log
  rw [List.append_nil]
  rfl

theorem agrees_writeTerms (body : List Node) :
    Agrees .ofProgress LengthsFit (writeTerms? body) (writeTerms body) := by
  induction body with
  | nil =>
      refine ⟨fun _ _ => rfl, ?_⟩
      rintro progress after hFit ⟨⟩
      exact hFit
  | cons node nodes ih =>
      refine Agrees.andThen (agrees_reporting (CheckedWriter.agrees_obeyAll node.script) ?_) ih
      intro writer log
      rw [← Writer.writeNode_eq]
      rfl

/-- No check fails: the checked filling does what the plain one does. -/
theorem fill?_eq (header : Header) (body : List Node) {layout : Layout} (bytes : ByteArray)
    (hFit : ∀ length ∈ layout.lengths.toList, length.Fits) :
    fill? header body layout bytes = some (fill header body layout bytes) := by
  have hRun := ((agrees_writeHeader (openHeader header layout.total)).andThen
    (agrees_writeTerms body)).eq (start layout bytes) hFit
  rw [← writing] at hRun
  unfold fill?
  show (Checked.andThen _ _ (CheckedProgress.ofProgress (start layout bytes))).bind _ = _
  rw [hRun, fill_eq_match]
  cases hWriting : writing (openHeader header layout.total) body (start layout bytes) with
  | error cause progress => rfl
  | ok _ progress =>
      have hRemaining := Cursor.remaining?_ofStream progress.writer.stream
      show (Cursor.remaining? (.ofStream progress.writer.stream)).bind _ = _
      rw [hRemaining]
      by_cases hFull : progress.writer.stream.remaining = 0
      · -- The bytes are full, so there is a header among them, and the checksum has its place.
        have hSize := checksumOffset_lt_of_writing hWriting hFull
        have hCopy := Cursor.copy?_of_le
          (show Header.checksumOffset + [Checksum.compute progress.writer.stream.buffer].length =
            Header.checksumOffset + 1 from rfl) hSize
        have hBuffer : (CheckedProgress.ofProgress progress).writer.cursor.buffer =
          progress.writer.stream.buffer := rfl
        simp only [Option.bind_some, if_pos hFull, hBuffer, hCopy]
        rfl
      · simp only [Option.bind_some, if_neg hFull]
        rfl

/-! ## Covered or cleared -/

/-- What filling leaves that ends well. -/
structure Covered (header : Header) (body : List Node) (layout : Layout) (bytes : ByteArray)
    (checksum : UInt8) (filled : ByteArray) : Prop where
  /-- There is room for a header. -/
  size_le : Header.size ≤ bytes.size
  /-- There are as many bytes as before. -/
  size_eq : filled.size = bytes.size
  /-- The length field at offset 4 tells what the layout says. -/
  length_field : (filled.data.toList.drop 4).take 4 = LittleEndian.encode 4 layout.total.toNat
  /-- The header can be read back, and only its length and its checksum are new. -/
  header_eq : Header.ofTable? filled = some { header with length := layout.total, checksum }
  /-- Behind the header stand the terms, with the lengths of the layout. -/
  terms_eq : filled.data.toList.drop Header.size = Node.textWith body layout.lengths.toList
  /-- The bytes add up to a multiple of 256. -/
  sum_eq_zero : (filled.data.toList.map UInt8.toNat).sum % 256 = 0
  /-- Nothing is left of what the bytes held before. -/
  no_trace : ∀ other : ByteArray, other.size = bytes.size →
    (fill header body layout other).result = .ok checksum ∧
      (fill header body layout other).bytes = filled

theorem covered_of_fillable {body : List Node} {layout : Layout} {bytes : ByteArray}
    (header : Header) (h : Fillable body layout bytes.size) :
    Covered header body layout bytes (termChecksum header body layout)
      (filledBytes header body layout).toByteArray where
  size_le := h.size_le
  size_eq := by
    rw [List.size_toByteArray, filledBytes, List.length_append, Header.length_bytes, h.size_eq]
  length_field := by
    rw [List.data_toByteArray, filledBytes]
    exact Header.take_four_drop_four _ _
  header_eq := by
    apply Header.ofTable?_of_bytes
    rw [List.data_toByteArray, filledBytes]
  terms_eq := by
    rw [List.data_toByteArray, filledBytes]
    exact List.drop_left' (Header.length_bytes _)
  sum_eq_zero := by
    rw [List.data_toByteArray, Checksum.sum_eq_iff, listSum_filledBytes]
  no_trace := by
    intro other hSize
    rw [← hSize] at h
    exact fill_of_fillable header h

/-- **Covered or cleared.**  Filling ends in one of two ways, whatever the layout and the bytes:
with an error and zeros, or with a table that covers every byte.  It ends well exactly if the terms
can be written with the lengths of the layout and then take all the room there is.  With the layout
of any tree, or that of nothing, no index is ever out of range. -/
theorem fill_covers_or_clears (header : Header) (body : List Node) (layout : Layout)
    (bytes : ByteArray) :
    let filled := fill header body layout bytes
    ((∃ cause, filled.result = .error cause ∧
          filled.bytes.data.toList = List.replicate bytes.size 0) ∨
        ∃ checksum, filled.result = .ok checksum ∧
          Covered header body layout bytes checksum filled.bytes) ∧
      ((∃ checksum, filled.result = .ok checksum) ↔ Fillable body layout bytes.size) ∧
      (layout = .empty ∨ (∃ node, Layout.ofNode node = .ok layout) →
        fill? header body layout bytes = some filled) := by
  intro filled
  have hChecked : layout = .empty ∨ (∃ node, Layout.ofNode node = .ok layout) →
      fill? header body layout bytes = some filled := by
    intro hLayout
    apply fill?_eq
    rcases hLayout with rfl | ⟨node, hNode⟩
    · exact List.forall_mem_nil _
    · exact Layout.fits_of_ofNode hNode
  by_cases hFillable : Fillable body layout bytes.size
  · obtain ⟨hResult, hBytes⟩ := fill_of_fillable header hFillable
    refine ⟨.inr ⟨_, hResult, ?_⟩, iff_of_true ⟨_, hResult⟩ hFillable, hChecked⟩
    rw [hBytes]
    exact covered_of_fillable header hFillable
  · obtain ⟨cause, log, (hFill : filled = _)⟩ := fill_of_not_fillable header hFillable
    have hError : filled.result = .error cause := by rw [hFill]; rfl
    refine ⟨.inl ⟨cause, hError, ?_⟩, iff_of_false ?_ hFillable, hChecked⟩
    · rw [hFill]
      exact Bytes.toList_fill bytes.size 0
    · rintro ⟨checksum, hOk⟩
      cases hError.symm.trans hOk

/-- The layout of a device with a table that has no use for its length.  A header and one byte fill
37 bytes, and the length field tells the size of the device; twelve bytes are cleared. -/
theorem fill_covers_or_clears_foreign :
    let header : Header := ⟨#v[0x53, 0x53, 0x44, 0x54], 0, 2, 0x77, #v[1, 2, 3, 4, 5, 6],
      #v[1, 2, 3, 4, 5, 6, 7, 8], 1, 0, 0⟩
    let device : Node := .object (Head.extended Opcode.deviceExt)
      [.data [0x48, 0x50, 0x45, 0x54].toByteArray] []
    let body : List Node := [.data [0xA3].toByteArray]
    ∃ layout, Layout.ofNode device = .ok layout ∧
      (∃ checksum, (fill header body layout (Bytes.fill 37 0xEE)).result = .ok checksum) ∧
      ((fill header body layout (Bytes.fill 37 0xEE)).bytes.data.toList.drop 4).take 4 =
        [7, 0, 0, 0] ∧
      (fill header body layout (Bytes.fill 12 0xEE)).bytes.data.toList = List.replicate 12 0 ∧
      fill? header body layout (Bytes.fill 12 0xEE) =
        some (fill header body layout (Bytes.fill 12 0xEE)) := by
  intro header device body
  have hLayout : Layout.ofNode device = .ok ⟨#[⟨5, 1⟩], 7⟩ := by rfl
  have hFillable : Fillable body ⟨#[⟨5, 1⟩], 7⟩ (Bytes.fill 37 0xEE).size :=
    ⟨List.forall_mem_singleton.2 (.data _), by decide, by rw [Bytes.size_fill]; rfl⟩
  obtain ⟨hEither, hIff, -⟩ :=
    fill_covers_or_clears header body ⟨#[⟨5, 1⟩], 7⟩ (Bytes.fill 37 0xEE)
  obtain ⟨hShort, -, hChecked⟩ :=
    fill_covers_or_clears header body ⟨#[⟨5, 1⟩], 7⟩ (Bytes.fill 12 0xEE)
  refine ⟨_, hLayout, hIff.2 hFillable, ?_, ?_, hChecked (.inr ⟨device, hLayout⟩)⟩
  · rcases hEither with ⟨cause, hError, -⟩ | ⟨checksum, -, hCovered⟩
    · obtain ⟨checksum, hOk⟩ := hIff.2 hFillable
      cases hError.symm.trans hOk
    · exact hCovered.length_field
  · rcases hShort with ⟨cause, -, hZero⟩ | ⟨checksum, -, hCovered⟩
    · rw [Bytes.size_fill] at hZero
      exact hZero
    · have hSize := hCovered.size_le
      rw [Bytes.size_fill] at hSize
      exact absurd hSize (by decide)

end Acpi.Table
