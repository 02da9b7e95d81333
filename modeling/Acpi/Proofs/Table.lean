import Acpi.Proofs.Checksum
import Acpi.Proofs.Serialize
import Acpi.Table.Write

/-!
# Finished tables

What the table writer leaves, as one equation for each of its layers: writing the terms
(`writeTerms_eq`), filling the bytes of a table (`fill_eq`) and writing into a buffer (`write_eq`).
The bytes of the table are `image`, which knows nothing of buffers, streams or layouts, and the
equations hold for every tree that can be measured.

From them follow the two main results: `write_finishes_table` describes a finished table byte for
byte, and `write_outcome` says for every tree and every buffer how a write ends and that a failed
write has not touched the buffer.
-/

namespace Acpi.Table

open Log (Record)
open Node (planSize planLengths)

/-! ## Writing the terms -/

/-- The records of writing some terms, if so many bytes have been written before. -/
def termRecords : Nat → List Node → List Record
  | _, [] => []
  | written, node :: nodes =>
      .term (written + (Node.encode node).length) ::
        termRecords (written + (Node.encode node).length) nodes

theorem failed_not_mem_termRecords {written : Nat} {body : List Node} {signature : Vector UInt8 4}
    {failure : EncodeError} : Record.failed signature failure ∉ termRecords written body := by
  induction body generalizing written with
  | nil => exact List.not_mem_nil
  | cons node nodes ih =>
      rw [termRecords, List.mem_cons]
      rintro (h | h)
      · cases h
      · exact ih h

/-- Terms that fit reach the stream as one chunk with their encodings, and each leaves a record. -/
private theorem writeTerms_eq {body : List Node} (hBody : ∀ node ∈ body, node.Encodable)
    (rest : List PkgLength) {stream : Stream} (hForward : stream.direction = .forward)
    (hRoom : (body.flatMap Node.encode).toByteArray.size ≤ stream.remaining) (log : List Record) :
    writeTerms body ⟨⟨planLengths body ++ rest, stream⟩, log⟩ =
      .ok () ⟨⟨rest, stream.put (body.flatMap Node.encode).toByteArray hRoom⟩,
        log ++ termRecords stream.written body⟩ := by
  induction body generalizing stream log with
  | nil =>
      have hEmpty := Stream.write_empty stream
      rw [Stream.write_of_le (Nat.zero_le _)] at hEmpty
      injection hEmpty with _ hEmpty
      show EStateM.Result.ok () _ = EStateM.Result.ok () _
      simp only [List.flatMap_nil, List.toByteArray_nil, termRecords, List.append_nil, hEmpty]
      rfl
  | cons node nodes ih =>
      have hNode := hBody node List.mem_cons_self
      have hNodes := fun other hMem => hBody other (List.mem_cons_of_mem node hMem)
      obtain ⟨hFirst, hSecond, hPut⟩ :=
        @Stream.put_append stream hForward (Node.encode node) (nodes.flatMap Node.encode) hRoom
      have hTerm : writeTerm node ⟨⟨planLengths (node :: nodes) ++ rest, stream⟩, log⟩ =
          .ok () ⟨⟨planLengths nodes ++ rest, stream.put (Node.encode node).toByteArray hFirst⟩,
            log ++ [.term (stream.written + (Node.encode node).length)]⟩ := by
        have hWrite := Writer.writeNode_of_room hNode (planLengths nodes ++ rest) hForward
          (by simpa using hFirst)
        rw [Writer.writeChunk_of_le _ hFirst] at hWrite
        unfold writeTerm EStateM.run
        rw [Node.planLengths_cons, List.append_assoc]
        simp only [hWrite]
        show EStateM.Result.ok () (⟨_, log ++ [.term (stream.written + _)]⟩ : Progress) = _
        rw [List.size_toByteArray]
      have hForward' : (stream.put (Node.encode node).toByteArray hFirst).direction = .forward :=
        hForward
      have hWritten : (stream.put (Node.encode node).toByteArray hFirst).written =
          stream.written + (Node.encode node).length := by
        show stream.written + (Node.encode node).toByteArray.size = _
        rw [List.size_toByteArray]
      show EStateM.bind (writeTerm node) (fun _ => writeTerms nodes) _ = _
      unfold EStateM.bind
      simp only [hTerm]
      rw [ih hNodes hForward' hSecond, hPut, hWritten, termRecords, List.append_assoc,
        List.singleton_append]
      rfl

/-! ## The bytes of a table -/

/-- The bytes of a table whose checksum is still clear. -/
def openImage (header : Header) (total : UInt32) (body : List Node) : List UInt8 :=
  (openHeader header total).bytes ++ body.flatMap Node.encode

/-- The checksum of a table. -/
def imageChecksum (header : Header) (total : UInt32) (body : List Node) : UInt8 :=
  -Checksum.listSum (openImage header total body)

/-- The header of a finished table. -/
def finishedHeader (header : Header) (total : UInt32) (body : List Node) : Header :=
  { header with length := total, checksum := imageChecksum header total body }

/-- The bytes of a finished table. -/
def image (header : Header) (total : UInt32) (body : List Node) : List UInt8 :=
  (finishedHeader header total body).bytes ++ body.flatMap Node.encode

/-- With any header in front, the terms of a table make it as long as measured. -/
theorem length_table (header : Header) {body : List Node} {layout : Layout}
    (h : Layout.ofBody body = .ok layout) :
    (header.bytes ++ body.flatMap Node.encode).length = layout.total.toNat := by
  obtain ⟨⟨hBody, -⟩, -⟩ := Layout.ofBody_eq_ok_iff.1 h
  rw [List.length_append, Header.length_bytes, Node.length_encode_all hBody,
    Layout.total_ofBody h]

theorem size_of_image {header : Header} {body : List Node} {layout : Layout} {table : ByteArray}
    (hLayout : Layout.ofBody body = .ok layout)
    (hBytes : table.data.toList = image header layout.total body) :
    table.size = layout.total.toNat := by
  rw [← length_table (finishedHeader header layout.total body) hLayout]
  exact congrArg List.length hBytes

/-- With a byte in the place of the checksum, the bytes of a table are these. -/
theorem image_split (header : Header) (total : UInt32) (checksum : UInt8) (text : List UInt8) :
    Header.bytes { header with length := total, checksum } ++ text =
      (openHeader header total).beforeChecksum ++
        checksum :: ((openHeader header total).afterChecksum ++ text) := by
  rw [Header.bytes_eq, List.append_assoc, List.cons_append]
  rfl

/-- Putting the checksum into its place finishes a table. -/
theorem overwrite_checksum (header : Header) (total : UInt32) (checksum : UInt8)
    (text : List UInt8) :
    Stream.overwrite ((openHeader header total).bytes ++ text).toByteArray Header.checksumOffset
        (ByteArray.empty.push checksum) =
      (Header.bytes { header with length := total, checksum } ++ text).toByteArray := by
  apply ByteArray.ext
  apply Array.toList_inj.1
  have hOpen : (openHeader header total).bytes ++ text = _ := image_split header total 0 text
  have hBefore := (openHeader header total).length_beforeChecksum
  rw [Stream.toList_overwrite, List.data_toByteArray, List.data_toByteArray, hOpen, image_split,
    List.take_left' hBefore, ← List.drop_drop, List.drop_left' hBefore]
  simp

/-- With a byte in the place of the checksum, a table adds up to zero just if that byte is its
checksum. -/
theorem listSum_eq_zero_iff_checksum (header : Header) (total : UInt32) (byte : UInt8)
    (text : List UInt8) :
    Checksum.listSum (Header.bytes { header with length := total, checksum := byte } ++ text) = 0 ↔
      byte = -Checksum.listSum ((openHeader header total).bytes ++ text) := by
  have hOpen : (openHeader header total).bytes ++ text = _ := image_split header total 0 text
  rw [image_split, Checksum.listSum_eq_zero_iff, hOpen]

/-! ## Filling the bytes of a table -/

/-- The header and the terms of a table reach fresh bytes as one chunk. -/
private theorem writing_eq {header : Header} {body : List Node} {layout : Layout}
    {bytes : ByteArray} (hLayout : Layout.ofBody body = .ok layout)
    (hRoom : (openImage header layout.total body).toByteArray.size ≤
      (Stream.fresh .forward bytes).remaining) :
    (do writeHeader (openHeader header layout.total); writeTerms body)
        ⟨⟨layout.lengths.toList, Stream.fresh .forward bytes⟩, []⟩ =
      .ok () ⟨⟨[], (Stream.fresh .forward bytes).put
        (openImage header layout.total body).toByteArray hRoom⟩,
        termRecords Header.size body⟩ := by
  obtain ⟨⟨hBody, -⟩, hFound⟩ := Layout.ofBody_eq_ok_iff.1 hLayout
  have hLengths : layout.lengths.toList = planLengths body := by rw [hFound]
  let start := Stream.fresh .forward bytes
  obtain ⟨hFirst, hSecond, hPut⟩ := @Stream.put_append start rfl
    (openHeader header layout.total).bytes (body.flatMap Node.encode) hRoom
  have hHeader : writeHeader (openHeader header layout.total) ⟨⟨layout.lengths.toList, start⟩, []⟩ =
      .ok () ⟨⟨planLengths body ++ [],
        start.put (openHeader header layout.total).bytes.toByteArray hFirst⟩, []⟩ := by
    unfold writeHeader EStateM.run
    simp only [Writer.writeChunk_of_le _ hFirst, hLengths, List.append_nil]
  have hWritten : (start.put (openHeader header layout.total).bytes.toByteArray hFirst).written =
      Header.size := by
    show 0 + (openHeader header layout.total).bytes.toByteArray.size = _
    rw [List.size_toByteArray, Header.length_bytes, Nat.zero_add]
  show EStateM.bind (writeHeader (openHeader header layout.total)) (fun _ => writeTerms body) _ = _
  unfold EStateM.bind
  simp only [hHeader, start]
  rw [writeTerms_eq hBody [] rfl hSecond, hPut, hWritten, List.nil_append]
  rfl

/-- Filling as many bytes as a table takes leaves the finished table, whatever they held before. -/
theorem fill_eq (header : Header) {body : List Node} {layout : Layout} {bytes : ByteArray}
    (hLayout : Layout.ofBody body = .ok layout) (hSize : bytes.size = layout.total.toNat) :
    fill header body layout bytes =
      ⟨.ok (imageChecksum header layout.total body),
        (image header layout.total body).toByteArray, termRecords Header.size body⟩ := by
  have hEqual : (openImage header layout.total body).toByteArray.size = bytes.size := by
    rw [List.size_toByteArray, openImage, length_table _ hLayout, hSize]
  have hRoom : (openImage header layout.total body).toByteArray.size ≤
      (Stream.fresh .forward bytes).remaining := Nat.le_of_eq hEqual
  obtain ⟨hBuffer, hFull⟩ := Stream.put_fresh_of_size_eq hEqual hRoom
  have hSum : Checksum.compute (openImage header layout.total body).toByteArray =
      imageChecksum header layout.total body := by
    rw [Checksum.compute, Checksum.sum_eq_listSum, List.data_toByteArray, imageChecksum]
  unfold fill EStateM.run
  simp only [writing_eq hLayout hRoom, hFull, if_true, hBuffer, hSum]
  rw [openImage, overwrite_checksum]
  rfl

/-! ## Writing into a buffer -/

/-- The header was stamped with a length that the table does not have. -/
def Stale (header : Header) (layout : Layout) : Prop :=
  header.length ≠ 0 ∧ header.length ≠ layout.total

instance (header : Header) (layout : Layout) : Decidable (Stale header layout) :=
  inferInstanceAs (Decidable (_ ∧ _))

theorem stale_iff (header : Header) (layout : Layout) :
    (header.isStamped && header.length != layout.total) = true ↔ Stale header layout := by
  simp [Header.isStamped, Stale]

/-- If nothing stands against it, a write leaves the finished table and behind it the rest of the
buffer. -/
theorem write_eq {header : Header} {body : List Node} {layout : Layout} {buffer : ByteArray}
    (hLayout : Layout.ofBody body = .ok layout) (hRoom : layout.total.toNat ≤ buffer.size)
    (hFresh : ¬ Stale header layout) :
    write (.block header body) buffer =
      ⟨.ok layout.total.toNat,
        (image header layout.total body).toByteArray ++
          buffer.extract layout.total.toNat buffer.size,
        termRecords Header.size body ++
          [.finished header.signature layout.total.toNat
            (imageChecksum header layout.total body)]⟩ := by
  have hSize : (buffer.extract 0 layout.total.toNat).size = layout.total.toNat := by
    rw [ByteArray.size_extract]
    omega
  have hNotStale : ¬ (header.isStamped && header.length != layout.total) = true := by
    rw [stale_iff]
    exact hFresh
  unfold write
  simp only [hLayout, if_neg (Nat.not_lt.2 hRoom), if_neg hNotStale, fill_eq header hLayout hSize]

/-- The checks of a write in their order: the tree is a block, it can be measured, the buffer holds
the table, and the stamp is not stale. -/
def verdict (room : Nat) : Node → Except EncodeError Nat
  | .block header body =>
      match Layout.ofBody body with
      | .error cause => .error cause
      | .ok layout =>
          if room < layout.total.toNat then
            .error .bufferTooSmall
          else if Stale header layout then
            .error .staleStamp
          else
            .ok layout.total.toNat
  | _ => .error .invalidTree

/-- All that a write can do: fail a check and leave the buffer alone, or pass all checks and finish
the table, as `write_eq` says. -/
theorem write_cases (node : Node) (buffer : ByteArray) :
    (∃ cause log, verdict buffer.size node = .error cause ∧
      write node buffer = ⟨.error cause, buffer, log⟩ ∧ cause ≠ .sizeMismatch ∧
      ∀ signature failure, Record.failed signature failure ∉ log) ∨
    (∃ header body layout, node = .block header body ∧ Layout.ofBody body = .ok layout ∧
      layout.total.toNat ≤ buffer.size ∧ ¬ Stale header layout ∧
      verdict buffer.size node = .ok layout.total.toNat) := by
  cases node with
  | data bytes => exact Or.inl ⟨.invalidTree, [], rfl, rfl, by decide, by simp⟩
  | object head fixed body => exact Or.inl ⟨.invalidTree, [], rfl, rfl, by decide, by simp⟩
  | block header body =>
      cases hLayout : Layout.ofBody body with
      | error cause =>
          simp only [verdict, write, hLayout]
          refine Or.inl ⟨cause, [], rfl, rfl, ?_, by simp⟩
          rcases Layout.error_of_ofBody hLayout with rfl | rfl <;> decide
      | ok layout =>
          by_cases hShort : buffer.size < layout.total.toNat
          · simp only [verdict, write, hLayout, if_pos hShort]
            exact Or.inl ⟨.bufferTooSmall, [], rfl, rfl, by decide, by simp⟩
          · by_cases hStale : Stale header layout
            · have hStamp := (stale_iff header layout).2 hStale
              simp only [verdict, write, hLayout, if_neg hShort, if_pos hStale, if_pos hStamp]
              exact Or.inl ⟨.staleStamp, _, rfl, rfl, by decide, by simp⟩
            · refine Or.inr ⟨header, body, layout, rfl, hLayout, Nat.not_lt.1 hShort, hStale, ?_⟩
              simp only [verdict, hLayout, if_neg hShort, if_neg hStale]

/-- A write ends as its checks say. -/
theorem result_write (node : Node) (buffer : ByteArray) :
    (write node buffer).result = verdict buffer.size node := by
  rcases write_cases node buffer with ⟨cause, log, hVerdict, hWrite, -, -⟩ |
    ⟨header, body, layout, rfl, hLayout, hRoom, hFresh, hVerdict⟩
  · rw [hWrite, hVerdict]
  · rw [write_eq hLayout hRoom hFresh, hVerdict]

/-- A write that fails leaves the buffer alone. -/
theorem buffer_of_error {node : Node} {buffer : ByteArray} {cause : EncodeError}
    (h : (write node buffer).result = .error cause) : (write node buffer).buffer = buffer := by
  rcases write_cases node buffer with ⟨_, _, -, hWrite, -, -⟩ |
    ⟨header, body, layout, rfl, hLayout, hRoom, hFresh, -⟩
  · rw [hWrite]
  · rw [write_eq hLayout hRoom hFresh] at h
    cases h

/-- A table that can be measured is written if there is room for it and its stamp is not stale. -/
theorem result_write_eq_ok_iff {header : Header} {body : List Node} {layout : Layout}
    (hLayout : Layout.ofBody body = .ok layout) {buffer : ByteArray} {total : Nat} :
    (write (.block header body) buffer).result = .ok total ↔
      layout.total.toNat ≤ buffer.size ∧ ¬ Stale header layout ∧ total = layout.total.toNat := by
  rw [result_write, verdict, hLayout]
  simp only
  by_cases hShort : buffer.size < layout.total.toNat
  · rw [if_pos hShort]
    constructor
    · nofun
    · intro h
      omega
  · rw [if_neg hShort]
    by_cases hStale : Stale header layout
    · rw [if_pos hStale]
      constructor
      · nofun
      · intro h
        exact absurd hStale h.2.1
    · rw [if_neg hStale, Except.ok.injEq]
      constructor
      · intro h
        exact ⟨Nat.not_lt.1 hShort, hStale, h.symm⟩
      · intro h
        exact h.2.2.symm

/-- **How a write ends.**  For every tree and every buffer the result is the verdict of the checks.
A table that passes them is always finished: no disagreement between the two walks is ever reported,
filling the bytes of the table succeeds whatever they held, and the path that clears them is not
taken.  A write that fails has not touched the buffer. -/
theorem write_outcome (node : Node) (buffer : ByteArray) :
    (write node buffer).result = verdict buffer.size node ∧
      (write node buffer).result ≠ .error .sizeMismatch ∧
      (∀ cause, (write node buffer).result = .error cause →
        (write node buffer).buffer = buffer) ∧
      (∀ signature failure, Record.failed signature failure ∉ (write node buffer).log) ∧
      ∀ header body layout, node = .block header body → Layout.ofBody body = .ok layout →
        ∀ bytes : ByteArray, bytes.size = layout.total.toNat →
          ∃ checksum, (fill header body layout bytes).result = .ok checksum := by
  have hFill : ∀ header body layout, node = .block header body → Layout.ofBody body = .ok layout →
      ∀ bytes : ByteArray, bytes.size = layout.total.toNat →
        ∃ checksum, (fill header body layout bytes).result = .ok checksum := by
    intro header body layout _ hLayout bytes hSize
    rw [fill_eq header hLayout hSize]
    exact ⟨_, rfl⟩
  rcases write_cases node buffer with ⟨cause, log, hVerdict, hWrite, hCause, hLog⟩ |
    ⟨header, body, layout, rfl, hLayout, hRoom, hFresh, hVerdict⟩
  · rw [hWrite]
    refine ⟨hVerdict.symm, ?_, fun _ _ => rfl, hLog, hFill⟩
    intro h
    injection h with h
    exact hCause h
  · rw [write_eq hLayout hRoom hFresh]
    refine ⟨hVerdict.symm, nofun, nofun, ?_, hFill⟩
    intro signature failure hMem
    rcases List.mem_append.1 hMem with hMem | hMem
    · exact failed_not_mem_termRecords hMem
    · simp at hMem

/-! ## Finished tables -/

theorem listSum_image (header : Header) (total : UInt32) (body : List Node) :
    Checksum.listSum (image header total body) = 0 :=
  (listSum_eq_zero_iff_checksum header total _ _).2 rfl

/-- Another byte in the place of the checksum is another checksum of the header. -/
private theorem set_image (header : Header) (total : UInt32) (byte : UInt8) (body : List Node) :
    (image header total body).set Header.checksumOffset byte =
      Header.bytes { header with length := total, checksum := byte } ++
        body.flatMap Node.encode := by
  have hBefore := (openHeader header total).length_beforeChecksum
  rw [image, finishedHeader, image_split, image_split,
    List.set_append_right _ _ (Nat.le_of_eq hBefore), hBefore, Nat.sub_self, List.set_cons_zero]

/-- A term of a table that can be measured takes as much room as its encoding is long. -/
theorem size_of_mem {body : List Node} {layout : Layout}
    (h : Layout.ofBody body = .ok layout) {node : Node} (hMem : node ∈ body) :
    node.size = .ok (Node.encode node).length := by
  obtain ⟨⟨hBody, hFits⟩, -⟩ := Layout.ofBody_eq_ok_iff.1 h
  have hPart := Node.size_le_planSize hMem
  exact (hBody node hMem).size_eq (by omega)

/-- What a write leaves that ends well: `before` and `after` are the buffer at its two ends. -/
structure Finished (header : Header) (body : List Node) (before after : ByteArray) (total : Nat)
    (checksum : UInt8) : Prop where
  /-- The total counts the header and every term once. -/
  total_eq : total =
    Header.size + body.foldr (fun node size => (Node.encode node).length + size) 0
  /-- Every term takes as much room as its encoding is long. -/
  size_term : ∀ node ∈ body, node.size = .ok (Node.encode node).length
  /-- The buffer is long enough. -/
  total_le : total ≤ before.size
  /-- The header with the total at offset 4 and the checksum at offset 9, the terms in their order,
  and then the buffer as it was. -/
  bytes_eq : after.data.toList =
    header.bytes.take 4 ++ LittleEndian.encode 4 total ++ (header.bytes.drop 8).take 1 ++
      [checksum] ++ header.bytes.drop 10 ++ body.flatMap Node.encode ++
      before.data.toList.drop total
  /-- The bytes of the table add up to a multiple of 256. -/
  sum_eq_zero : ((after.data.toList.take total).map UInt8.toNat).sum % 256 = 0
  /-- No other byte in the place of the checksum would do. -/
  checksum_unique : ∀ byte,
    (((after.data.toList.take total).set 9 byte).map UInt8.toNat).sum % 256 = 0 ↔ byte = checksum
  /-- The header can be read back, and only its length and its checksum are new. -/
  header_eq : Header.ofTable? after =
    some { header with length := UInt32.ofNat total, checksum }

/-- A write that ends well has passed all checks, and the buffer starts with the finished table. -/
theorem write_ok_inv {header : Header} {body : List Node} {buffer : ByteArray} {total : Nat}
    (h : (write (.block header body) buffer).result = .ok total) :
    ∃ layout, Layout.ofBody body = .ok layout ∧ total = layout.total.toNat ∧
      total ≤ buffer.size ∧
      (write (.block header body) buffer).buffer.data.toList =
        image header layout.total body ++ buffer.data.toList.drop total := by
  rcases write_cases (.block header body) buffer with ⟨cause, log, -, hWrite, -, -⟩ |
    ⟨_, _, layout, hBlock, hLayout, hRoom, hFresh, -⟩
  · rw [hWrite] at h
    cases h
  · cases hBlock
    rw [write_eq hLayout hRoom hFresh] at h ⊢
    injection h with h
    subst h
    have hRest : (buffer.extract layout.total.toNat buffer.size).data.toList =
        buffer.data.toList.drop layout.total.toNat := by
      rw [ByteArray.data_extract, Array.toList_extract]
      exact List.take_of_length_le (Nat.le_of_eq List.length_drop)
    refine ⟨layout, hLayout, rfl, hRoom, ?_⟩
    rw [ByteArray.data_append, Array.toList_append, List.data_toByteArray, hRest]

/-- The front of the buffer after a write that ends well is the table. -/
theorem take_write {header : Header} {body : List Node} {layout : Layout} {buffer : ByteArray}
    {total : Nat} (hLayout : Layout.ofBody body = .ok layout)
    (h : (write (.block header body) buffer).result = .ok total) :
    (write (.block header body) buffer).buffer.data.toList.take total =
      image header layout.total body := by
  obtain ⟨layout', hLayout', rfl, -, hBytes⟩ := write_ok_inv h
  obtain rfl : layout = layout' := by
    injection hLayout.symm.trans hLayout'
  rw [hBytes]
  exact List.take_left' (length_table _ hLayout)

/-- A block that can be measured and whose stamp is not stale is encoded as its finished table. -/
theorem encode_eq {header : Header} {body : List Node} {layout : Layout}
    (hLayout : Layout.ofBody body = .ok layout) (hFresh : ¬ Stale header layout) :
    (encode (.block header body)).1 = .ok (image header layout.total body).toByteArray := by
  have hSize := Bytes.size_fill layout.total.toNat 0
  have hWrite := write_eq hLayout (Nat.le_of_eq hSize.symm) hFresh
  rw [hSize, ByteArray.extract_same, ByteArray.append_empty] at hWrite
  unfold encode query
  simp only [hLayout, hWrite]
  rfl

/-- A table that has been encoded is the finished table and nothing else. -/
theorem encode_ok_inv {header : Header} {body : List Node} {table : ByteArray}
    (h : (encode (.block header body)).1 = .ok table) :
    ∃ layout, Layout.ofBody body = .ok layout ∧
      table.data.toList = image header layout.total body := by
  unfold encode query at h
  cases hLayout : Layout.ofBody body with
  | error cause =>
      simp only [hLayout] at h
      cases h
  | ok layout =>
      simp only [hLayout] at h
      cases hWrite : (write (.block header body) (Bytes.fill layout.total.toNat 0)).result with
      | error cause =>
          rw [hWrite] at h
          cases h
      | ok total =>
          rw [hWrite] at h
          injection h with h
          subst h
          obtain ⟨layout', hLayout', rfl, -, hBytes⟩ := write_ok_inv hWrite
          injection hLayout.symm.trans hLayout' with hSame
          subst hSame
          refine ⟨layout, rfl, ?_⟩
          rw [hBytes, Bytes.toList_fill, List.drop_replicate, Nat.sub_self, List.replicate_zero,
            List.append_nil]

/-- **Finished tables.**  A write that ends well leaves a finished table in front of the rest of the
buffer.  The bytes of the table do not depend on what the buffer held before, nor on the length and
the checksum that the header came with. -/
theorem write_finishes_table (header : Header) (body : List Node) (buffer : ByteArray) (total : Nat)
    (h : (write (.block header body) buffer).result = .ok total) :
    (∃ checksum, Finished header body buffer (write (.block header body) buffer).buffer total
      checksum) ∧
    ∀ (length : UInt32) (checksum : UInt8) (other : ByteArray) (total' : Nat),
      (write (.block { header with length, checksum } body) other).result = .ok total' →
        total' = total ∧
        (write (.block { header with length, checksum } body) other).buffer.data.toList.take total =
          (write (.block header body) buffer).buffer.data.toList.take total := by
  obtain ⟨layout, hLayout, rfl, hRoom, hBytes⟩ := write_ok_inv h
  have hLength : (image header layout.total body).length = layout.total.toNat :=
    length_table _ hLayout
  have hFront : (write (.block header body) buffer).buffer.data.toList.take layout.total.toNat =
      image header layout.total body := by
    rw [hBytes, List.take_left' hLength]
  constructor
  · refine ⟨imageChecksum header layout.total body, ?_, fun node => size_of_mem hLayout, hRoom,
      ?_, ?_, ?_, ?_⟩
    · rw [← hLength, image, List.length_append, Header.length_bytes, List.length_flatMap,
        List.sum_eq_foldr, List.foldr_map]
    · rw [hBytes, image, finishedHeader, Header.bytes_patched]
    · rw [hFront, Checksum.sum_eq_iff, listSum_image]
    · intro byte
      rw [hFront, Checksum.sum_eq_iff, ← Header.checksumOffset, set_image]
      exact listSum_eq_zero_iff_checksum ..
    · rw [image, List.append_assoc] at hBytes
      rw [UInt32.ofNat_toNat]
      exact Header.ofTable?_of_bytes hBytes
  · intro length checksum other total' hOther
    obtain ⟨layout', hLayout', rfl, -, hBytes'⟩ := write_ok_inv hOther
    obtain rfl : layout = layout' := by
      injection hLayout.symm.trans hLayout'
    -- The image of a table sets both fields itself.
    have hImage : image { header with length, checksum } layout.total body =
        image header layout.total body := rfl
    rw [hFront, hBytes', hImage, List.take_left' hLength]
    exact ⟨rfl, rfl⟩

/-- A scope of 60 bytes behind a header with a stale checksum, written into a longer buffer, and
then, with a stamp in the header, into a buffer without room to spare. -/
theorem write_finishes_table_scope :
    let header : Header := ⟨#v[0x53, 0x53, 0x44, 0x54], 0, 2, 0x77, #v[1, 2, 3, 4, 5, 6],
      #v[1, 2, 3, 4, 5, 6, 7, 8], 1, 2, 3⟩
    let scope : Node := .object (Head.plain Opcode.scopeOp)
      [.data [0x41, 0x42, 0x43, 0x44].toByteArray] [.data (List.replicate 54 7).toByteArray]
    let long := (List.replicate 120 0xAA).toByteArray
    let tight := (List.replicate 96 0x55).toByteArray
    (write (.block header [scope]) long).result = .ok 96 ∧
      (write (.block { header with length := 96, checksum := 0x99 } [scope]) tight).result =
        .ok 96 ∧
      (∃ checksum, Finished header [scope] long (write (.block header [scope]) long).buffer 96
        checksum) ∧
      (write (.block { header with length := 96, checksum := 0x99 } [scope])
          tight).buffer.data.toList.take 96 =
        (write (.block header [scope]) long).buffer.data.toList.take 96 := by
  intro header scope long tight
  have hLayout : Layout.ofBody [scope] = .ok ⟨#[⟨59, 1⟩], 96⟩ := by rfl
  have hFirst : (write (.block header [scope]) long).result = .ok 96 :=
    congrArg Outcome.result (write_eq hLayout (by simp [long]) (by decide))
  have hSecond : (write (.block { header with length := 96, checksum := 0x99 } [scope])
      tight).result = .ok 96 :=
    congrArg Outcome.result (write_eq hLayout (by simp [tight]) (by decide))
  obtain ⟨hFinished, hSame⟩ := write_finishes_table header [scope] long 96 hFirst
  exact ⟨hFirst, hSecond, hFinished, (hSame 96 0x99 tight 96 hSecond).2⟩

end Acpi.Table
