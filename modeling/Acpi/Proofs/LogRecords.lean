import Acpi.Proofs.EntryPoints
import Mathlib.Data.List.Forall2

/-!
# What is reported

The records that asking for a size, writing a table and encoding it leave behind, for every way in
which such a call can end.

While the terms of a table are written, a record after each of them tells how far the writer has
come.  That number is read off the stream.  What it has to be is said here from the other side:
`milestones` adds up the sizes that measuring each term by itself finds.  That the two agree after
every term, and not only at the end, is `termRecords_eq_milestones`.

Main result: `records_match_layout`.
-/

namespace Acpi.Table

open Log (Record Level)

/-! ## How far a table has come -/

/-- The bytes in front of the end of each item, if so many bytes stand before the first and the
items have the given sizes. -/
def milestones (start : Nat) (sizes : List Nat) : List Nat :=
  (List.range sizes.length).map fun i => start + (sizes.take (i + 1)).sum

theorem length_milestones (start : Nat) (sizes : List Nat) :
    (milestones start sizes).length = sizes.length := by
  rw [milestones, List.length_map, List.length_range]

theorem milestones_cons (start size : Nat) (sizes : List Nat) :
    milestones start (size :: sizes) = (start + size) :: milestones (start + size) sizes := by
  simp [milestones, List.range_succ_eq_map, Nat.add_assoc]

theorem le_of_mem_milestones {start count : Nat} {sizes : List Nat}
    (h : count ∈ milestones start sizes) : start ≤ count := by
  obtain ⟨i, -, rfl⟩ := List.mem_map.1 h
  exact Nat.le_add_right _ _

theorem pairwise_milestones (start : Nat) (sizes : List Nat) :
    (milestones start sizes).Pairwise (· ≤ ·) := by
  induction sizes generalizing start with
  | nil => exact .nil
  | cons size sizes ih =>
      rw [milestones_cons]
      exact .cons (fun count hMem => le_of_mem_milestones hMem) (ih _)

theorem getLast?_milestones {sizes : List Nat} (start : Nat) (h : sizes ≠ []) :
    (milestones start sizes).getLast? = some (start + sizes.sum) := by
  have hPos : sizes.length ≠ 0 := by simpa using h
  have hAll : sizes.take (sizes.length - 1 + 1) = sizes := by
    rw [List.take_of_length_le]
    omega
  simp [milestones, List.getLast?_range, hPos, hAll]

/-- After each term the writer has come as far as the sizes of the terms say. -/
theorem termRecords_eq_milestones (start : Nat) (body : List Node) :
    termRecords start body =
      (milestones start (body.map fun node => (Node.encode node).length)).map .term := by
  induction body generalizing start with
  | nil => rfl
  | cons node nodes ih => rw [termRecords, ih, List.map_cons, milestones_cons, List.map_cons]

/-- The terms of a table that can be measured, each with its own size. -/
theorem forall₂_size {body : List Node} {layout : Layout} (h : Layout.ofBody body = .ok layout) :
    List.Forall₂ (fun node size => node.size = .ok size) body
      (body.map fun node => (Node.encode node).length) := by
  rw [List.forall₂_map_right_iff, List.forall₂_same]
  exact fun node hMem => size_of_mem h hMem

theorem sum_sizes {body : List Node} {layout : Layout} (h : Layout.ofBody body = .ok layout) :
    Header.size + (body.map fun node => (Node.encode node).length).sum = layout.total.toNat := by
  obtain ⟨⟨hBody, -⟩, -⟩ := Layout.ofBody_eq_ok_iff.1 h
  rw [Layout.total_ofBody h, ← Node.length_encode_all hBody, List.length_flatMap]

/-! ## The checksum in a table -/

/-- The checksum stands at its place in a finished table. -/
theorem getElem?_image_checksum (header : Header) (total : UInt32) (body : List Node) :
    (image header total body)[Header.checksumOffset]? =
      some (imageChecksum header total body) := by
  have hBefore := (openHeader header total).length_beforeChecksum
  rw [image, finishedHeader, image_split,
    List.getElem?_append_right (Nat.le_of_eq hBefore), hBefore, Nat.sub_self,
    List.getElem?_cons_zero]

/-! ## Calls that fail -/

/-- A write that fails reports a stale stamp and nothing else. -/
theorem log_of_error {node : Node} {buffer : ByteArray} {cause : EncodeError}
    (h : (write node buffer).result = .error cause) :
    (cause = .staleStamp ∧ ∃ header body layout, node = .block header body ∧
      Layout.ofBody body = .ok layout ∧
      (write node buffer).log = [.stale header.signature header.length layout.total.toNat]) ∨
    (cause ≠ .staleStamp ∧ (write node buffer).log = []) := by
  cases node with
  | data bytes => cases h; exact Or.inr ⟨by decide, rfl⟩
  | object head fixed body => cases h; exact Or.inr ⟨by decide, rfl⟩
  | block header body =>
      cases hLayout : Layout.ofBody body with
      | error failure =>
          simp only [write, hLayout] at h ⊢
          cases h
          refine Or.inr ⟨?_, trivial⟩
          rcases Layout.error_of_ofBody hLayout with rfl | rfl <;> decide
      | ok layout =>
          by_cases hShort : buffer.size < layout.total.toNat
          · simp only [write, hLayout, if_pos hShort] at h ⊢
            cases h
            exact Or.inr ⟨by decide, trivial⟩
          · by_cases hStale : Stale header layout
            · have hStamp := (stale_iff header layout).2 hStale
              simp only [write, hLayout, if_neg hShort, if_pos hStamp] at h ⊢
              cases h
              exact Or.inl ⟨rfl, header, body, layout, rfl, hLayout, rfl⟩
            · rw [write_eq hLayout (Nat.not_lt.1 hShort) hStale] at h
              cases h

/-- All that a question for the size can answer and report. -/
theorem query_cases (node : Node) :
    (∃ cause, query node = (.error cause, [])) ∨
      ∃ header body layout, node = .block header body ∧ Layout.ofBody body = .ok layout ∧
        query node =
          (.ok layout.total.toNat, [.required header.signature layout.total.toNat]) := by
  cases node with
  | data bytes => exact Or.inl ⟨.invalidTree, rfl⟩
  | object head fixed body => exact Or.inl ⟨.invalidTree, rfl⟩
  | block header body =>
      cases hLayout : Layout.ofBody body with
      | error cause =>
          refine Or.inl ⟨cause, ?_⟩
          rw [query, hLayout]
      | ok layout =>
          refine Or.inr ⟨header, body, layout, rfl, hLayout, ?_⟩
          rw [query, hLayout]

/-! ## All records -/

/-- What a write reports that has finished a table: `sizes` are the sizes of the terms, each measured
by itself, and `after` is the buffer as it was left. -/
structure TableReport (header : Header) (body : List Node) (sizes : List Nat) (checksum : UInt8)
    (after : ByteArray) (total : Nat) (log : List Record) : Prop where
  size_term : List.Forall₂ (fun node size => Node.size node = .ok size) body sizes
  /-- One record for each term, with the header and all terms up to this one, and one for the
  table. -/
  log_eq : log = (milestones Header.size sizes).map .term ++
    [.finished header.signature total checksum]
  level_eq : log.map Record.level = List.replicate body.length .trace ++ [.debug]
  growing : (milestones Header.size sizes).Pairwise (· ≤ ·)
  last : body ≠ [] → (milestones Header.size sizes).getLast? = some total
  checksum_eq : after.data.toList[Header.checksumOffset]? = some checksum

/-- A write that ends well reports the table. -/
theorem tableReport_of_write {node : Node} {buffer : ByteArray} {total : Nat}
    (h : (write node buffer).result = .ok total) :
    ∃ header body sizes checksum, node = .block header body ∧
      TableReport header body sizes checksum (write node buffer).buffer total
        (write node buffer).log := by
  rcases write_cases node buffer with ⟨cause, log, -, hWrite, -, -⟩ |
    ⟨header, body, layout, rfl, hLayout, hRoom, hFresh, -⟩
  · rw [hWrite] at h
    cases h
  · obtain ⟨layout', hLayout', rfl, -, hBytes⟩ := write_ok_inv h
    obtain rfl : layout = layout' := by
      injection hLayout.symm.trans hLayout'
    have hLog := congrArg Outcome.log (write_eq hLayout hRoom hFresh)
    rw [termRecords_eq_milestones] at hLog
    refine ⟨header, body, _, imageChecksum header layout.total body, rfl,
      { size_term := forall₂_size hLayout
        log_eq := hLog
        level_eq := ?_
        growing := pairwise_milestones _ _
        last := ?_
        checksum_eq := ?_ }⟩
    · have hEach : Record.level ∘ Record.term = fun _ => Level.trace := rfl
      rw [hLog, List.map_append, List.map_map, hEach, List.map_const', length_milestones,
        List.length_map]
      rfl
    · intro hBody
      rw [getLast?_milestones _ (by simpa using hBody), sum_sizes hLayout]
    · have hByte := getElem?_image_checksum header layout.total body
      rw [hBytes, List.getElem?_append_left (List.getElem?_eq_some_iff.1 hByte).1, hByte]

/-- **Records.**  A write that ends well reports every term with the bytes so far, which are the
header and the sizes of the terms up to it, and then the table with its total and the checksum that
stands in it.  A write that finds its stamp stale reports the stamped length and the total, any
other failed call nothing, and a question for the size that is answered reports the answer.  Encoding
a table reports what the question for its size does and then what its write does. -/
theorem records_match_layout (node : Node) :
    (∀ buffer total, (write node buffer).result = .ok total →
      ∃ header body sizes checksum, node = .block header body ∧
        TableReport header body sizes checksum (write node buffer).buffer total
          (write node buffer).log) ∧
    (∀ buffer, (write node buffer).result = .error .staleStamp →
      ∃ header body total, node = .block header body ∧ (query node).1 = .ok total ∧
        (write node buffer).log = [.stale header.signature header.length total] ∧
        (write node buffer).log.map Record.level = [.error]) ∧
    (∀ buffer cause, (write node buffer).result = .error cause → cause ≠ .staleStamp →
      (write node buffer).log = []) ∧
    (∀ total, (query node).1 = .ok total →
      ∃ header body, node = .block header body ∧
        (query node).2 = [.required header.signature total] ∧
        (query node).2.map Record.level = [.debug]) ∧
    (∀ cause, (query node).1 = .error cause → (query node).2 = [] ∧ (encode node).2 = []) ∧
    ∀ total, (query node).1 = .ok total →
      (encode node).2 = (query node).2 ++ (write node (Bytes.fill total 0)).log := by
  refine ⟨fun buffer total => tableReport_of_write, fun buffer hStale => ?_,
    fun buffer cause hError hOther => ?_, ?_⟩
  · rcases log_of_error hStale with ⟨-, header, body, layout, rfl, hLayout, hLog⟩ | ⟨hNot, -⟩
    · refine ⟨header, body, layout.total.toNat, rfl, ?_, hLog, ?_⟩
      · rw [query, hLayout]
      · rw [hLog]
        rfl
    · exact absurd rfl hNot
  · rcases log_of_error hError with ⟨hStale, -⟩ | ⟨-, hLog⟩
    · exact absurd hStale hOther
    · exact hLog
  · rcases query_cases node with ⟨cause, hQuery⟩ | ⟨header, body, layout, rfl, -, hQuery⟩
    · simp only [encode, hQuery]
      simp
    · simp only [encode, hQuery]
      refine ⟨?_, ?_, ?_⟩
      · rintro _ ⟨⟩
        exact ⟨header, body, rfl, rfl, rfl⟩
      · rintro _ ⟨⟩
      · rintro _ ⟨⟩
        rfl

/-- Three bytes of data and a scope of six, written into a longer buffer. -/
theorem records_match_layout_two_terms :
    let header : Header := ⟨#v[0x53, 0x53, 0x44, 0x54], 0, 2, 0x77, #v[1, 2, 3, 4, 5, 6],
      #v[1, 2, 3, 4, 5, 6, 7, 8], 1, 2, 3⟩
    let scope : Node := .object (Head.plain Opcode.scopeOp)
      [.data [0x41, 0x42, 0x43, 0x44].toByteArray] []
    let block : Node := .block header [.data [1, 2, 3].toByteArray, scope]
    let buffer := (List.replicate 50 0xAA).toByteArray
    (write block buffer).result = .ok 45 ∧ ∃ checksum,
      (write block buffer).buffer.data.toList[Header.checksumOffset]? = some checksum ∧
      (write block buffer).log =
        [.term 39, .term 45, .finished header.signature 45 checksum] := by
  intro header scope block buffer
  have hLayout : Layout.ofBody [.data [1, 2, 3].toByteArray, scope] =
      .ok ⟨#[⟨5, 1⟩], 45⟩ := by rfl
  have hOk : (write block buffer).result = .ok 45 :=
    congrArg Outcome.result (write_eq hLayout (by simp [buffer]) (by decide))
  obtain ⟨_, _, sizes, checksum, hBlock, hReport⟩ := (records_match_layout block).1 buffer 45 hOk
  obtain ⟨rfl, rfl⟩ := Node.block.inj hBlock
  obtain ⟨_, _, hFirst, hRest, rfl⟩ := List.forall₂_cons_left_iff.1 hReport.size_term
  obtain ⟨_, _, hSecond, hNone, rfl⟩ := List.forall₂_cons_left_iff.1 hRest
  obtain rfl := List.forall₂_nil_left_iff.1 hNone
  have hThree : Node.size (.data [1, 2, 3].toByteArray) = .ok 3 := by rfl
  have hSix : scope.size = .ok 6 := by rfl
  cases hFirst.symm.trans hThree
  cases hSecond.symm.trans hSix
  exact ⟨hOk, checksum, hReport.checksum_eq, hReport.log_eq⟩

end Acpi.Table
