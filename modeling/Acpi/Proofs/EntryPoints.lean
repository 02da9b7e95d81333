import Acpi.Proofs.Table

/-!
# Three ways to a table

A table can be had in one call, which makes a buffer for it (`Table.encode`), or in two, the first
of which asks for the room that the second needs (`Table.query`, `Table.write`).  And a block, like
any tree, can be written to a stream with its header as it stands (`Node.write`).

For the first two there are only three cases.  A tree is refused before its size is known, or its
header promises another size, or the table is finished, and which of them it is depends on the tree
alone: `Table.fate`.  The third way writes the same terms, so that it leaves the bytes of the
finished table but for the two fields of the header that a table has filled in.

Main result: `Table.entry_points_agree`.
-/

namespace Acpi.Table

/-! ## One call or two -/

/-- What becomes of the table of a tree, whichever way it is asked for. -/
inductive Fate (node : Node) : Prop
  /-- The tree is refused before its size is known. -/
  | refused (cause : EncodeError) (query_eq : (query node).1 = .error cause)
      (encode_eq : (encode node).1 = .error cause)
  /-- The size is known, and the header promises another. -/
  | stale (total : Nat) (query_eq : (query node).1 = .ok total)
      (write_eq : ∀ buffer : ByteArray, total ≤ buffer.size →
        (write node buffer).result = .error .staleStamp)
      (encode_eq : (encode node).1 = .error .staleStamp)
  /-- The table is finished in every buffer with room for it. -/
  | finished (total : Nat) (table : ByteArray) (query_eq : (query node).1 = .ok total)
      (size_eq : table.size = total)
      (write_eq : ∀ buffer : ByteArray, total ≤ buffer.size →
        (write node buffer).result = .ok total ∧
          (write node buffer).buffer = table ++ buffer.extract total buffer.size)
      (encode_eq : (encode node).1 = .ok table)

theorem encode_of_query_error {node : Node} {cause : EncodeError}
    (h : (query node).1 = .error cause) : (encode node).1 = .error cause := by
  have hPair : query node = (_, (query node).2) := Prod.ext h rfl
  rw [encode, hPair]

/-- One call does what the two do, in a buffer of zeros. -/
theorem encode_of_query {node : Node} {total : Nat} (h : (query node).1 = .ok total) :
    (encode node).1 = (write node (Bytes.fill total 0)).result.map fun _ =>
      (write node (Bytes.fill total 0)).buffer := by
  have hPair : query node = (_, (query node).2) := Prod.ext h rfl
  rw [encode, hPair]

/-- A block that can be measured is refused for its stamp or finished. -/
private theorem fate_block (header : Header) {body : List Node} {layout : Layout}
    (hLayout : Layout.ofBody body = .ok layout) : Fate (.block header body) := by
  have hQuery : (query (.block header body)).1 = .ok layout.total.toNat := by
    rw [query, hLayout]
  have hZeros := Nat.le_of_eq (Bytes.size_fill layout.total.toNat 0).symm
  by_cases hStale : Stale header layout
  · have hWrite : ∀ buffer : ByteArray, layout.total.toNat ≤ buffer.size →
        (write (.block header body) buffer).result = .error .staleStamp := by
      intro buffer hRoom
      rw [result_write, verdict, hLayout]
      simp only [if_neg (Nat.not_lt.2 hRoom), if_pos hStale]
    refine .stale _ hQuery hWrite ?_
    rw [encode_of_query hQuery, hWrite _ hZeros]
    rfl
  · refine .finished _ (image header layout.total body).toByteArray hQuery ?_ ?_
      (encode_eq hLayout hStale)
    · rw [List.size_toByteArray]
      exact length_table _ hLayout
    · intro buffer hRoom
      rw [write_eq hLayout hRoom hStale]
      exact ⟨rfl, rfl⟩

/-- What becomes of the table of a tree depends on the tree alone. -/
theorem fate (node : Node) : Fate node := by
  cases node with
  | data bytes => exact .refused .invalidTree rfl rfl
  | object head fixed body => exact .refused .invalidTree rfl rfl
  | block header body =>
      cases hLayout : Layout.ofBody body with
      | ok layout => exact fate_block header hLayout
      | error cause =>
          have hQuery : (query (.block header body)).1 = .error cause := by
            rw [query, hLayout]
          exact .refused cause hQuery (encode_of_query_error hQuery)

/-! ## The header as it stands -/

/-- A block with its header as it stands has the bytes of the finished table outside of the length
and the checksum. -/
theorem getElem?_encode_block (header : Header) (total : UInt32) (body : List Node) {i : Nat}
    (h : i < 4 ∨ i = 8 ∨ 10 ≤ i) :
    (Node.encode (.block header body))[i]? = (image header total body)[i]? := by
  have hPatched := header.getElem?_patched total (imageChecksum header total body) h
  rw [Node.encode_block, image, List.getElem?_append, List.getElem?_append, finishedHeader,
    hPatched, Header.length_bytes, Header.length_bytes]

/-- Where a table can be written, its block can be written to a stream with room for the table, and
fills it. -/
theorem writeNode_of_write {node : Node} {buffer bytes : ByteArray} {total : Nat}
    (h : (write node buffer).result = .ok total) (hSize : bytes.size = total) :
    ∃ after : Stream, node.write (.fresh .forward bytes) = .ok () after ∧
      after.written = total ∧ after.remaining = 0 ∧
      ∀ i, i < 4 ∨ i = 8 ∨ 10 ≤ i →
        after.buffer.data.toList[i]? =
          ((write node buffer).buffer.extract 0 total).data.toList[i]? := by
  -- Only a block can be written as a table.
  cases node with
  | data _ => cases h
  | object head fixed body => cases h
  | block header body =>
      obtain ⟨layout, hLayout, rfl, -, -⟩ := write_ok_inv h
      have hFront := take_write hLayout h
      have hNode : Layout.ofNode (.block header body) = .ok layout := hLayout
      have hLength : (Node.encode (.block header body)).toByteArray.size = bytes.size := by
        rw [List.size_toByteArray, Node.encode_block, length_table header hLayout, hSize]
      have hRoom : (Node.encode (.block header body)).toByteArray.size ≤
          (Stream.fresh .forward bytes).remaining := Nat.le_of_eq hLength
      have hTotal : layout.total.toNat ≤ (Stream.fresh .forward bytes).remaining :=
        Nat.le_of_eq hSize.symm
      obtain ⟨hBuffer, hFull⟩ := Stream.put_fresh_of_size_eq hLength hRoom
      refine ⟨_, ?_, ?_, hFull, ?_⟩
      · rw [Node.write_eq hNode rfl hTotal, Stream.write_of_le hRoom]
      · show 0 + (Node.encode (.block header body)).toByteArray.size = _
        rw [hLength, hSize, Nat.zero_add]
      · intro i hOutside
        rw [hBuffer, List.data_toByteArray, ByteArray.data_extract, Array.toList_extract,
          List.extract, List.drop_zero, Nat.sub_zero, hFront]
        exact getElem?_encode_block header layout.total body hOutside

/-! ## Agreement -/

/-- **The ways to a table agree.**  A tree is encoded in one call just if its size can be asked for
and a write into a buffer of that size succeeds, and what the one call gives is what such a write
leaves.  The table is as long as was asked, and it is found at the front of every buffer with room
for it, whatever the buffer held.  The one call fails just if the question for the size does, for
the same cause, or if the write does, for a stale stamp; which of the buffers of that size is used
makes no difference.  Where a table can be written, its block can be written to a stream of that
size, fills it, and differs from the table at most in the length and the checksum of the header. -/
theorem entry_points_agree (node : Node) :
    (∀ table, (encode node).1 = .ok table ↔
      ∃ (total : Nat) (exact : ByteArray), (query node).1 = .ok total ∧ exact.size = total ∧
        (write node exact).result = .ok total ∧ (write node exact).buffer = table) ∧
    (∀ table total, (encode node).1 = .ok table → (query node).1 = .ok total →
      table.size = total ∧ ∀ buffer : ByteArray, total ≤ buffer.size →
        (write node buffer).result = .ok total ∧
          (write node buffer).buffer.extract 0 total = table) ∧
    (∀ cause, (encode node).1 = .error cause ↔
      (query node).1 = .error cause ∨
        ∃ (total : Nat) (exact : ByteArray), (query node).1 = .ok total ∧ exact.size = total ∧
          (write node exact).result = .error cause) ∧
    (∀ (total : Nat) (exact : ByteArray), (query node).1 = .ok total → exact.size = total →
      (write node exact).result = (encode node).1.map ByteArray.size ∧
        ∀ cause, (write node exact).result = .error cause → cause = .staleStamp) ∧
    (∀ (buffer : ByteArray) (total : Nat), (write node buffer).result = .ok total →
      ∀ bytes : ByteArray, bytes.size = total →
        ∃ after : Stream, node.write (.fresh .forward bytes) = .ok () after ∧
          after.written = total ∧ after.remaining = 0 ∧
          ∀ i, i < 4 ∨ i = 8 ∨ 10 ≤ i →
            after.buffer.data.toList[i]? =
              ((write node buffer).buffer.extract 0 total).data.toList[i]?) := by
  have hStream := fun buffer total (h : (write node buffer).result = .ok total)
    (bytes : ByteArray) (hSize : bytes.size = total) => writeNode_of_write h hSize
  cases fate node with
  | refused cause query_eq encode_eq =>
      rw [query_eq, encode_eq]
      refine ⟨fun table => ⟨nofun, nofun⟩, nofun, fun other => ⟨?_, ?_⟩, nofun, hStream⟩
      · rintro ⟨⟩
        exact Or.inl rfl
      · rintro (⟨⟨⟩⟩ | ⟨_, _, ⟨⟩, -⟩)
        rfl
  | stale total query_eq write_eq encode_eq =>
      have hExact : ∀ exact : ByteArray, exact.size = total →
          (write node exact).result = .error .staleStamp :=
        fun exact hSize => write_eq exact (Nat.le_of_eq hSize.symm)
      rw [query_eq, encode_eq]
      refine ⟨fun table => ⟨nofun, ?_⟩, nofun, fun cause => ⟨?_, ?_⟩, ?_, hStream⟩
      · rintro ⟨_, exact, ⟨⟩, hSize, hWrite, -⟩
        rw [hExact exact hSize] at hWrite
        cases hWrite
      · intro h
        cases h
        exact Or.inr ⟨total, _, rfl, Bytes.size_fill total 0, hExact _ (Bytes.size_fill total 0)⟩
      · rintro (⟨⟨⟩⟩ | ⟨_, exact, ⟨⟩, hSize, hWrite⟩)
        rw [hExact exact hSize] at hWrite
        cases hWrite
        rfl
      · rintro _ exact ⟨⟩ hSize
        rw [hExact exact hSize]
        refine ⟨rfl, ?_⟩
        rintro cause ⟨⟩
        rfl
  | finished total table query_eq size_eq write_eq encode_eq =>
      have hExact : ∀ exact : ByteArray, exact.size = total →
          (write node exact).result = .ok total ∧ (write node exact).buffer = table := by
        intro exact hSize
        obtain ⟨hResult, hBuffer⟩ := write_eq exact (Nat.le_of_eq hSize.symm)
        rw [hSize, ByteArray.extract_same, ByteArray.append_empty] at hBuffer
        exact ⟨hResult, hBuffer⟩
      rw [query_eq, encode_eq]
      refine ⟨fun other => ⟨?_, ?_⟩, ?_, fun cause => ⟨nofun, ?_⟩, ?_, hStream⟩
      · rintro ⟨⟩
        exact ⟨total, _, rfl, Bytes.size_fill total 0, hExact _ (Bytes.size_fill total 0)⟩
      · rintro ⟨_, exact, ⟨⟩, hSize, -, hBuffer⟩
        rw [← hBuffer, (hExact exact hSize).2]
      · rintro _ _ ⟨⟩ ⟨⟩
        refine ⟨size_eq, fun buffer hRoom => ?_⟩
        obtain ⟨hResult, hBuffer⟩ := write_eq buffer hRoom
        refine ⟨hResult, ?_⟩
        rw [hBuffer, ← size_eq, ByteArray.extract_append_eq_left rfl]
      · rintro (⟨⟨⟩⟩ | ⟨_, exact, ⟨⟩, hSize, hWrite⟩)
        rw [(hExact exact hSize).1] at hWrite
        cases hWrite
      · rintro _ exact ⟨⟩ hSize
        rw [(hExact exact hSize).1, ← size_eq]
        exact ⟨rfl, nofun⟩

end Acpi.Table
