import Acpi.Proofs.Header
import Acpi.Proofs.Measure
import Acpi.Proofs.Script

/-!
# Measuring and then writing

The two walks over a tree, put together.  Measuring leaves the planned length fields of the tree,
writing uses them up in the same order, and what reaches the stream is the direct encoding of
`Node.encode`: `Node.write_eq` for the stream as a whole, `Node.write_refines_encode` for its bytes
and its cursor.
-/

namespace Acpi

namespace Layout

/-- A tree that has a layout comes to the chunks of its encoding with the length fields of the
layout. -/
theorem cuts_of_ofNode {node : Node} {layout : Layout} (h : ofNode node = .ok layout) :
    Cuts node.topScript layout.lengths.toList node.chunks := by
  obtain ⟨⟨hTerms, -⟩, rfl⟩ := ofNode_eq_ok_iff.1 h
  have hCuts := Node.cuts_all hTerms
  cases node with
  | block header body =>
      rw [Node.chunks_block]
      exact .chunk header.bytes hCuts
  | data bytes => simpa [Node.terms, Node.topScript] using hCuts
  | object head fixed body => simpa [Node.terms, Node.topScript] using hCuts

/-- A tree that has a layout spells its encoding with the length fields of the layout, and the
layout tells how long the encoding is. -/
theorem spells_of_ofNode {node : Node} {layout : Layout} (h : ofNode node = .ok layout) :
    Spells node.topScript layout.lengths.toList (Node.encode node) ∧
      layout.total.toNat = (Node.encode node).length := by
  have hSpells := (cuts_of_ofNode h).spells
  rw [Node.flatten_chunks] at hSpells
  refine ⟨hSpells, ?_⟩
  obtain ⟨⟨hTerms, -⟩, -⟩ := ofNode_eq_ok_iff.1 h
  rw [total_ofNode h]
  cases node with
  | block header body =>
      have hBody : (body.flatMap Node.encode).length = Node.planSize body :=
        Node.length_encode_all hTerms
      rw [Node.encode_block, List.length_append, Header.length_bytes, hBody]
      rfl
  | data bytes => exact (hTerms _ List.mem_cons_self).length_encode.symm
  | object head fixed body => exact (hTerms _ List.mem_cons_self).length_encode.symm

end Layout

namespace Node

/-- The size of an encodable tree that is not too large is the length of its encoding. -/
theorem Encodable.size_eq {node : Node} (h : Encodable node)
    (hFits : node.plan.size ≤ maxSize) : node.size = .ok (encode node).length := by
  have hLayout := Layout.ofNode_of_encodable h hFits
  have hTotal := (Layout.spells_of_ofNode hLayout).2
  rw [← hTotal]
  unfold size
  rw [hLayout]
  rfl

/-- Measuring and then writing puts the direct encoding into a forward stream, as one chunk. -/
theorem write_eq {node : Node} {layout : Layout} (h : Layout.ofNode node = .ok layout)
    {stream : Stream} (hForward : stream.direction = .forward)
    (hRoom : layout.total.toNat ≤ stream.remaining) :
    node.write stream = Stream.write (encode node).toByteArray stream := by
  obtain ⟨hSpells, hTotal⟩ := Layout.spells_of_ofNode h
  rw [hTotal] at hRoom
  have hChunk : (encode node).toByteArray.size ≤ stream.remaining := by
    rw [List.size_toByteArray]
    exact hRoom
  have hRun : Writer.writeTop node ⟨layout.lengths.toList, stream⟩ =
      .ok () ⟨[], stream.put (encode node).toByteArray hChunk⟩ := by
    rw [Writer.writeTop_eq, ← Writer.writeChunk_of_le [] hChunk]
    simpa using Writer.obeyAll_eq hSpells [] hForward hRoom
  unfold write EStateM.run
  simp only [h, hRun, Stream.write_of_le hChunk]

/-- The same for a tree whose size is known. -/
theorem write_of_size {node : Node} {total : Nat} (h : node.size = .ok total) {stream : Stream}
    (hForward : stream.direction = .forward) (hRoom : total ≤ stream.remaining) :
    node.write stream = Stream.write (encode node).toByteArray stream := by
  unfold size at h
  cases hLayout : Layout.ofNode node with
  | error error =>
      rw [hLayout] at h
      cases h
  | ok layout =>
      rw [hLayout] at h
      cases h
      exact write_eq hLayout hForward hRoom

/-- **Two walks, one encoding.**  If a tree has a layout and a forward stream has room for its
total, then writing the tree succeeds.  The total is the size of the tree and the length of its
direct encoding, the cursor moves by exactly that much, the bytes that it passes are the direct
encoding, and all other bytes of the buffer stay as they were. -/
theorem write_refines_encode (node : Node) (layout : Layout) (stream : Stream)
    (hLayout : Layout.ofNode node = .ok layout) (hForward : stream.direction = .forward)
    (hRoom : layout.total.toNat ≤ stream.remaining) :
    node.size = .ok layout.total.toNat ∧ layout.total.toNat = (encode node).length ∧
      ∃ after : Stream, node.write stream = .ok () after ∧ after.direction = .forward ∧
        after.written = stream.written + layout.total.toNat ∧
        after.buffer.data.toList = stream.buffer.data.toList.take stream.written ++ encode node ++
          stream.buffer.data.toList.drop (stream.written + layout.total.toNat) := by
  have hTotal := (Layout.spells_of_ofNode hLayout).2
  have hChunk : (encode node).toByteArray.size ≤ stream.remaining := by
    rw [List.size_toByteArray, ← hTotal]
    exact hRoom
  refine ⟨?_, hTotal, stream.put (encode node).toByteArray hChunk, ?_, ?_⟩
  · unfold size
    rw [hLayout]
    rfl
  · rw [write_eq hLayout hForward hRoom, Stream.write_of_le hChunk]
  · rw [hTotal]
    refine ⟨hForward, ?_, ?_⟩
    · show stream.written + (encode node).toByteArray.size = _
      rw [List.size_toByteArray]
    · rw [Stream.toList_put_forward hForward, List.size_toByteArray, List.data_toByteArray]

/-- A device whose body of 63 bytes pushes its own length field to two bytes, with a call in it
whose private argument could not be encoded, written behind five bytes of a longer buffer. -/
theorem write_refines_encode_device :
    let call : Node := .object Head.group.asInvocation
      [.data [0x45].toByteArray, .object (Head.plain Opcode.extended) [] []]
      [.data (List.replicate 58 7).toByteArray]
    let device : Node := .object (Head.extended Opcode.deviceExt)
      [.data [0x41, 0x42, 0x43, 0x44].toByteArray] [call]
    let stream : Stream := ⟨.forward, (List.replicate 80 0xAA).toByteArray, 5, by decide⟩
    Layout.ofNode device = .ok ⟨#[⟨65, 2⟩], 67⟩ ∧ 67 ≤ stream.remaining ∧
      (encode device).length = 67 ∧
      ∃ after : Stream, device.write stream = .ok () after ∧ after.written = 5 + 67 ∧
        after.buffer.data.toList =
          List.replicate 5 0xAA ++ encode device ++ List.replicate 8 0xAA := by
  intro call device stream
  have hLayout : Layout.ofNode device = .ok ⟨#[⟨65, 2⟩], 67⟩ := by rfl
  have hRoom : 67 ≤ stream.remaining := by decide
  obtain ⟨-, hLength, after, hWrite, -, hWritten, hBytes⟩ :=
    write_refines_encode device ⟨#[⟨65, 2⟩], 67⟩ stream hLayout rfl hRoom
  exact ⟨hLayout, hRoom, hLength.symm, after, hWrite, hWritten, hBytes⟩

end Node

end Acpi
