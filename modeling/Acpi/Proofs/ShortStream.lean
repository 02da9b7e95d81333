import Acpi.Proofs.Serialize
import Acpi.Proofs.StreamRun

/-!
# Writing to a stream that may be too small

A tree is written chunk by chunk, and the first chunk that does not fit ends the run wherever in the
tree it stands.  What is left behind then is a matter of the list of chunks alone.  So the tree is
put aside first: `Node.write_eq_writeAll` says that writing a measured tree, in either direction, is
writing the chunks of its encoding one after the other.  The rest is an induction over that list:

* `Stream.writeAll_of_fits`: chunks that fit together are all written;
* `Stream.writeAll_of_short`: of others, the longest run that fits is written, and nothing else.

`Node.write_on_any_stream` puts the two together with the failures of measuring.
-/

namespace Acpi

namespace Stream

/-! ## Lists of chunks -/

/-- Writes chunks one after the other, up to the first that is refused. -/
def writeAll : List (List UInt8) → EStateM EncodeError Stream Unit
  | [] => pure ()
  | chunk :: chunks => do
      write chunk.toByteArray
      writeAll chunks

section

variable {direction : Direction} {initial : ByteArray} {written chunks : List (List UInt8)}
  {chunk : List UInt8} {stream : Stream}

theorem writeAll_of_le (h : chunk.toByteArray.size ≤ stream.remaining) :
    writeAll (chunk :: chunks) stream = writeAll chunks (stream.put chunk.toByteArray h) := by
  show EStateM.bind (write chunk.toByteArray) (fun _ => writeAll chunks) stream = _
  unfold EStateM.bind
  rw [write_of_le h]

theorem writeAll_of_lt (h : stream.remaining < chunk.toByteArray.size) :
    writeAll (chunk :: chunks) stream = .error .bufferTooSmall stream := by
  show EStateM.bind (write chunk.toByteArray) (fun _ => writeAll chunks) stream = _
  unfold EStateM.bind
  rw [write_of_lt h]

/-- Chunks that fit together are all written. -/
theorem writeAll_of_fits (hHolds : Holds direction initial written stream)
    (h : chunks.flatten.length ≤ stream.remaining) :
    ∃ after, writeAll chunks stream = .ok () after ∧
      Holds direction initial (written ++ chunks) after := by
  induction chunks generalizing written stream with
  | nil =>
      rw [List.append_nil]
      exact ⟨stream, rfl, hHolds⟩
  | cons chunk chunks ih =>
      rw [List.flatten_cons, List.length_append] at h
      have hFits : chunk.toByteArray.size ≤ stream.remaining := by
        rw [List.size_toByteArray]
        omega
      have hRest : chunks.flatten.length ≤ (stream.put chunk.toByteArray hFits).remaining := by
        rw [remaining_put, List.size_toByteArray]
        omega
      rw [writeAll_of_le hFits, List.append_cons]
      exact ih (hHolds.put hFits) hRest

/-- Of chunks that do not fit together the longest run that does is written. -/
theorem writeAll_of_short (hHolds : Holds direction initial written stream)
    (h : stream.remaining < chunks.flatten.length) :
    ∃ count after, writeAll chunks stream = .error .bufferTooSmall after ∧
      Holds direction initial (written ++ chunks.take count) after ∧
      ∀ n, (chunks.take n).flatten.length ≤ stream.remaining ↔ n ≤ count := by
  induction chunks generalizing written stream with
  | nil => exact absurd h (Nat.not_lt_zero _)
  | cons chunk chunks ih =>
      have hSize : chunk.toByteArray.size = chunk.length := List.size_toByteArray
      have hRun : ∀ n, ((chunk :: chunks).take (n + 1)).flatten.length =
          chunk.length + (chunks.take n).flatten.length := by
        intro n
        rw [List.take_succ_cons, List.flatten_cons, List.length_append]
      rw [List.flatten_cons, List.length_append] at h
      by_cases hFits : chunk.toByteArray.size ≤ stream.remaining
      · have hPut := remaining_put hFits
        have hRest : (stream.put chunk.toByteArray hFits).remaining < chunks.flatten.length := by
          omega
        obtain ⟨count, after, hWrite, hAfter, hLongest⟩ := ih (hHolds.put hFits) hRest
        refine ⟨count + 1, after, ?_, ?_, ?_⟩
        · rw [writeAll_of_le hFits, hWrite]
        · rw [List.take_succ_cons, List.append_cons]
          exact hAfter
        · intro n
          cases n with
          | zero => exact ⟨fun _ => Nat.zero_le _, fun _ => Nat.zero_le _⟩
          | succ n =>
              have hShorter := hLongest n
              rw [hRun]
              omega
      · -- The first chunk is refused already, so only the empty run fits.
        refine ⟨0, stream, writeAll_of_lt (Nat.not_le.1 hFits), ?_, ?_⟩
        · rw [List.take_zero, List.append_nil]
          exact hHolds
        · intro n
          cases n with
          | zero => exact ⟨fun _ => Nat.zero_le _, fun _ => Nat.zero_le _⟩
          | succ n =>
              rw [hRun]
              omega

end

end Stream

/-! ## From trees to chunks -/

namespace Writer

/-- What an outcome of writing says of the stream. -/
def streamOf : EStateM.Result EncodeError Writer Unit → EStateM.Result EncodeError Stream Unit
  | .ok _ writer => .ok () writer.stream
  | .error error writer => .error error writer.stream

/-- A chunk and what follows it act on the stream alone, if what follows does. -/
private theorem streamOf_chunk {bytes : List UInt8} {chunks : List (List UInt8)}
    {lengths : List PkgLength} {next : WriteM Unit}
    (hNext : ∀ stream, streamOf (next ⟨lengths, stream⟩) = Stream.writeAll chunks stream)
    (stream : Stream) :
    streamOf ((writeChunk bytes.toByteArray >>= fun _ => next) ⟨lengths, stream⟩) =
      Stream.writeAll (bytes :: chunks) stream := by
  show streamOf (EStateM.bind (writeChunk bytes.toByteArray) (fun _ => next) ⟨lengths, stream⟩) = _
  unfold EStateM.bind
  by_cases hFits : bytes.toByteArray.size ≤ stream.remaining
  · rw [writeChunk_of_le lengths hFits, Stream.writeAll_of_le hFits]
    exact hNext _
  · have hLong := Nat.not_le.1 hFits
    have hRefused : writeChunk bytes.toByteArray ⟨lengths, stream⟩ =
        .error .bufferTooSmall ⟨lengths, stream⟩ := by
      unfold writeChunk EStateM.run
      simp only [Stream.write_of_lt hLong]
    rw [hRefused, Stream.writeAll_of_lt hLong]
    rfl

/-- Carrying out a script is writing the chunks that it comes to; lengths that it does not need make
no difference. -/
theorem streamOf_obeyAll {orders : List Order} {lengths : List PkgLength}
    {chunks : List (List UInt8)} (h : Cuts orders lengths chunks) (rest : List PkgLength)
    (stream : Stream) :
    streamOf (obeyAll orders ⟨lengths ++ rest, stream⟩) = Stream.writeAll chunks stream := by
  induction h generalizing stream with
  | nil => rfl
  | chunk bytes _ ih => exact streamOf_chunk ih stream
  | length length _ ih => exact streamOf_chunk ih stream

end Writer

namespace Node

/-- Writing a measured tree is writing the chunks of its encoding. -/
theorem write_eq_writeAll {node : Node} {layout : Layout} (h : Layout.ofNode node = .ok layout)
    (stream : Stream) : node.write stream = Stream.writeAll node.chunks stream := by
  rw [← Writer.streamOf_obeyAll (Layout.cuts_of_ofNode h) [], List.append_nil, ← Writer.writeTop_eq]
  unfold write EStateM.run
  rw [h]
  rfl

/-- A forward stream took the first chunks of a tree, as many as there was room for. -/
structure CutShort (node : Node) (stream : Stream) (count : Nat) (after : Stream) : Prop where
  /-- A run of whole chunks fits exactly if it is no longer than the one that was written. -/
  longest : ∀ n, (node.chunks.take n).flatten.length ≤ stream.remaining ↔ n ≤ count
  proper : ∃ missing, missing ≠ [] ∧ (node.chunks.take count).flatten ++ missing = encode node
  direction : after.direction = .forward
  written : after.written = stream.written + (node.chunks.take count).flatten.length
  bytes : after.buffer.data.toList =
    stream.buffer.data.toList.take stream.written ++ (node.chunks.take count).flatten ++
      stream.buffer.data.toList.drop
        (stream.written + (node.chunks.take count).flatten.length)

/-- A run of chunks that fits where all of them do not is a proper part of the encoding. -/
private theorem exists_missing {node : Node} {count room : Nat}
    (hKept : (node.chunks.take count).flatten.length ≤ room)
    (hAll : room < node.chunks.flatten.length) :
    ∃ missing, missing ≠ [] ∧ (node.chunks.take count).flatten ++ missing = encode node := by
  have hSplit : (node.chunks.take count).flatten ++ (node.chunks.drop count).flatten =
      node.chunks.flatten := by
    rw [← List.flatten_append, List.take_append_drop]
  refine ⟨(node.chunks.drop count).flatten, ?_, ?_⟩
  · intro hNone
    rw [hNone, List.append_nil] at hSplit
    rw [hSplit] at hKept
    omega
  · rw [hSplit, flatten_chunks]

/-- What a forward stream holds behind its earlier contents. -/
theorem cutShort_of_holds {node : Node} {stream after : Stream} {count : Nat}
    (hForward : stream.direction = .forward)
    (hShort : stream.remaining < node.chunks.flatten.length)
    (hLongest : ∀ n, (node.chunks.take n).flatten.length ≤ stream.remaining ↔ n ≤ count)
    (hAfter : Stream.Holds stream.direction stream.buffer
      ([stream.contents.data.toList] ++ node.chunks.take count) after) :
    CutShort node stream count after := by
  have hContents := stream.toList_contents
  have hEarlier := stream.holds_contents.written
  rw [hForward] at hContents hAfter
  rw [List.flatten_singleton] at hEarlier
  have hWritten := hAfter.written
  rw [List.flatten_append, List.flatten_singleton, List.length_append, ← hEarlier] at hWritten
  have hBytes := hAfter.bytes
  simp only [Direction.place, hAfter.length_arrange, hWritten] at hBytes
  simp only [Direction.arrange, List.flatten_append, List.flatten_singleton, hContents] at hBytes
  exact
    { longest := hLongest
      proper := exists_missing ((hLongest count).2 (Nat.le_refl _)) hShort
      direction := hAfter.direction_eq
      written := hWritten
      bytes := hBytes }

/-- **Room for the whole or for a part.**  A tree that cannot be measured leaves any stream as it
was.  A tree that can be measured is written exactly if the stream, filled in either direction, has
room for its total, and otherwise the only complaint is about the room.  A forward stream that is
too small has then taken the longest run of whole chunks that fits, which is a proper part of the
encoding; what stood before it and what stands behind it is as it was. -/
theorem write_on_any_stream (node : Node) (stream : Stream) :
    (∀ error, Layout.ofNode node = .error error → node.write stream = .error error stream) ∧
      ∀ layout, Layout.ofNode node = .ok layout →
        ((∃ after, node.write stream = .ok () after) ↔ layout.total.toNat ≤ stream.remaining) ∧
          (stream.remaining < layout.total.toNat →
            ∃ after, node.write stream = .error .bufferTooSmall after ∧
              (stream.direction = .forward → ∃ count, CutShort node stream count after)) := by
  constructor
  · intro error hError
    unfold write
    rw [hError]
  intro layout hLayout
  have hTotal : layout.total.toNat = node.chunks.flatten.length := by
    rw [flatten_chunks, (Layout.spells_of_ofNode hLayout).2]
  rw [write_eq_writeAll hLayout, hTotal]
  by_cases hRoom : node.chunks.flatten.length ≤ stream.remaining
  · obtain ⟨after, hWrite, -⟩ := Stream.writeAll_of_fits stream.holds_contents hRoom
    refine ⟨⟨fun _ => hRoom, fun _ => ⟨after, hWrite⟩⟩, fun hShort => ?_⟩
    omega
  · have hShort := Nat.not_le.1 hRoom
    obtain ⟨count, after, hWrite, hAfter, hLongest⟩ :=
      Stream.writeAll_of_short stream.holds_contents hShort
    refine ⟨⟨?_, fun hFits => absurd hFits hRoom⟩, fun _ => ⟨after, hWrite, ?_⟩⟩
    · rintro ⟨_, hOk⟩
      rw [hWrite] at hOk
      cases hOk
    · intro hForward
      exact ⟨count, cutShort_of_holds hForward hShort hLongest hAfter⟩

/-- A device of seven bytes on a stream with room for six: the two opcode bytes and the length field
are written, the name of four bytes is not. -/
theorem write_on_any_stream_device :
    let device : Node := .object (Head.extended Opcode.deviceExt)
      [.data [0x48, 0x50, 0x45, 0x54].toByteArray] []
    let stream : Stream := ⟨.forward, (List.replicate 8 0xAA).toByteArray, 2, by decide⟩
    Layout.ofNode device = .ok ⟨#[⟨5, 1⟩], 7⟩ ∧ stream.remaining = 6 ∧
      ∃ after, device.write stream = .error .bufferTooSmall after ∧ after.written = 5 ∧
        after.buffer.data.toList = [0xAA, 0xAA, 0x5B, 0x82, 0x05, 0xAA, 0xAA, 0xAA] := by
  intro device stream
  have hLayout : Layout.ofNode device = .ok ⟨#[⟨5, 1⟩], 7⟩ := by rfl
  have hChunks : device.chunks = [[0x5B], [0x82], [0x05], [0x48, 0x50, 0x45, 0x54]] := by rfl
  obtain ⟨after, hWrite, hCut⟩ :=
    ((write_on_any_stream device stream).2 _ hLayout).2 (by decide)
  obtain ⟨count, hCut⟩ := hCut rfl
  have hThree := hCut.longest 3
  have hFour := hCut.longest 4
  rw [hChunks] at hThree hFour
  have hCount : count = 3 := by
    have hFits := hThree.1 (by decide)
    have hLong := mt hFour.2 (by decide)
    omega
  have hWritten := hCut.written
  have hBytes := hCut.bytes
  rw [hCount, hChunks] at hWritten hBytes
  exact ⟨hLayout, rfl, after, hWrite, hWritten, hBytes⟩

end Node

end Acpi
