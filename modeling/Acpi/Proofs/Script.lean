import Acpi.Proofs.Encoding
import Acpi.Proofs.Stream

/-!
# The script of a tree

A writer walks a tree, but all that reaches its stream and its list of package lengths is a flat
sequence of orders: write this chunk, write the next package length, refuse.  `Node.script` is that
sequence and `Writer.writeNode_eq` says that writing a tree is carrying it out.  From here on the
shape of the tree no longer matters, and facts about writing are inductions over a list.

`Cuts script lengths chunks` says that a script comes to exactly these chunks if it is given exactly
these package lengths, and `Spells` says the same of the bytes in them.  The script of an encodable
tree, given the lengths that were planned for it, comes to the chunks of its encoding
(`Node.Encodable.cuts`), and a writer that carries out a script with enough room writes what is
spelled (`Writer.obeyAll_eq`).
-/

namespace Acpi

/-- One thing that a writer is told to do. -/
inductive Order where
  /-- Write these bytes as one chunk. -/
  | chunk (bytes : List UInt8)
  /-- Take the next package length and write its field as one chunk. -/
  | length
  /-- Fail, because a block stands below the top. -/
  | refuse
  deriving DecidableEq, Repr

namespace Writer

/-- Carries out one order. -/
def obey : Order → WriteM Unit
  | .chunk bytes => writeChunk bytes.toByteArray
  | .length => do
      let length ← nextLength
      writeChunk length.bytes.toByteArray
  | .refuse => throw .invalidTree

/-- Carries out orders one after the other. -/
def obeyAll : List Order → WriteM Unit
  | [] => pure ()
  | order :: orders => do
      obey order
      obeyAll orders

theorem obeyAll_append (orders more : List Order) :
    obeyAll (orders ++ more) = (do obeyAll orders; obeyAll more) := by
  induction orders with
  | nil => simp [obeyAll]
  | cons order orders ih => simp [obeyAll, ih]

end Writer

/-! ## From trees to scripts -/

/-- The orders for what stands in front of the arguments of an object. -/
def Head.script (head : Head) : List Order :=
  if head.pseudo then
    []
  else
    .chunk [head.opcode] :: head.sub.toList.map (fun sub => .chunk [sub]) ++
      if head.packaged then [.length] else []

namespace Node

/-- The orders for a tree below the top. -/
def script : Node → List Order :=
  fold
    { block := fun _ _ => [.refuse]
      data := fun bytes => [.chunk bytes.data.toList]
      object := fun head args => head.script ++ args.flatten }

theorem script_block (header : Header) (body : List Node) :
    script (.block header body) = [.refuse] := by
  rw [script, fold_block]

theorem script_data (bytes : ByteArray) : script (.data bytes) = [.chunk bytes.data.toList] := by
  rw [script, fold_data]

theorem script_object (head : Head) (fixed body : List Node) :
    script (.object head fixed body) =
      head.script ++ (head.writtenArgs fixed body).flatMap script := by
  rw [script, fold_object, ← script, List.flatMap_def]

/-- The orders for a whole tree; a block starts with its header. -/
def topScript : Node → List Order
  | .block header body => .chunk header.bytes :: body.flatMap script
  | node => node.script

end Node

namespace Writer

theorem writeHead_eq (head : Head) : writeHead head = obeyAll head.script := by
  unfold writeHead Head.script
  by_cases hPseudo : head.pseudo = true
  · simp [hPseudo, obeyAll]
  · cases head.sub <;> cases head.packaged <;> simp [hPseudo, obeyAll, obey] <;> rfl

private theorem writeNodes_eq_of_each {nodes : List Node}
    (hEach : ∀ node ∈ nodes, writeNode node = obeyAll node.script) :
    writeNodes nodes = obeyAll (nodes.flatMap Node.script) := by
  induction nodes with
  | nil => rw [writeNodes, List.flatMap_nil, obeyAll]
  | cons node nodes ih =>
      have hRest := ih fun other hMem => hEach other (List.mem_cons_of_mem node hMem)
      rw [writeNodes, List.flatMap_cons, obeyAll_append, hRest, hEach node List.mem_cons_self]

/-- Writing a tree is carrying out its script. -/
theorem writeNode_eq (node : Node) : writeNode node = obeyAll node.script := by
  induction node using Node.written_induction with
  | block header body _ => rw [writeNode, Node.script_block, obeyAll, obeyAll]; rfl
  | data bytes =>
      rw [writeNode, Node.script_data, obeyAll, obeyAll, obey, Bytes.toByteArray_toList]
      exact bind_pure_unit.symm
  | object head fixed body ih =>
      rw [writeNode_object, Node.script_object, obeyAll_append, writeHead_eq,
        writeNodes_eq_of_each ih]

theorem writeNodes_eq (nodes : List Node) :
    writeNodes nodes = obeyAll (nodes.flatMap Node.script) :=
  writeNodes_eq_of_each fun node _ => writeNode_eq node

/-- Writing a whole tree is carrying out its script, header included. -/
theorem writeTop_eq (node : Node) : writeTop node = obeyAll node.topScript := by
  cases node with
  | block header body => rw [writeTop, Node.topScript, obeyAll, obey, writeNodes_eq]
  | data bytes => exact writeNode_eq (.data bytes)
  | object head fixed body => exact writeNode_eq (.object head fixed body)

end Writer

/-! ## What a script comes to -/

/-- Given exactly these package lengths, the script comes to exactly these chunks. -/
inductive Cuts : List Order → List PkgLength → List (List UInt8) → Prop
  | nil : Cuts [] [] []
  | chunk (bytes : List UInt8) {orders : List Order} {lengths : List PkgLength}
      {chunks : List (List UInt8)} (h : Cuts orders lengths chunks) :
      Cuts (.chunk bytes :: orders) lengths (bytes :: chunks)
  | length (length : PkgLength) {orders : List Order} {lengths : List PkgLength}
      {chunks : List (List UInt8)} (h : Cuts orders lengths chunks) :
      Cuts (.length :: orders) (length :: lengths) (length.bytes :: chunks)

/-- Given exactly these package lengths, the script comes to exactly these bytes. -/
inductive Spells : List Order → List PkgLength → List UInt8 → Prop
  | nil : Spells [] [] []
  | chunk (bytes : List UInt8) {orders : List Order} {lengths : List PkgLength}
      {rest : List UInt8} (h : Spells orders lengths rest) :
      Spells (.chunk bytes :: orders) lengths (bytes ++ rest)
  | length (length : PkgLength) {orders : List Order} {lengths : List PkgLength}
      {rest : List UInt8} (h : Spells orders lengths rest) :
      Spells (.length :: orders) (length :: lengths) (length.bytes ++ rest)

namespace Cuts

theorem append {orders more : List Order} {lengths moreLengths : List PkgLength}
    {chunks moreChunks : List (List UInt8)} (h : Cuts orders lengths chunks)
    (hMore : Cuts more moreLengths moreChunks) :
    Cuts (orders ++ more) (lengths ++ moreLengths) (chunks ++ moreChunks) := by
  induction h with
  | nil => exact hMore
  | chunk bytes _ ih => exact .chunk bytes ih
  | length length _ ih => exact .length length ih

theorem spells {orders : List Order} {lengths : List PkgLength} {chunks : List (List UInt8)}
    (h : Cuts orders lengths chunks) : Spells orders lengths chunks.flatten := by
  induction h with
  | nil => exact .nil
  | chunk bytes _ ih => exact .chunk bytes ih
  | length length _ ih => exact .length length ih

theorem singles (parts : List UInt8) :
    Cuts (parts.map fun byte => .chunk [byte]) [] (parts.map fun byte => [byte]) := by
  induction parts with
  | nil => exact .nil
  | cons byte parts ih => exact .chunk [byte] ih

/-- The head of an object comes to its opcode and the length field that it is given. -/
theorem head {head : Head} {payload : Nat}
    (h : head.hasLength = true → (PkgLength.ofPayload? payload).isSome) :
    Cuts head.script (head.lengthField payload)
      (head.opcodeBytes.map (fun byte => [byte]) ++
        (head.lengthField payload).map PkgLength.bytes) := by
  unfold Head.script
  by_cases hPseudo : head.pseudo = true
  · rw [if_pos hPseudo, Head.opcodeBytes_of_pseudo hPseudo, Head.lengthField,
      Head.hasLength_of_pseudo hPseudo]
    exact .nil
  · have hOpcode : Cuts (.chunk [head.opcode] :: head.sub.toList.map fun sub => .chunk [sub]) []
        (head.opcodeBytes.map fun byte => [byte]) := by
      rw [Head.opcodeBytes, if_neg hPseudo]
      exact .chunk [head.opcode] (singles head.sub.toList)
    have hHas := Head.hasLength_of_not_pseudo hPseudo
    have hField : Cuts (if head.packaged then [.length] else []) (head.lengthField payload)
        ((head.lengthField payload).map PkgLength.bytes) := by
      rw [Head.lengthField, hHas]
      by_cases hPackaged : head.packaged = true
      · obtain ⟨length, hLength⟩ := Option.isSome_iff_exists.1 (h (hHas.trans hPackaged))
        rw [if_pos hPackaged, if_pos hPackaged, hLength]
        exact .length length .nil
      · rw [if_neg hPackaged, if_neg hPackaged]
        exact .nil
    rw [if_neg hPseudo]
    exact hOpcode.append hField

end Cuts

namespace Node

private theorem cuts_of_each {nodes : List Node}
    (hEach : ∀ node ∈ nodes, Cuts node.script node.plan.lengths node.chunks) :
    Cuts (nodes.flatMap script) (planLengths nodes) (nodes.flatMap chunks) := by
  induction nodes with
  | nil => exact .nil
  | cons node nodes ih =>
      have hRest := ih fun other hMem => hEach other (List.mem_cons_of_mem node hMem)
      rw [planLengths_cons]
      exact (hEach node List.mem_cons_self).append hRest

/-- An encodable tree, given the length fields that were planned for it, comes to the chunks of its
encoding. -/
theorem Encodable.cuts {node : Node} (h : Encodable node) :
    Cuts node.script node.plan.lengths node.chunks := by
  induction h with
  | data bytes =>
      rw [script_data, plan_data, chunks_data]
      exact .chunk bytes.data.toList .nil
  | object head fixed body hArgs _ hLength ih =>
      rw [script_object, plan_object, chunks_object, flatten_chunks_all, length_encode_all hArgs]
      exact (Cuts.head hLength).append (cuts_of_each ih)

theorem cuts_all {nodes : List Node} (h : ∀ node ∈ nodes, Encodable node) :
    Cuts (nodes.flatMap script) (planLengths nodes) (nodes.flatMap chunks) :=
  cuts_of_each fun node hMem => (h node hMem).cuts

theorem Encodable.spells {node : Node} (h : Encodable node) :
    Spells node.script node.plan.lengths (encode node) := by
  rw [← flatten_chunks]
  exact h.cuts.spells

end Node

/-! ## Carrying out a script -/

namespace Writer

theorem writeChunk_of_le {stream : Stream} {chunk : ByteArray} (lengths : List PkgLength)
    (h : chunk.size ≤ stream.remaining) :
    writeChunk chunk ⟨lengths, stream⟩ = .ok () ⟨lengths, stream.put chunk h⟩ := by
  unfold writeChunk EStateM.run
  simp only [Stream.write_of_le h]

/-- One chunk and then what amounts to one more chunk. -/
private theorem chunk_then {stream : Stream} (hForward : stream.direction = .forward)
    {lengths rest : List PkgLength} {bytes more : List UInt8} {next : WriteM Unit}
    (hRoom : (bytes ++ more).length ≤ stream.remaining)
    (hNext : ∀ after : Stream, after.direction = .forward → more.length ≤ after.remaining →
      next ⟨lengths, after⟩ = writeChunk more.toByteArray ⟨rest, after⟩) :
    (writeChunk bytes.toByteArray >>= fun _ => next) ⟨lengths, stream⟩ =
      writeChunk (bytes ++ more).toByteArray ⟨rest, stream⟩ := by
  rw [← List.size_toByteArray] at hRoom
  obtain ⟨hFirst, hSecond, hPut⟩ := Stream.put_append hForward hRoom
  have hLeft : more.length ≤ (stream.put bytes.toByteArray hFirst).remaining := by
    rw [← List.size_toByteArray]
    exact hSecond
  show EStateM.bind (writeChunk bytes.toByteArray) (fun _ => next) ⟨lengths, stream⟩ = _
  unfold EStateM.bind
  simp only [writeChunk_of_le lengths hFirst]
  rw [hNext (stream.put bytes.toByteArray hFirst) hForward hLeft, writeChunk_of_le rest hSecond,
    writeChunk_of_le rest hRoom, hPut]

/-- A forward stream with enough room takes what a script spells as if it were one chunk. -/
theorem obeyAll_eq {orders : List Order} {lengths : List PkgLength} {bytes : List UInt8}
    (h : Spells orders lengths bytes) (rest : List PkgLength) {stream : Stream}
    (hForward : stream.direction = .forward) (hRoom : bytes.length ≤ stream.remaining) :
    obeyAll orders ⟨lengths ++ rest, stream⟩ = writeChunk bytes.toByteArray ⟨rest, stream⟩ := by
  induction h generalizing stream with
  | nil =>
      show EStateM.Result.ok () _ = writeChunk ByteArray.empty _
      unfold writeChunk EStateM.run
      simp only [Stream.write_empty, List.nil_append]
  | chunk bytes _ ih =>
      rw [obeyAll, obey]
      exact chunk_then hForward hRoom fun after hAfter hLeft => ih hAfter hLeft
  | length length _ ih =>
      -- The first package length belongs to this order, the others to the orders behind it.
      have hField := chunk_then hForward hRoom fun after hAfter hLeft => ih hAfter hLeft
      rw [← hField]
      rfl

/-- Writing an encodable tree takes the length fields planned for it and appends its encoding. -/
theorem writeNode_of_room {node : Node} (h : node.Encodable) (rest : List PkgLength)
    {stream : Stream} (hForward : stream.direction = .forward)
    (hRoom : (Node.encode node).length ≤ stream.remaining) :
    writeNode node ⟨node.plan.lengths ++ rest, stream⟩ =
      writeChunk (Node.encode node).toByteArray ⟨rest, stream⟩ := by
  rw [writeNode_eq]
  exact obeyAll_eq h.spells rest hForward hRoom

end Writer

end Acpi
