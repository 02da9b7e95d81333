import Acpi.Proofs.PkgLength
import Acpi.Proofs.Written

/-!
# The encoding of a tree

What a tree means in bytes, said without measuring first and without a buffer.

* `Node.encode` is the encoding, by recursion over the written arguments.  The length field of an
  object is made from the number of bytes that its body turned out to have.
* `Node.chunks` is the same encoding, cut where one chunk ends and the next begins.
* `Node.plan` is what measuring is to find: the size of a tree and its length fields in the order of
  writing, computed from sizes alone and without any limit.
* `Node.Encodable` says which trees can be measured at all, their size apart: no block stands below
  the top, every opcode is well formed, and every object that carries a length has one.

For an encodable tree the two agree: `Encodable.length_encode`.
-/

namespace Acpi

theorem Bytes.toByteArray_toList (bytes : ByteArray) : bytes.data.toList.toByteArray = bytes := by
  apply ByteArray.ext
  rw [List.data_toByteArray]

namespace Head

/-- The bytes of the opcode: one or two, and none for a pseudo object. -/
def opcodeBytes (head : Head) : List UInt8 :=
  if head.pseudo then [] else head.opcode :: head.sub.toList

/-- Whether a length field is written.  A pseudo object has none, whatever it says of itself. -/
def hasLength (head : Head) : Bool := !head.pseudo && head.packaged

theorem opcodeBytes_of_pseudo {head : Head} (h : head.pseudo = true) : head.opcodeBytes = [] := by
  rw [opcodeBytes, if_pos h]

theorem hasLength_of_pseudo {head : Head} (h : head.pseudo = true) : head.hasLength = false := by
  rw [hasLength, h, Bool.not_true, Bool.false_and]

theorem hasLength_of_not_pseudo {head : Head} (h : ¬ head.pseudo = true) :
    head.hasLength = head.packaged := by
  rw [hasLength, eq_false_of_ne_true h, Bool.not_false, Bool.true_and]

/-- The length field in front of a payload, if the object has one and the payload allows it. -/
def lengthField (head : Head) (payload : Nat) : List PkgLength :=
  if head.hasLength then (PkgLength.ofPayload? payload).toList else []

/-- A second opcode byte stands exactly behind the lead byte of extended opcodes; a pseudo object is
free. -/
def WellPaired (head : Head) : Prop :=
  head.pseudo = true ∨ ((head.opcode == Opcode.extended) == head.sub.isSome) = true

instance (head : Head) : Decidable head.WellPaired := inferInstanceAs (Decidable (_ ∨ _))

/-- The opcode of a well-paired head takes the bytes that are written for it. -/
theorem opcodeSize_eq_ok_iff {head : Head} {size : Nat} :
    head.opcodeSize = .ok size ↔ head.WellPaired ∧ size = head.opcodeBytes.length := by
  unfold opcodeSize WellPaired opcodeBytes
  by_cases hPseudo : head.pseudo = true
  · rw [if_pos hPseudo, if_pos hPseudo, Except.ok.injEq]
    exact ⟨fun h => ⟨Or.inl hPseudo, h.symm⟩, fun h => h.2.symm⟩
  · rw [if_neg hPseudo, if_neg hPseudo]
    by_cases hPair : ((head.opcode == Opcode.extended) == head.sub.isSome) = true
    · have hLength : (if head.sub.isSome then 2 else 1) =
          (head.opcode :: head.sub.toList).length := by
        cases head.sub <;> rfl
      rw [if_pos hPair, Except.ok.injEq, hLength]
      exact ⟨fun h => ⟨Or.inr hPair, h.symm⟩, fun h => h.2.symm⟩
    · rw [if_neg hPair]
      constructor
      · intro h
        cases h
      · rintro ⟨hPseudo' | hPair', -⟩
        · exact absurd hPseudo' hPseudo
        · exact absurd hPair' hPair

theorem opcodeSize_of_not_wellPaired {head : Head} (h : ¬ head.WellPaired) :
    head.opcodeSize = .error .invalidTree := by
  obtain ⟨hPseudo, hPair⟩ := not_or.1 h
  rw [opcodeSize, if_neg hPseudo, if_neg hPair]

end Head

namespace Node

/-! ## The direct encoding -/

/-- The encoding of a tree: data as they are; an object as its opcode, the length of its body if it
carries one, and its body; a block as its header and its terms. -/
def encode : Node → List UInt8 :=
  fold
    { block := fun header terms => header.bytes ++ terms.flatten
      data := fun bytes => bytes.data.toList
      object := fun head args =>
        head.opcodeBytes ++ (head.lengthField args.flatten.length).flatMap PkgLength.bytes ++
          args.flatten }

@[simp] theorem encode_block (header : Header) (body : List Node) :
    encode (.block header body) = header.bytes ++ body.flatMap encode := by
  rw [encode, fold_block, ← encode, List.flatMap_def]

@[simp] theorem encode_data (bytes : ByteArray) : encode (.data bytes) = bytes.data.toList := by
  rw [encode, fold_data]

theorem encode_object (head : Head) (fixed body : List Node) :
    encode (.object head fixed body) =
      head.opcodeBytes ++
        (head.lengthField ((head.writtenArgs fixed body).flatMap encode).length).flatMap
          PkgLength.bytes ++
        (head.writtenArgs fixed body).flatMap encode := by
  rw [encode, fold_object, ← encode]
  simp only [List.flatMap_def]

/-! ## The chunks of the encoding -/

/-- The encoding in chunks: every byte of an opcode, every length field and the bytes of every data
node stand by themselves, and so does the header of a block. -/
def chunks : Node → List (List UInt8) :=
  fold
    { block := fun header terms => header.bytes :: terms.flatten
      data := fun bytes => [bytes.data.toList]
      object := fun head args =>
        head.opcodeBytes.map (fun byte => [byte]) ++
          (head.lengthField args.flatten.flatten.length).map PkgLength.bytes ++ args.flatten }

theorem chunks_block (header : Header) (body : List Node) :
    chunks (.block header body) = header.bytes :: body.flatMap chunks := by
  rw [chunks, fold_block, ← chunks, List.flatMap_def]

theorem chunks_data (bytes : ByteArray) : chunks (.data bytes) = [bytes.data.toList] := by
  rw [chunks, fold_data]

theorem chunks_object (head : Head) (fixed body : List Node) :
    chunks (.object head fixed body) =
      head.opcodeBytes.map (fun byte => [byte]) ++
        (head.lengthField ((head.writtenArgs fixed body).flatMap chunks).flatten.length).map
          PkgLength.bytes ++
        (head.writtenArgs fixed body).flatMap chunks := by
  rw [chunks, fold_object, ← chunks]
  simp only [List.flatMap_def]

private theorem flatten_flatMap_chunks {nodes : List Node}
    (h : ∀ node ∈ nodes, (chunks node).flatten = encode node) :
    (nodes.flatMap chunks).flatten = nodes.flatMap encode := by
  induction nodes with
  | nil => rfl
  | cons node nodes ih =>
      have hRest := ih fun other hMem => h other (List.mem_cons_of_mem node hMem)
      rw [List.flatMap_cons, List.flatten_append, hRest, h node List.mem_cons_self,
        List.flatMap_cons]

/-- Without the cuts the chunks are the encoding. -/
theorem flatten_chunks (node : Node) : (chunks node).flatten = encode node := by
  induction node using written_induction with
  | block header body ih =>
      rw [chunks_block, List.flatten_cons, flatten_flatMap_chunks ih, encode_block]
  | data bytes => rw [chunks_data, List.flatten_singleton, encode_data]
  | object head fixed body ih =>
      have hOpcode : (head.opcodeBytes.map fun byte => [byte]).flatten = head.opcodeBytes := by
        rw [← List.flatMap_def, List.flatMap_singleton']
      rw [chunks_object, List.flatten_append, List.flatten_append, hOpcode, ← List.flatMap_def,
        flatten_flatMap_chunks ih, encode_object]

theorem flatten_chunks_all (nodes : List Node) :
    (nodes.flatMap chunks).flatten = nodes.flatMap encode :=
  flatten_flatMap_chunks fun node _ => flatten_chunks node

/-! ## Size and length fields -/

/-- The size of a tree and its length fields in the order of writing. -/
structure Plan where
  size : Nat
  lengths : List PkgLength
  deriving DecidableEq, Repr

/-- The plan of an object, from the size of its body and the length fields in it. -/
def Plan.ofObject (head : Head) (payload : Nat) (lengths : List PkgLength) : Plan where
  size := head.opcodeBytes.length + (if head.hasLength then PkgLength.neededWidth payload else 0) +
    payload
  lengths := head.lengthField payload ++ lengths

theorem Plan.ofObject_of_length {head : Head} (h : head.hasLength = true) (payload : Nat)
    (lengths : List PkgLength) :
    Plan.ofObject head payload lengths =
      ⟨head.opcodeBytes.length + PkgLength.neededWidth payload + payload,
        (PkgLength.ofPayload? payload).toList ++ lengths⟩ := by
  rw [Plan.ofObject, Head.lengthField, if_pos h, if_pos h]

theorem Plan.ofObject_of_no_length {head : Head} (h : head.hasLength = false) (payload : Nat)
    (lengths : List PkgLength) :
    Plan.ofObject head payload lengths = ⟨head.opcodeBytes.length + payload, lengths⟩ := by
  simp [Plan.ofObject, Head.lengthField, h]

/-- The plan of a tree below the top.  A block, which has no place there, counts for nothing. -/
def plan : Node → Plan :=
  fold
    { block := fun _ _ => ⟨0, []⟩
      data := fun bytes => ⟨bytes.size, []⟩
      object := fun head args =>
        .ofObject head (args.foldr (fun arg size => arg.size + size) 0)
          (args.flatMap Plan.lengths) }

/-- The size of some trees one behind the other. -/
def planSize (nodes : List Node) : Nat := nodes.foldr (fun node size => node.plan.size + size) 0

/-- The length fields of some trees one behind the other. -/
def planLengths (nodes : List Node) : List PkgLength := nodes.flatMap fun node => node.plan.lengths

theorem plan_data (bytes : ByteArray) : plan (.data bytes) = ⟨bytes.size, []⟩ := by
  rw [plan, fold_data]

theorem plan_object (head : Head) (fixed body : List Node) :
    plan (.object head fixed body) =
      .ofObject head (planSize (head.writtenArgs fixed body))
        (planLengths (head.writtenArgs fixed body)) := by
  rw [plan, fold_object, ← plan]
  simp only [planSize, planLengths, List.foldr_map, List.flatMap_map]

theorem planSize_cons (node : Node) (nodes : List Node) :
    planSize (node :: nodes) = node.plan.size + planSize nodes := by
  rw [planSize, planSize, List.foldr_cons]

theorem planSize_append (nodes more : List Node) :
    planSize (nodes ++ more) = planSize nodes + planSize more := by
  induction nodes with
  | nil => exact (Nat.zero_add _).symm
  | cons node nodes ih => rw [List.cons_append, planSize_cons, planSize_cons, ih, Nat.add_assoc]

theorem size_le_planSize {node : Node} {nodes : List Node} (hMem : node ∈ nodes) :
    node.plan.size ≤ planSize nodes := by
  induction hMem with
  | head => rw [planSize_cons]; omega
  | tail _ _ ih => rw [planSize_cons]; omega

theorem planLengths_cons (node : Node) (nodes : List Node) :
    planLengths (node :: nodes) = node.plan.lengths ++ planLengths nodes := by
  rw [planLengths, planLengths, List.flatMap_cons]

/-- What is written below the top: the terms of a block, or the tree itself. -/
def terms : Node → List Node
  | .block _ body => body
  | node => [node]

/-- The bytes that a whole tree takes, as a natural number.  A block has a header. -/
def exactSize : Node → Nat
  | .block _ body => Header.size + planSize body
  | node => node.plan.size

/-! ## Trees that have an encoding -/

/-- A tree below the top that can be measured, unless it is too large as a whole. -/
inductive Encodable : Node → Prop
  | data (bytes : ByteArray) : Encodable (.data bytes)
  | object (head : Head) (fixed body : List Node)
      (args : ∀ node ∈ head.writtenArgs fixed body, Encodable node)
      (paired : head.WellPaired)
      (length : head.hasLength = true →
        (PkgLength.ofPayload? (planSize (head.writtenArgs fixed body))).isSome) :
      Encodable (.object head fixed body)

theorem encodable_object_iff {head : Head} {fixed body : List Node} :
    Encodable (.object head fixed body) ↔
      (∀ node ∈ head.writtenArgs fixed body, Encodable node) ∧ head.WellPaired ∧
        (head.hasLength = true →
          (PkgLength.ofPayload? (planSize (head.writtenArgs fixed body))).isSome) := by
  constructor
  · rintro (_ | ⟨_, _, _, hArgs, hPaired, hLength⟩)
    exact ⟨hArgs, hPaired, hLength⟩
  · rintro ⟨hArgs, hPaired, hLength⟩
    exact .object head fixed body hArgs hPaired hLength

theorem Encodable.of_mem_body {head : Head} {fixed body : List Node}
    (h : Encodable (.object head fixed body)) {node : Node} (hMem : node ∈ body) :
    Encodable node :=
  (encodable_object_iff.1 h).1 node (List.mem_append_right _ hMem)

/-- A length field takes the width that its payload needs. -/
private theorem length_lengthField {head : Head} {payload : Nat}
    (h : head.hasLength = true → (PkgLength.ofPayload? payload).isSome) :
    ((head.lengthField payload).flatMap PkgLength.bytes).length =
      if head.hasLength then PkgLength.neededWidth payload else 0 := by
  unfold Head.lengthField
  split
  next hHas =>
    obtain ⟨length, hLength⟩ := Option.isSome_iff_exists.1 (h hHas)
    have hFits := (PkgLength.fits_of_ofPayload? hLength).1
    rw [hLength, Option.toList_some, List.flatMap_singleton, PkgLength.length_bytes hFits,
      PkgLength.width_of_ofPayload? hLength]
  next => rfl

/-- Encodings one behind the other are as long as planned, if each of them is. -/
private theorem length_flatMap_encode {nodes : List Node}
    (h : ∀ node ∈ nodes, (encode node).length = node.plan.size) :
    (nodes.flatMap encode).length = planSize nodes := by
  induction nodes with
  | nil => rfl
  | cons node nodes ih =>
      have hRest := ih fun other hMem => h other (List.mem_cons_of_mem node hMem)
      rw [List.flatMap_cons, List.length_append, planSize_cons, hRest, h node List.mem_cons_self]

/-- An encodable tree takes as many bytes as planned. -/
theorem Encodable.length_encode {node : Node} (h : Encodable node) :
    (encode node).length = node.plan.size := by
  induction h with
  | data bytes => rw [encode_data, plan_data]; rfl
  | object head fixed body _ _ hLength ih =>
      have hBody : ((head.writtenArgs fixed body).flatMap encode).length =
          planSize (head.writtenArgs fixed body) := length_flatMap_encode ih
      rw [encode_object, plan_object, List.length_append, List.length_append, hBody,
        length_lengthField hLength]
      rfl

theorem length_encode_all {nodes : List Node} (h : ∀ node ∈ nodes, Encodable node) :
    (nodes.flatMap encode).length = planSize nodes :=
  length_flatMap_encode fun node hMem => (h node hMem).length_encode

end Node

end Acpi
