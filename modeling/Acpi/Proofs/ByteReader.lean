import Acpi.Proofs.Encoding
import Acpi.Tree.Term
import Mathlib.Data.List.Forall2

/-!
# Readers of bytes

A reader takes an item off the front of some bytes and gives back what stands behind it.  An
encoding is self-delimiting for a reader if the reader takes exactly the encoding, whatever stands
behind it (`Takes`).  That is the one form in which the modules on names, data objects and terms say
that something reads back.

Inside an object the items follow one another up to its end, and `readAll` reads them so.  What is
read there is never longer than what is left of the object, so a reader may call itself through
`readAll` for the objects inside an object, as long as it refuses anything that is not shorter
(`readAll_shorter`).
-/

namespace Acpi

/-- Takes an item off the front of some bytes, if there is one. -/
abbrev ByteReader (α : Type) := List UInt8 → Option (α × List UInt8)

namespace ByteReader

variable {α : Type}

/-- The reader takes exactly these bytes, whatever stands behind them, and gives this item. -/
def Takes (read : ByteReader α) (bytes : List UInt8) (item : α) : Prop :=
  ∀ rest, read (bytes ++ rest) = some (item, rest)

theorem Takes.whole {read : ByteReader α} {bytes : List UInt8} {item : α}
    (h : Takes read bytes item) : read bytes = some (item, []) := by
  simpa using h []

/-- The same bytes, as another item. -/
def map {β : Type} (f : α → β) (read : ByteReader α) : ByteReader β := fun bytes =>
  (read bytes).map fun (item, rest) => (f item, rest)

theorem Takes.map {β : Type} {read : ByteReader α} {bytes : List UInt8} {item : α}
    (h : Takes read bytes item) (f : α → β) : Takes (ByteReader.map f read) bytes (f item) := by
  intro rest
  rw [ByteReader.map, h, Option.map_some]

/-! ## Characters -/

/-- The character that a byte stands for in a text. -/
def charOf (byte : UInt8) : Char := Char.ofNat byte.toNat

theorem toNat_ofNat_char {c : Char} (h : c.toNat < 128) :
    (UInt8.ofNat c.toNat).toNat = c.toNat := by
  rw [UInt8.toNat_ofNat']
  omega

theorem charOf_ofNat {c : Char} (h : c.toNat < 128) : charOf (UInt8.ofNat c.toNat) = c := by
  rw [charOf, toNat_ofNat_char h, Char.ofNat_toNat]

/-- A text of plain characters survives as bytes. -/
theorem map_charOf {text : List Char} (h : ∀ c ∈ text, c.toNat < 128) :
    (text.map fun c => UInt8.ofNat c.toNat).map charOf = text := by
  rw [List.map_map]
  exact (List.map_congr_left fun c hMem => charOf_ofNat (h c hMem)).trans (List.map_id text)

/-! ## Items up to the end -/

/-- Reads items until no byte is left.  A reader that takes nothing would never come to the end, so
each item must leave fewer bytes than there were. -/
def readAll (read : ByteReader α) (bytes : List UInt8) : Option (List α) :=
  if bytes.isEmpty then
    some []
  else
    match read bytes with
    | some (item, rest) =>
        if rest.length < bytes.length then
          (readAll read rest).map (item :: ·)
        else
          none
    | none => none
termination_by bytes.length

theorem readAll_nil (read : ByteReader α) : readAll read [] = some [] := by
  rw [readAll]
  rfl

/-- One step of reading to the end. -/
theorem readAll_of_read {read : ByteReader α} {bytes rest : List UInt8} {item : α}
    (hRead : read bytes = some (item, rest)) (hShorter : rest.length < bytes.length) :
    readAll read bytes = (readAll read rest).map (item :: ·) := by
  have hSome : ¬ bytes.isEmpty = true := by
    rintro hEmpty
    rw [List.isEmpty_iff.1 hEmpty] at hShorter
    cases hShorter
  rw [readAll.eq_def, if_neg hSome, hRead]
  simp only [if_pos hShorter]

/-- Encodings one behind the other are read one after the other. -/
theorem readAll_flatten {read : ByteReader α} (hEmpty : read [] = none) {pieces : List (List UInt8)}
    {items : List α} (h : List.Forall₂ (Takes read) pieces items) :
    readAll read pieces.flatten = some items := by
  induction h with
  | nil => exact readAll_nil read
  | @cons piece item pieces items hPiece hPieces ih =>
      -- A reader that refuses the end cannot have taken an item from nothing.
      have hNonempty : piece ≠ [] := by
        rintro rfl
        rw [hPiece.whole] at hEmpty
        cases hEmpty
      have hShorter : pieces.flatten.length < (piece ++ pieces.flatten).length := by
        have := List.length_pos_iff.2 hNonempty
        rw [List.length_append]
        omega
      rw [List.flatten_cons, readAll_of_read (hPiece _) hShorter, ih, Option.map_some]

/-- A bound on what is read makes no difference if all bytes together keep it. -/
theorem readAll_shorter (read : ByteReader α) {bound : Nat} {bytes : List UInt8}
    (h : bytes.length < bound) :
    readAll (fun piece => if piece.length < bound then read piece else none) bytes =
      readAll read bytes := by
  fun_induction readAll read bytes with
  | case1 bytes hEmpty => rw [List.isEmpty_iff.1 hEmpty, readAll_nil]
  | case2 bytes hEmpty item rest hRead hShorter ih =>
      have hRead' : (if bytes.length < bound then read bytes else none) = some (item, rest) := by
        rw [if_pos h, hRead]
      rw [readAll_of_read hRead' hShorter, ih (Nat.lt_trans hShorter h)]
  | case3 bytes hEmpty item rest hRead hLong =>
      rw [readAll, if_neg hEmpty, if_pos h, hRead]
      simp only [if_neg hLong]
  | case4 bytes hEmpty hRead =>
      rw [readAll, if_neg hEmpty, if_pos h, hRead]

end ByteReader

/-! ## Trees -/

theorem Term.encode_raw (bytes : List UInt8) : Node.encode (Term.raw bytes) = bytes := by
  rw [Term.raw, Node.encode_data, List.data_toByteArray]

namespace Node

open ByteReader (Takes readAll)

variable {α : Type}

/-- If the tree can be encoded at all, the reader takes exactly its encoding and gives this item. -/
def ReadsAs (read : ByteReader α) (node : Node) (item : α) : Prop :=
  node.Encodable → Takes read (encode node) item

/-- The bytes behind the length field of an encodable object are as many as the field can count. -/
theorem exists_length {head : Head} {fixed body : List Node}
    (h : Node.Encodable (.object head fixed body)) (hLength : head.hasLength = true) :
    ∃ length, PkgLength.ofPayload? ((head.writtenArgs fixed body).flatMap encode).length =
      some length := by
  obtain ⟨hArgs, -, hSome⟩ := encodable_object_iff.1 h
  rw [length_encode_all hArgs]
  exact Option.isSome_iff_exists.1 (hSome hLength)

/-- Behind its opcode an object with a length field is read as the encodings of its arguments. -/
theorem takes_content {head : Head} {fixed body : List Node}
    (h : Node.Encodable (.object head fixed body)) (hLength : head.hasLength = true) :
    ∃ field, encode (.object head fixed body) = head.opcodeBytes ++ field ∧
      Takes PkgLength.split? field ((head.writtenArgs fixed body).flatMap encode) := by
  obtain ⟨length, hPayload⟩ := exists_length h hLength
  refine ⟨_, ?_, PkgLength.split?_bytes hPayload⟩
  rw [encode_object, Head.lengthField, if_pos hLength, hPayload, Option.toList_some,
    List.flatMap_singleton, List.append_assoc]

/-- Behind its opcode a named object with a length field is read as its name and its terms. -/
theorem takes_named {head : Head} {name : List UInt8} {body : List Node}
    (h : Node.Encodable (.object head [Term.raw name] body)) (hLength : head.hasLength = true)
    (hInvocation : head.invocation = false) :
    ∃ field, encode (.object head [Term.raw name] body) = head.opcodeBytes ++ field ∧
      Takes PkgLength.split? field (name ++ body.flatMap encode) := by
  obtain ⟨field, hEncode, hField⟩ := takes_content h hLength
  rw [Head.writtenArgs, hInvocation, if_neg Bool.false_ne_true, List.singleton_append,
    List.flatMap_cons, Term.encode_raw] at hField
  exact ⟨field, hEncode, hField⟩

/-- A value under a name is its opcode, the name and the value. -/
theorem encode_name {name : List UInt8} {value : Node}
    (h : Node.Encodable (Term.object Opcode.nameOp [Term.raw name, value] [])) :
    value.Encodable ∧ encode (Term.object Opcode.nameOp [Term.raw name, value] []) =
      Opcode.nameOp :: (name ++ encode value) := by
  refine ⟨(encodable_object_iff.1 h).1 value (by simp [Head.writtenArgs, Head.plain]), ?_⟩
  rw [Term.object, encode_object]
  show Opcode.nameOp :: ([] ++ [Term.raw name, value].flatMap encode) = _
  rw [List.flatMap_cons, List.flatMap_singleton, Term.encode_raw, List.nil_append]

/-- Trees that each read back are read one after the other. -/
theorem readAll_encode {read : ByteReader α} (hEmpty : read [] = none) {nodes : List Node}
    {items : List α} (h : List.Forall₂ (ReadsAs read) nodes items)
    (hNodes : ∀ node ∈ nodes, node.Encodable) :
    readAll read (nodes.flatMap encode) = some items := by
  rw [List.flatMap_def]
  apply ByteReader.readAll_flatten hEmpty
  induction h with
  | nil => exact .nil
  | @cons node item nodes items hNode _ ih =>
      refine .cons (hNode (hNodes node List.mem_cons_self)) (ih fun other hMem => ?_)
      exact hNodes other (List.mem_cons_of_mem node hMem)

/-- What can be built piece by piece can be built as a list. -/
theorem exists_mapM {build : α → Except TermError Node} {P : Node → α → Prop} {items : List α}
    (h : ∀ item ∈ items, ∃ node, build item = .ok node ∧ P node item) :
    ∃ nodes, items.mapM build = .ok nodes ∧ List.Forall₂ P nodes items := by
  induction items with
  | nil => exact ⟨[], rfl, .nil⟩
  | cons item items ih =>
      obtain ⟨node, hNode, hItem⟩ := h item List.mem_cons_self
      obtain ⟨nodes, hNodes, hItems⟩ := ih fun other hMem =>
        h other (List.mem_cons_of_mem item hMem)
      refine ⟨node :: nodes, ?_, .cons hItem hItems⟩
      rw [List.mapM_cons, hNode, hNodes]
      rfl

end Node

/-- There are results for a list exactly if there is one for each of its items. -/
theorem exists_forall₂_iff {α β : Type} {R : α → β → Prop} {items : List α} :
    (∃ results, List.Forall₂ R items results) ↔ ∀ item ∈ items, ∃ result, R item result := by
  induction items with
  | nil => simp
  | cons item items ih =>
      rw [List.forall_mem_cons, ← ih]
      constructor
      · rintro ⟨_, _ | ⟨hItem, hItems⟩⟩
        exact ⟨⟨_, hItem⟩, _, hItems⟩
      · rintro ⟨⟨result, hItem⟩, results, hItems⟩
        exact ⟨result :: results, .cons hItem hItems⟩

end Acpi
