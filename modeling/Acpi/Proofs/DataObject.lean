import Acpi.Proofs.ByteReader

/-!
# Reading data objects

Integers, strings, buffers and packages as values (`DataObject`), the reader of the grammar for them
(`readData`) and the proof that it takes exactly what building and encoding a value makes of it
(`readsAs_of_valid`).

The first byte tells the kinds apart: strings, buffers and packages have one lead byte each, and all
others lead integers or nothing.  A buffer and a package end where their length field says, and
nothing may be left over there: the bytes of a buffer must be as many as its size tells, and the
elements of a package as many as its count.
-/

namespace Acpi

open ByteReader (Takes charOf map_charOf readAll toNat_ofNat_char)
open Node (encode ReadsAs)

/-- A value of the language. -/
inductive DataObject where
  | integer (value : UInt64)
  | string (text : String)
  | buffer (bytes : ByteArray)
  | package (elements : List DataObject)

namespace DataObject

/-! ## Integers -/

/-- Takes a little-endian word off the front. -/
def readWord (count : Nat) : ByteReader UInt64 := fun bytes =>
  if count ≤ bytes.length then
    some (UInt64.ofNat (LittleEndian.decode (bytes.take count)), bytes.drop count)
  else
    none

/-- Takes an integer constant off the front. -/
def readInteger : ByteReader UInt64
  | [] => none
  | lead :: rest =>
      if lead = 0x00 then
        some (0, rest)
      else if lead = 0x01 then
        some (1, rest)
      else if lead = 0xFF then
        some (0xFFFFFFFFFFFFFFFF, rest)
      else if lead = 0x0A then
        readWord 1 rest
      else if lead = 0x0B then
        readWord 2 rest
      else if lead = 0x0C then
        readWord 4 rest
      else if lead = 0x0E then
        readWord 8 rest
      else
        none

theorem takes_readWord (count : Nat) {value : UInt64}
    (h : value.toNat < LittleEndian.span count) :
    Takes (readWord count) (LittleEndian.encode count value.toNat) value := by
  intro rest
  have hLength := LittleEndian.length_encode count value.toNat
  have hRoom : count ≤ (LittleEndian.encode count value.toNat ++ rest).length := by
    rw [List.length_append]
    omega
  rw [readWord, if_pos hRoom, List.take_left' hLength, List.drop_left' hLength,
    LittleEndian.decode_encode_of_lt h, UInt64.ofNat_toNat]

/-- Reading takes exactly the encoding of an integer. -/
theorem takes_readInteger (value : UInt64) :
    Takes readInteger (encode (Term.integer value)) value := by
  intro rest
  unfold Term.integer
  split
  next h => subst h; rfl
  split
  next h => subst h; rfl
  split
  next h => subst h; rfl
  split
  next h =>
    rw [Term.encode_raw]
    exact takes_readWord 1 h rest
  split
  next h =>
    rw [Term.encode_raw]
    exact takes_readWord 2 h rest
  split
  next h =>
    rw [Term.encode_raw]
    exact takes_readWord 4 h rest
  next =>
    rw [Term.encode_raw]
    exact takes_readWord 8 value.toNat_lt rest

/-! ## Strings -/

/-- Takes a string off the front: plain characters up to a zero byte, which goes with them. -/
def readString : ByteReader String := fun bytes =>
  let chars := bytes.takeWhile (· != 0)
  if chars.all (· < 128) && chars.length < bytes.length then
    some (String.ofList (chars.map charOf), bytes.drop (chars.length + 1))
  else
    none

/-- Reading takes exactly the bytes of a string and the zero byte behind them. -/
theorem takes_readString {text : String}
    (h : ∀ c ∈ text.toList, c.toNat < 128 ∧ c.toNat ≠ 0) :
    Takes readString (text.toList.map (fun c => UInt8.ofNat c.toNat) ++ [0]) text := by
  intro rest
  have hNonzero : ∀ byte ∈ text.toList.map fun c => UInt8.ofNat c.toNat, (byte != 0) = true := by
    intro byte hMem
    obtain ⟨c, hC, rfl⟩ := List.mem_map.1 hMem
    rw [bne_iff_ne]
    intro hZero
    have hByte := toNat_ofNat_char (h c hC).1
    rw [hZero] at hByte
    exact (h c hC).2 hByte.symm
  have hPlain : (text.toList.map fun c => UInt8.ofNat c.toNat).all (· < 128) = true := by
    rw [List.all_eq_true]
    intro byte hMem
    obtain ⟨c, hC, rfl⟩ := List.mem_map.1 hMem
    rw [decide_eq_true_eq, UInt8.lt_iff_toNat_lt, toNat_ofNat_char (h c hC).1]
    exact (h c hC).1
  have hChars : (text.toList.map (fun c => UInt8.ofNat c.toNat) ++ 0 :: rest).takeWhile (· != 0) =
      text.toList.map fun c => UInt8.ofNat c.toNat := by
    rw [List.takeWhile_append_of_pos hNonzero]
    simp
  rw [List.append_assoc, List.singleton_append, readString]
  simp only [hChars, hPlain, Bool.true_and, decide_eq_true_eq]
  rw [if_pos (by simp), map_charOf fun c hMem => (h c hMem).1, String.ofList_toList,
    ← List.drop_drop, List.drop_left]
  rfl

/-! ## Buffers and packages -/

/-- The content of a buffer: its size, and as many bytes as it tells. -/
def readBuffer (content : List UInt8) : Option ByteArray :=
  match readInteger content with
  | some (size, bytes) => if bytes.length = size.toNat then some bytes.toByteArray else none
  | none => none

/-- The content of a package: a count, and as many elements as it tells. -/
def readElements (content : List UInt8) (read : ByteReader DataObject) :
    Option (List DataObject) :=
  match content with
  | [] => none
  | count :: rest =>
      match readAll read rest with
      | some elements => if elements.length = count.toNat then some elements else none
      | none => none

/-- A bound that the content keeps makes no difference to its elements. -/
theorem readElements_shorter (read : ByteReader DataObject) {bound : Nat} {content : List UInt8}
    (h : content.length ≤ bound) :
    readElements content (fun piece => if piece.length < bound then read piece else none) =
      readElements content read := by
  cases content with
  | nil => rfl
  | cons count pieces =>
      have hPieces : pieces.length < bound := h
      rw [readElements, readElements, ByteReader.readAll_shorter read hPieces]

/-- Takes a data object off the front.  The elements of a package are read from fewer bytes than the
package itself. -/
def readData (bytes : List UInt8) : Option (DataObject × List UInt8) :=
  match bytes with
  | [] => none
  | lead :: rest =>
      if lead = 0x0D then
        (readString rest).map fun (text, rest) => (.string text, rest)
      else if lead = 0x11 then do
        let (content, rest) ← PkgLength.split? rest
        let bytes ← readBuffer content
        return (.buffer bytes, rest)
      else if lead = 0x12 then do
        let (content, behind) ← PkgLength.split? rest
        let elements ← readElements content
          fun piece => if piece.length < (lead :: rest).length then readData piece else none
        return (.package elements, behind)
      else
        (readInteger (lead :: rest)).map fun (value, rest) => (.integer value, rest)
termination_by bytes.length
decreasing_by assumption

theorem readData_of_readInteger {bytes rest : List UInt8} {value : UInt64}
    (h : readInteger bytes = some (value, rest)) :
    readData bytes = some (.integer value, rest) := by
  cases bytes with
  | nil => cases h
  | cons lead tail =>
      have hString : lead ≠ Opcode.stringConst := by rintro rfl; cases h
      have hBuffer : lead ≠ Opcode.bufferOp := by rintro rfl; cases h
      have hPackage : lead ≠ Opcode.packageOp := by rintro rfl; cases h
      rw [readData, if_neg hString, if_neg hBuffer, if_neg hPackage, h]
      rfl

theorem takes_string {field : List UInt8} {text : String} (h : Takes readString field text) :
    Takes readData (Opcode.stringConst :: field) (.string text) := by
  intro rest
  rw [List.cons_append, readData, if_pos rfl, h]
  rfl

theorem takes_buffer {field content : List UInt8} {bytes : ByteArray}
    (hField : Takes PkgLength.split? field content) (hContent : readBuffer content = some bytes) :
    Takes readData (Opcode.bufferOp :: field) (.buffer bytes) := by
  intro rest
  rw [List.cons_append, readData, if_neg (by decide), if_pos rfl, hField]
  show Option.bind (readBuffer content) _ = _
  rw [hContent]
  rfl

theorem takes_package {field content : List UInt8} {elements : List DataObject}
    (hField : Takes PkgLength.split? field content)
    (hContent : readElements content readData = some elements) :
    Takes readData (Opcode.packageOp :: field) (.package elements) := by
  intro rest
  have hBound : content.length ≤ (Opcode.packageOp :: (field ++ rest)).length :=
    Nat.le_succ_of_le (PkgLength.length_le_of_split? (hField rest))
  rw [List.cons_append, readData, if_neg (by decide), if_neg (by decide), if_pos rfl, hField]
  show Option.bind (readElements content _) _ = _
  rw [readElements_shorter readData hBound, hContent]
  rfl

/-! ## Trees of values -/

theorem readsAs_buffer (bytes : ByteArray) :
    ReadsAs readData (Term.buffer bytes) (.buffer bytes) := by
  intro h
  have hContent : ((Head.plain Opcode.bufferOp).writtenArgs
      [Term.integer (UInt64.ofNat bytes.size), .data bytes] []).flatMap encode =
        encode (Term.integer (UInt64.ofNat bytes.size)) ++ bytes.data.toList := by
    simp [Head.writtenArgs, Head.plain]
  -- The size is written with 64 bits, but a longer buffer would have no length field.
  obtain ⟨length, hPayload⟩ := Node.exists_length h rfl
  have hPayload := PkgLength.payload_lt_of_ofPayload? hPayload
  have hSize : (UInt64.ofNat bytes.size).toNat = bytes.data.toList.length := by
    rw [hContent, List.length_append] at hPayload
    rw [UInt64.toNat_ofNat']
    show bytes.data.toList.length % _ = _
    omega
  obtain ⟨field, hEncode, hField⟩ := Node.takes_content h rfl
  rw [hContent] at hField
  rw [Term.buffer, Term.object, hEncode]
  refine takes_buffer hField ?_
  rw [readBuffer, takes_readInteger]
  simp only [hSize, if_true, Bytes.toByteArray_toList]

theorem readsAs_package {nodes : List Node} {elements : List DataObject}
    (hLength : elements.length ≤ 255) (hEach : List.Forall₂ (ReadsAs readData) nodes elements) :
    ReadsAs readData
      (Term.object Opcode.packageOp [Term.raw [UInt8.ofNat nodes.length]] nodes)
      (.package elements) := by
  intro h
  have hCount : elements.length = (UInt8.ofNat nodes.length).toNat := by
    rw [hEach.length_eq, UInt8.toNat_ofNat']
    omega
  obtain ⟨field, hEncode, hField⟩ := Node.takes_content h rfl
  rw [Term.object, hEncode]
  refine takes_package hField ?_
  show readElements ((Term.raw [UInt8.ofNat nodes.length] :: nodes).flatMap encode) readData = _
  rw [List.flatMap_cons, Term.encode_raw, List.singleton_append, readElements,
    Node.readAll_encode (by rw [readData]) hEach fun node hMem => h.of_mem_body hMem]
  exact if_pos hCount

/-! ## Building -/

/-- The values that can be built: a string has no character but plain ones, and no zero, and a
package has at most as many elements as its count byte can tell. -/
inductive Valid : DataObject → Prop
  | integer (value : UInt64) : Valid (.integer value)
  | string (text : String) (plain : ∀ c ∈ text.toList, c.toNat < 128 ∧ c.toNat ≠ 0) :
      Valid (.string text)
  | buffer (bytes : ByteArray) : Valid (.buffer bytes)
  | package (elements : List DataObject) (length_le : elements.length ≤ 255)
      (each : ∀ element ∈ elements, Valid element) : Valid (.package elements)

/-- The tree of a value. -/
def build : DataObject → Except TermError Node
  | .integer value => .ok (Term.integer value)
  | .string text => Term.string text
  | .buffer bytes => .ok (Term.buffer bytes)
  | .package elements => do Term.package (← elements.mapM build)

/-- Reading takes exactly the encoding of a value that can be built. -/
theorem readsAs_of_valid {value : DataObject} (h : value.Valid) :
    ∃ node, value.build = .ok node ∧ ReadsAs readData node value := by
  induction h with
  | integer value =>
      refine ⟨Term.integer value, by rw [build], fun _ rest => ?_⟩
      exact readData_of_readInteger (takes_readInteger value rest)
  | string text plain =>
      have hAll : text.toList.all Term.isStringChar = true := by
        rw [List.all_eq_true]
        intro c hMem
        simpa [Term.isStringChar] using plain c hMem
      refine ⟨_, by rw [build, Term.string, if_pos hAll], fun _ => ?_⟩
      rw [Term.encode_raw]
      exact takes_string (takes_readString plain)
  | buffer bytes => exact ⟨Term.buffer bytes, by rw [build], readsAs_buffer bytes⟩
  | package elements length_le each ih =>
      obtain ⟨nodes, hNodes, hEach⟩ := Node.exists_mapM ih
      have hCount : nodes.length ≤ Term.maxElements := by
        rw [hEach.length_eq]
        exact length_le
      refine ⟨_, ?_, readsAs_package length_le hEach⟩
      rw [build, hNodes]
      exact if_pos hCount

end DataObject

end Acpi
