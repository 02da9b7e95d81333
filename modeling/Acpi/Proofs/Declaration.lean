import Acpi.Proofs.DataObject
import Acpi.Proofs.NameString
import Acpi.Proofs.Table
import Acpi.Proofs.TermShape

/-!
# Reading tables

Scopes, devices, named values and methods as declarations, the reader of the grammar for them
(`readTerm`), and a reader of whole tables (`readTable`) that goes by the header, the opcodes and
the length fields alone.

The terms of a scope or a device are read up to the end that its length field tells, those of a
table up to its last byte, and nothing may be left over in between.  So that a table reads back as
what it was built from (`readTable_encode`) says that every declaration finds its own end: at any
depth, for every width of the length fields, and whatever stands behind it.
-/

namespace Acpi

open ByteReader (Takes readAll)
open Node (encode ReadsAs)
open DataObject (readData)
open Name (readName normalName)

/-- A term of a table. -/
inductive Declaration where
  | scope (path : String) (body : List Declaration)
  | device (path : String) (body : List Declaration)
  | name (path : String) (value : DataObject)
  /-- A method; its body is not looked into. -/
  | method (path : String) (args : UInt8) (serialized : Bool) (syncLevel : UInt8) (body : ByteArray)

namespace Declaration

/-! ## The reader -/

/-- The content of a scope or a device: a name, and terms up to the end. -/
def readBody (content : List UInt8) (read : ByteReader Declaration) :
    Option (String × List Declaration) := do
  let (path, rest) ← readName content
  let body ← readAll read rest
  return (path, body)

/-- The content of a method: a name, the flags, and the body up to the end. -/
def readMethod (content : List UInt8) : Option Declaration := do
  match ← readName content with
  | (path, flags :: body) =>
      return .method path (flags % 8) (flags / 8 % 2 == 1) (flags / 16) body.toByteArray
  | (_, []) => none

/-- Takes the opcode of a term that holds other terms off the front, and tells which it is. -/
def readContainer : ByteReader (String → List Declaration → Declaration)
  | [] => none
  | lead :: rest =>
      if lead = 0x10 then
        some (.scope, rest)
      else if lead = 0x5B ∧ rest.head? = some 0x82 then
        some (.device, rest.tail)
      else
        none

/-- Takes a term off the front.  The terms inside a term are read from fewer bytes than the term
itself. -/
def readTerm (bytes : List UInt8) : Option (Declaration × List UInt8) :=
  match bytes with
  | [] => none
  | lead :: rest =>
      if lead = 0x08 then do
        let (path, rest) ← readName rest
        let (value, rest) ← readData rest
        return (.name path value, rest)
      else if lead = 0x14 then do
        let (content, rest) ← PkgLength.split? rest
        let method ← readMethod content
        return (method, rest)
      else do
        let (container, behind) ← readContainer (lead :: rest)
        let (content, behind) ← PkgLength.split? behind
        let (path, body) ← readBody content
          fun piece => if piece.length < (lead :: rest).length then readTerm piece else none
        return (container path body, behind)
termination_by bytes.length
decreasing_by assumption

/-- Reads a whole table: a header that tells the true length, bytes that add up to a multiple of
256, and terms up to the last byte. -/
def readTable (table : ByteArray) : Option (Header × List Declaration) := do
  let header ← Header.ofTable? table
  if header.length.toNat = table.size ∧ (table.data.toList.map UInt8.toNat).sum % 256 = 0 then
    let terms ← readAll readTerm (table.data.toList.drop Header.size)
    return (header, terms)
  else
    none

/-! ## Reading one term -/

/-- The terms behind a name are read up to the end, and a bound that they keep makes no
difference. -/
theorem readBody_append {first inner : List UInt8} {path : String} {body : List Declaration}
    {bound : Nat} (hPath : Takes readName first path) (hBody : readAll readTerm inner = some body)
    (hBound : (first ++ inner).length < bound) :
    readBody (first ++ inner)
      (fun piece => if piece.length < bound then readTerm piece else none) = some (path, body) := by
  have hInner : inner.length < bound := by
    rw [List.length_append] at hBound
    omega
  unfold readBody
  rw [hPath]
  simp only [Option.bind_eq_bind, Option.bind_some, ByteReader.readAll_shorter readTerm hInner,
    hBody]
  rfl

theorem takes_name {first second : List UInt8} {path : String} {value : DataObject}
    (hPath : Takes readName first path) (hValue : Takes readData second value) :
    Takes readTerm (Opcode.nameOp :: (first ++ second)) (.name path value) := by
  intro rest
  rw [List.cons_append, List.append_assoc, readTerm, if_pos rfl, hPath]
  show Option.bind (readData (second ++ rest)) _ = _
  rw [hValue]
  rfl

theorem takes_method {field content : List UInt8} {method : Declaration}
    (hField : Takes PkgLength.split? field content) (hContent : readMethod content = some method) :
    Takes readTerm (Opcode.methodOp :: field) method := by
  intro rest
  rw [List.cons_append, readTerm, if_neg (by decide), if_pos rfl, hField]
  show Option.bind (readMethod content) _ = _
  rw [hContent]
  rfl

theorem takes_container {opcode field first inner : List UInt8}
    {container : String → List Declaration → Declaration} {path : String}
    {body : List Declaration} (hOpcode : Takes readContainer opcode container)
    (hField : Takes PkgLength.split? field (first ++ inner)) (hPath : Takes readName first path)
    (hBody : readAll readTerm inner = some body) :
    Takes readTerm (opcode ++ field) (container path body) := by
  intro rest
  have hContainer := hOpcode (field ++ rest)
  cases opcode with
  | nil =>
      have hNone := hOpcode []
      cases hNone
  | cons lead tail =>
      -- What leads a container is neither of the opcodes that are looked at first.
      have hName : lead ≠ Opcode.nameOp := by rintro rfl; cases hContainer
      have hMethod : lead ≠ Opcode.methodOp := by rintro rfl; cases hContainer
      have hBound : (first ++ inner).length < (lead :: (tail ++ (field ++ rest))).length := by
        have hContent := PkgLength.length_le_of_split? (hField rest)
        simp only [List.length_cons, List.length_append] at hContent ⊢
        omega
      rw [List.cons_append] at hContainer
      rw [List.append_assoc, List.cons_append, readTerm, if_neg hName, if_neg hMethod, hContainer]
      show Option.bind (PkgLength.split? (field ++ rest)) _ = _
      rw [hField]
      show Option.bind (readBody (first ++ inner) _) _ = _
      rw [readBody_append hPath hBody hBound]
      rfl

/-! ## Building -/

/-- A text that is accepted as a path. -/
def IsPath (text : String) : Prop := ∃ path, Name.Path.parse text = .ok path

/-- The declarations that can be built: every path is accepted, every value can be built, and a
method keeps the limits of its flags. -/
inductive Valid : Declaration → Prop
  | scope (path : String) (body : List Declaration) (accepted : IsPath path)
      (each : ∀ term ∈ body, Valid term) : Valid (.scope path body)
  | device (path : String) (body : List Declaration) (accepted : IsPath path)
      (each : ∀ term ∈ body, Valid term) : Valid (.device path body)
  | name (path : String) (value : DataObject) (accepted : IsPath path) (valid : value.Valid) :
      Valid (.name path value)
  | method (path : String) (args : UInt8) (serialized : Bool) (syncLevel : UInt8)
      (body : ByteArray) (accepted : IsPath path) (args_le : args ≤ 7)
      (syncLevel_le : syncLevel ≤ 15) : Valid (.method path args serialized syncLevel body)

/-- The tree of a declaration. -/
def build : Declaration → Except TermError Node
  | .scope path body => do Term.scope path (← body.mapM build)
  | .device path body => do Term.device path (← body.mapM build)
  | .name path value => do Term.name path (← value.build)
  | .method path args serialized syncLevel body =>
      Term.method path args serialized syncLevel [.data body]

/-- The same declaration with every path in its normal form. -/
def normal : Declaration → Declaration
  | .scope path body => .scope (normalName path) (body.map normal)
  | .device path body => .device (normalName path) (body.map normal)
  | .name path value => .name (normalName path) value
  | .method path args serialized syncLevel body =>
      .method (normalName path) args serialized syncLevel body

/-- The flags of a method tell its three parts apart. -/
theorem methodFlags_parts {args syncLevel : UInt8} (hArgs : args ≤ 7) (hSync : syncLevel ≤ 15)
    (serialized : Bool) :
    Term.methodFlags args serialized syncLevel % 8 = args ∧
      (Term.methodFlags args serialized syncLevel / 8 % 2 == 1) = serialized ∧
      Term.methodFlags args serialized syncLevel / 16 = syncLevel := by
  have hArgs : args.toNat ≤ 7 := UInt8.le_iff_toNat_le.1 hArgs
  have hSync : syncLevel.toNat ≤ 15 := UInt8.le_iff_toNat_le.1 hSync
  have hFlags : (Term.methodFlags args serialized syncLevel).toNat =
      args.toNat + (if serialized then 8 else 0) + 16 * syncLevel.toNat := by
    rw [Term.methodFlags, UInt8.toNat_ofNat']
    split <;> omega
  refine ⟨?_, ?_, ?_⟩
  · apply UInt8.toNat.inj
    rw [UInt8.toNat_mod, hFlags]
    show _ % 8 = _
    split <;> omega
  · rw [Bool.eq_iff_iff, beq_iff_eq, ← UInt8.toNat_inj, UInt8.toNat_mod, UInt8.toNat_div, hFlags]
    show _ / 8 % 2 = 1 ↔ _
    split <;> simp_all <;> omega
  · apply UInt8.toNat.inj
    rw [UInt8.toNat_div, hFlags]
    show _ / 16 = _
    split <;> omega

section Trees

variable {text : String} {path : Name.Path} {nodes : List Node} {body : List Declaration}

/-- A named object that holds terms reads back if its terms do. -/
theorem readsAs_container {head : Head} {container : String → List Declaration → Declaration}
    (hOpcode : Takes readContainer head.opcodeBytes container) (hLength : head.hasLength = true)
    (hInvocation : head.invocation = false) (hPath : Name.Path.parse text = .ok path)
    (hBody : List.Forall₂ (ReadsAs readTerm) nodes body) :
    ReadsAs readTerm (.object head [Term.raw path.bytes] nodes)
      (container (normalName text) body) := by
  intro h
  have hTerms : readAll readTerm (nodes.flatMap encode) = some body :=
    Node.readAll_encode (by rw [readTerm]) hBody fun node hMem => h.of_mem_body hMem
  obtain ⟨field, hEncode, hField⟩ := Node.takes_named h hLength hInvocation
  rw [hEncode]
  exact takes_container hOpcode hField (Name.takes_readName hPath) hTerms

theorem readsAs_name (hPath : Name.Path.parse text = .ok path) {node : Node} {value : DataObject}
    (hValue : ReadsAs readData node value) :
    ReadsAs readTerm (Term.object Opcode.nameOp [Term.raw path.bytes, node] [])
      (.name (normalName text) value) := by
  intro h
  obtain ⟨hNode, hEncode⟩ := Node.encode_name h
  rw [hEncode]
  exact takes_name (Name.takes_readName hPath) (hValue hNode)

theorem readsAs_method (hPath : Name.Path.parse text = .ok path) {args syncLevel : UInt8}
    (hArgs : args ≤ 7) (hSync : syncLevel ≤ 15) (serialized : Bool) (code : ByteArray) :
    ReadsAs readTerm (Term.object Opcode.methodOp
      [Term.raw path.bytes, Term.raw [Term.methodFlags args serialized syncLevel]] [.data code])
      (.method (normalName text) args serialized syncLevel code) := by
  intro h
  obtain ⟨hArgs', hSerialized', hSync'⟩ := methodFlags_parts hArgs hSync serialized
  obtain ⟨field, hEncode, hField⟩ := Node.takes_content h rfl
  rw [Term.object, hEncode]
  refine takes_method hField ?_
  show readMethod ([Term.raw path.bytes, Term.raw [_], .data code].flatMap encode) = _
  rw [List.flatMap_cons, Term.encode_raw, readMethod, Name.takes_readName hPath]
  simp only [List.flatMap_cons, Term.encode_raw, List.flatMap_nil, List.append_nil,
    Node.encode_data, List.singleton_append, Option.bind_eq_bind, Option.bind_some, hArgs',
    hSerialized', hSync', Bytes.toByteArray_toList]
  rfl

end Trees

/-- Every declaration that can be built reads back in its normal form. -/
theorem readsAs_of_valid {term : Declaration} (h : term.Valid) :
    ∃ node, term.build = .ok node ∧ ReadsAs readTerm node term.normal := by
  induction h with
  | scope text body accepted each ih =>
      obtain ⟨path, hPath⟩ := accepted
      obtain ⟨nodes, hNodes, hBody⟩ := Node.exists_mapM ih
      rw [normal]
      refine ⟨Term.object Opcode.scopeOp [Term.raw path.bytes] nodes, ?_,
        readsAs_container (fun _ => rfl) rfl rfl hPath (List.forall₂_map_right_iff.2 hBody)⟩
      rw [build, hNodes]
      exact Term.scope_eq_ok_iff.2 ⟨path, hPath, rfl⟩
  | device text body accepted each ih =>
      obtain ⟨path, hPath⟩ := accepted
      obtain ⟨nodes, hNodes, hBody⟩ := Node.exists_mapM ih
      rw [normal]
      refine ⟨.object (Head.extended Opcode.deviceExt) [Term.raw path.bytes] nodes, ?_,
        readsAs_container (fun _ => rfl) rfl rfl hPath (List.forall₂_map_right_iff.2 hBody)⟩
      rw [build, hNodes]
      exact Term.device_eq_ok_iff.2 ⟨path, hPath, rfl⟩
  | name text value accepted valid =>
      obtain ⟨path, hPath⟩ := accepted
      obtain ⟨node, hNode, hValue⟩ := DataObject.readsAs_of_valid valid
      rw [normal]
      refine ⟨_, ?_, readsAs_name hPath hValue⟩
      rw [build, hNode]
      exact Term.name_eq_ok_iff.2 ⟨path, hPath, rfl⟩
  | method text args serialized syncLevel body accepted args_le syncLevel_le =>
      obtain ⟨path, hPath⟩ := accepted
      rw [normal]
      refine ⟨_, ?_, readsAs_method hPath args_le syncLevel_le serialized body⟩
      have hArgs : args.toNat ≤ Term.maxArguments := UInt8.le_iff_toNat_le.1 args_le
      rw [build]
      exact Term.method_eq_ok_iff.2 ⟨hArgs, syncLevel_le, path, hPath, rfl⟩

/-! ## Tables -/

/-- The reader of tables takes the bytes of a finished table apart. -/
theorem readTable_of_image {header : Header} {body : List Node} {layout : Layout}
    {table : ByteArray} {terms : List Declaration} (hLayout : Layout.ofBody body = .ok layout)
    (hBytes : table.data.toList = Table.image header layout.total body)
    (hTerms : readAll readTerm (body.flatMap encode) = some terms) :
    readTable table = some (Table.finishedHeader header layout.total body, terms) := by
  have hSize := (Table.size_of_image hLayout hBytes).symm
  have hSum : (table.data.toList.map UInt8.toNat).sum % 256 = 0 := by
    rw [hBytes, Checksum.sum_eq_iff, Table.listSum_image]
  have hBody : table.data.toList.drop Header.size = body.flatMap encode := by
    rw [hBytes, Table.image, List.drop_left' (Header.length_bytes _)]
  unfold readTable
  rw [Header.ofTable?_of_bytes hBytes, hBody, hTerms]
  exact if_pos ⟨hSize, hSum⟩

/-- **Tables read back.**  Declarations that can be built give trees, and if these can be encoded as
a table behind some header, the table is read from its first byte to its last as the same
declarations in the same order, every path in its normal form, behind the same header with the
length of the table and a checksum filled in. -/
theorem readTable_encode (terms : List Declaration) (hValid : ∀ term ∈ terms, term.Valid) :
    ∃ nodes, terms.mapM build = .ok nodes ∧
      ∀ (header : Header) (table : ByteArray),
        (Table.encode (.block header nodes)).1 = .ok table →
          ∃ checksum, readTable table =
            some ({ header with length := UInt32.ofNat table.size, checksum },
              terms.map normal) := by
  obtain ⟨nodes, hNodes, hEach⟩ := Node.exists_mapM fun term hMem =>
    readsAs_of_valid (hValid term hMem)
  refine ⟨nodes, hNodes, fun header table hTable => ?_⟩
  obtain ⟨layout, hLayout, hBytes⟩ := Table.encode_ok_inv hTable
  obtain ⟨⟨hEncodable, -⟩, -⟩ := Layout.ofBody_eq_ok_iff.1 hLayout
  have hTerms : readAll readTerm (nodes.flatMap encode) = some (terms.map normal) :=
    Node.readAll_encode (by rw [readTerm]) (List.forall₂_map_right_iff.2 hEach) hEncodable
  refine ⟨Table.imageChecksum header layout.total nodes, ?_⟩
  rw [readTable_of_image hLayout hBytes hTerms, Table.size_of_image hLayout hBytes,
    UInt32.ofNat_toNat]
  rfl

/-- A scope that holds a device, with a package in a package under a name, and a method. -/
theorem readTable_encode_scope :
    let header : Header := ⟨#v[0x53, 0x53, 0x44, 0x54], 0, 2, 0x77, #v[1, 2, 3, 4, 5, 6],
      #v[1, 2, 3, 4, 5, 6, 7, 8], 1, 2, 3⟩
    let data : DataObject :=
      .package [.integer 300, .package [.string "A"], .buffer [1, 2].toByteArray]
    let code := [0xA4, 0x01].toByteArray
    let terms : List Declaration :=
      [.scope "\\_sb.a" [.device "dev0" [.name "_u" data], .method "^m" 2 true 3 code]]
    (∀ term ∈ terms, term.Valid) ∧ ∃ nodes table checksum, terms.mapM build = .ok nodes ∧
      (Table.encode (.block header nodes)).1 = .ok table ∧
      readTable table = some ({ header with length := UInt32.ofNat table.size, checksum },
        [.scope "\\_SB_.A___"
          [.device "DEV0" [.name "_U__" data], .method "^M___" 2 true 3 code]]) := by
  intro header data code terms
  have hData : data.Valid := by
    refine .package _ (by decide) fun element hMem => ?_
    simp only [List.mem_cons, List.not_mem_nil, or_false] at hMem
    rcases hMem with rfl | rfl | rfl
    · exact .integer _
    · refine .package _ (by decide) fun element hMem => ?_
      rw [List.mem_singleton.1 hMem]
      refine .string _ fun c hChar => ?_
      rw [List.mem_singleton.1 (show c ∈ ['A'] from hChar)]
      decide
    · exact .buffer _
  have hValid : ∀ term ∈ terms, term.Valid := by
    intro term hMem
    rw [List.mem_singleton.1 hMem]
    refine .scope _ _ ⟨_, rfl⟩ fun term hMem => ?_
    simp only [List.mem_cons, List.not_mem_nil, or_false] at hMem
    rcases hMem with rfl | rfl
    · refine .device _ _ ⟨_, rfl⟩ fun term hMem => ?_
      rw [List.mem_singleton.1 hMem]
      exact .name _ _ ⟨_, rfl⟩ hData
    · exact .method _ _ _ _ _ ⟨_, rfl⟩ (by decide) (by decide)
  have hNormal : terms.map normal = [.scope "\\_SB_.A___"
      [.device "DEV0" [.name "_U__" data], .method "^M___" 2 true 3 code]] := by
    simp only [terms, normal, List.map_cons, List.map_nil]
    rfl
  obtain ⟨built, layout, hBuilt, hLayout⟩ : ∃ built layout,
      terms.mapM build = .ok built ∧ Layout.ofBody built = .ok layout := by
    simp only [terms, data, build, DataObject.build, List.mapM_cons, List.mapM_nil]
    exact ⟨_, _, rfl, rfl⟩
  obtain ⟨nodes, hNodes, hRead⟩ := readTable_encode terms hValid
  injection hNodes.symm.trans hBuilt with hSame
  subst hSame
  have hTable := Table.encode_eq hLayout fun (h : Table.Stale header layout) => h.1 rfl
  obtain ⟨checksum, hChecksum⟩ := hRead header _ hTable
  rw [hNormal] at hChecksum
  exact ⟨hValid, nodes, _, checksum, hNodes, hTable, hChecksum⟩

end Declaration

end Acpi
