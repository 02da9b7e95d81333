import Acpi.Proofs.BoardTree
import Acpi.Proofs.Check
import Acpi.Proofs.DataObject
import Acpi.Proofs.EisaId
import Acpi.Proofs.NameString
import Acpi.Proofs.ResourceTemplate

/-!
# Reading boards back

A reader for the tables of boards, and the proof that it finds in a table just what the description
asked for.

The reader goes by the places of the header fields, by opcodes, length fields and names.  It knows
the terms that a device may have and what each of them means: identifiers, packed or not, numbers, a
method that returns a number, and a resource template in a buffer.  Nothing may be left over behind
the last term of a device, behind the last device of a scope or behind the last scope of the table.

`Description.reading` says what is to be found.  Main result: `readBoard_description`.
-/

namespace Acpi.Board

open ByteReader (Takes charOf charOf_ofNat readAll)
open DataObject (readInteger readString readWord readData)
open Name (readName normalName)
open Node (ReadsAs encode)

/-! ## What a table says -/

/-- An identifier: a packed one in a double word, or a string. -/
inductive Id where
  | packed (raw : UInt32)
  | text (text : String)
  deriving DecidableEq, Repr

/-- A term of a device. -/
inductive Entry where
  | hid (id : Id)
  | uid (value : UInt64)
  | cid (id : Id)
  /-- The status method: its flags, and the number that it returns. -/
  | sta (flags : UInt8) (value : UInt64)
  | crs (resources : List ListedResource)
  deriving DecidableEq, Repr

/-- What a table says about a board: the texts and numbers of its header, and its scopes with the
devices in them, each under its name. -/
structure Reading where
  table : Identity
  scopes : List (String × List (String × List Entry))
  deriving DecidableEq, Repr

/-! ## The reader -/

/-- Takes an identifier off the front. -/
def readId : ByteReader Id
  | [] => none
  | lead :: rest =>
      if lead = 0x0C then
        ByteReader.map (fun value => .packed value.toUInt32) (readWord 4) rest
      else if lead = 0x0D then
        ByteReader.map .text readString rest
      else
        none

/-- How a description lists a resource. -/
def ListedResource.ofResource : Resource → ListedResource
  | .io decode16 min max alignment length => .io min max alignment length decode16
  | .fixedIo base length => .fixedIo base length
  | .irq line s => .irq line s.edgeTriggered s.activeLow s.shared
  | .dma channel busMaster => .dma channel busMaster
  | .memory32 writable min max alignment length => .memory32 min max alignment length writable
  | .fixedMemory32 writable base length => .fixedMemory32 base length writable
  | .extendedIrq gsi s => .extendedIrq gsi s.edgeTriggered s.activeLow s.shared

/-- Takes a buffer with a resource template off the front. -/
def readResources : ByteReader (List ListedResource) := fun bytes =>
  match readData bytes with
  | some (.buffer contents, rest) =>
      (Resource.readTemplate contents.data.toList).map fun resources =>
        (resources.map ListedResource.ofResource, rest)
  | _ => none

/-- The reader for the value under a name. -/
def readValue (name : String) : ByteReader Entry :=
  if name = "_HID" then
    ByteReader.map .hid readId
  else if name = "_UID" then
    ByteReader.map .uid readInteger
  else if name = "_CID" then
    ByteReader.map .cid readId
  else if name = "_CRS" then
    ByteReader.map .crs readResources
  else
    fun _ => none

/-- The content of the status method: its name, its flags, and the return of a number. -/
def readStatus (content : List UInt8) : Option Entry :=
  match readName content with
  | some ("_STA", flags :: lead :: rest) =>
      match readInteger rest with
      | some (value, []) => if lead = 0xA4 then some (.sta flags value) else none
      | _ => none
  | _ => none

/-- Takes a term of a device off the front. -/
def readEntry : ByteReader Entry
  | [] => none
  | lead :: rest =>
      if lead = 0x08 then do
        let (name, rest) ← readName rest
        readValue name rest
      else if lead = 0x14 then do
        let (content, rest) ← PkgLength.split? rest
        let entry ← readStatus content
        return (entry, rest)
      else
        none

/-- Takes a named object off the front that holds items up to its end. -/
def readNamed {α : Type} (opcode : List UInt8) (item : ByteReader α) :
    ByteReader (String × List α) := fun bytes =>
  if bytes.take opcode.length = opcode then do
    let (content, rest) ← PkgLength.split? (bytes.drop opcode.length)
    let (name, content) ← readName content
    let items ← readAll item content
    return ((name, items), rest)
  else
    none

/-- Takes a device off the front. -/
def readDevice : ByteReader (String × List Entry) :=
  readNamed [0x5B, 0x82] readEntry

/-- Takes a scope off the front. -/
def readScope : ByteReader (String × List (String × List Entry)) :=
  readNamed [0x10] readDevice

/-- The text in some bytes of a table. -/
def textAt (offset count : Nat) (bytes : List UInt8) : String :=
  String.ofList (((bytes.drop offset).take count).map charOf)

/-- The double word at some place of a table. -/
def dwordAt (offset : Nat) (bytes : List UInt8) : UInt32 :=
  Resource.dwordOf ((bytes.drop offset).take 4)

/-- The fields of a header that a description decides. -/
def readIdentity (bytes : List UInt8) : Identity where
  signature := textAt 0 4 bytes
  revision := bytes.getD 8 0
  oemId := textAt 10 6 bytes
  oemTableId := textAt 16 8 bytes
  oemRevision := dwordAt 24 bytes
  creatorId := textAt 28 4 bytes
  creatorRevision := dwordAt 32 bytes

/-- Reads a whole table, which must be sound. -/
def readBoard (table : ByteArray) : Option Reading :=
  match Table.check table with
  | .error _ => none
  | .ok _ => do
      let scopes ← readAll readScope (table.data.toList.drop 36)
      return ⟨readIdentity table.data.toList, scopes⟩

/-! ## What is to be found -/

/-- A text filled up with blanks on the right. -/
def padTo (size : Nat) (text : String) : String :=
  String.ofList (text.toList ++ List.replicate (size - text.toList.length) ' ')

/-- An identifier of three capital letters and four hexadecimal digits is packed. -/
def Id.ofText (text : String) : Id :=
  if EisaId.HasForm text.toList then .packed (EisaId.packed text.toList) else .text text

/-- The terms of a device. -/
def Device.entries (device : Device) : List Entry :=
  .hid (Id.ofText device.hid) ::
    (device.uid.toList.map .uid ++
      device.cid.toList.map (fun cid => .cid (Id.ofText cid)) ++
      device.sta.toList.map (fun sta => .sta 0 sta.toUInt64) ++
      if device.resources = [] then [] else [.crs device.resources])

/-- A device under its name in normal form. -/
def Device.reading (device : Device) : String × List Entry :=
  (normalName device.name, device.entries)

/-- A scope under its path in normal form. -/
def Scope.reading (scope : Scope) : String × List (String × List Entry) :=
  (normalName scope.path, scope.devices.map Device.reading)

/-- The texts and numbers of the header, the texts filled up. -/
def Identity.reading (identity : Identity) : Identity :=
  { identity with
    signature := padTo 4 identity.signature
    oemId := padTo 6 identity.oemId
    oemTableId := padTo 8 identity.oemTableId
    creatorId := padTo 4 identity.creatorId }

/-- What the table of a description says. -/
def Description.reading (description : Description) : Reading where
  table := description.table.reading
  scopes := description.scopes.map Scope.reading

/-! ## Headers -/

theorem readIdentity_bytes (header : Header) (rest : List UInt8) :
    readIdentity (header.bytes ++ rest) = {
      signature := String.ofList (header.signature.toList.map charOf)
      revision := header.revision
      oemId := String.ofList (header.oemId.toList.map charOf)
      oemTableId := String.ofList (header.oemTableId.toList.map charOf)
      oemRevision := header.oemRevision
      creatorId := String.ofList ((LittleEndian.encode 4 header.creatorId.toNat).map charOf)
      creatorRevision := header.creatorRevision } := by
  have hOemRevision := Resource.dwordOf_dword header.oemRevision
  have hCreatorRevision := Resource.dwordOf_dword header.creatorRevision
  rw [Resource.dword] at hOemRevision hCreatorRevision
  simp [readIdentity, textAt, dwordAt, Header.bytes, List.drop_append, List.drop_of_length_le,
    List.getElem?_append, hOemRevision, hCreatorRevision]

/-- A header text is read with the blanks behind it. -/
theorem ofList_map_charOf_padded {size : Nat} {field text : String} {bytes : Vector UInt8 size}
    (h : padded size field text = .ok bytes) :
    String.ofList (bytes.toList.map charOf) = padTo size text := by
  unfold padded at h
  split at h
  next hFits =>
    cases h
    simp only [fits, Bool.and_eq_true, List.all_eq_true, decide_eq_true_eq] at hFits
    obtain ⟨⟨hPlain, -⟩, hLength⟩ := hFits
    have hPadded :
        (text.toList ++ List.replicate (size - text.toList.length) ' ').length = size := by
      rw [List.length_append, List.length_replicate]
      omega
    rw [padTo]
    congr 1
    apply List.ext_getElem
    · rw [hPadded, List.length_map, Vector.length_toList]
    · intro i _ _
      by_cases hIndex : i < text.toList.length
      · have hChar := charOf_ofNat (hPlain _ (List.getElem_mem hIndex))
        simpa [List.getElem_append, hIndex] using hChar
      · have hBlank : charOf (UInt8.ofNat ' '.toNat) = ' ' := rfl
        simpa [List.getElem_append, hIndex] using hBlank
  next => cases h

/-- The header of a description says what the description says. -/
theorem readIdentity_header {identity : Identity} {header : Header}
    (h : identity.header = .ok header) (total : UInt32) (checksum : UInt8) (rest : List UInt8) :
    readIdentity (({ header with length := total, checksum } : Header).bytes ++ rest) =
      identity.reading := by
  obtain ⟨signature, oemId, oemTableId, creatorId, hSignature, hOemId, hOemTableId, hCreatorId,
    rfl⟩ := Identity.header_eq_ok_iff.1 h
  have hDword : LittleEndian.encode 4 (UInt32.ofNat (LittleEndian.decode creatorId.toList)).toNat =
      creatorId.toList := by
    have hLt := LittleEndian.decode_lt creatorId.toList
    have hBytes := LittleEndian.encode_decode creatorId.toList
    rw [Vector.length_toList] at hLt hBytes
    rw [UInt32.toNat_ofNat_of_lt' hLt, hBytes]
  rw [readIdentity_bytes]
  simp only [hDword, ofList_map_charOf_padded hSignature, ofList_map_charOf_padded hOemId,
    ofList_map_charOf_padded hOemTableId, ofList_map_charOf_padded hCreatorId]
  rfl

/-! ## The terms of a device -/

theorem takes_packed (raw : UInt32) : Takes readId (encode (Term.dword raw)) (.packed raw) := by
  intro rest
  have hLt : raw.toUInt64.toNat < LittleEndian.span 4 := by
    rw [UInt32.toNat_toUInt64]
    exact raw.toNat_lt
  have hWord := DataObject.takes_readWord 4 hLt
  rw [UInt32.toNat_toUInt64] at hWord
  rw [Term.dword, Term.encode_raw, List.cons_append, readId, if_pos rfl, hWord.map,
    UInt32.toUInt32_toUInt64]

theorem takes_text {text : String} {node : Node} (h : Term.string text = .ok node) :
    Takes readId (encode node) (.text text) := by
  intro rest
  rw [Term.string] at h
  split at h
  next hPlain =>
    cases h
    have hChars : ∀ c ∈ text.toList, c.toNat < 128 ∧ c.toNat ≠ 0 := by
      simpa [Term.isStringChar] using hPlain
    rw [Term.encode_raw, List.cons_append, List.cons_append, readId, if_neg (by decide), if_pos rfl,
      (DataObject.takes_readString hChars).map]
  next => cases h

theorem readsAs_identifier {id : String} {node : Node} (h : identifier id = .ok node) :
    ReadsAs readId node (Id.ofText id) := by
  intro _
  by_cases hForm : EisaId.HasForm id.toList
  · rw [identifier_of_hasForm hForm] at h
    cases h
    rw [Id.ofText, if_pos hForm]
    exact takes_packed _
  · rw [identifier_of_not_hasForm hForm] at h
    rw [Id.ofText, if_neg hForm]
    exact takes_text (mapError_eq_ok_iff.1 h)

/-- Nothing that is listed is lost in a descriptor. -/
theorem ListedResource.ofResource_toResource (resource : ListedResource) :
    ofResource resource.toResource = resource := by
  cases resource <;> rfl

theorem readsAs_resourceTemplate {resources : List ListedResource} {node : Node}
    (h : Term.resourceTemplate (resources.map ListedResource.toResource) = .ok node) :
    ReadsAs readResources node resources := by
  obtain ⟨bytes, hBytes, ⟨⟩⟩ := bind_eq_ok_iff.1 h
  intro hEncodable rest
  have hBuffer := DataObject.readsAs_buffer _ hEncodable rest
  have hTemplate := Resource.readTemplate_template hBytes
  have hListed : (resources.map ListedResource.toResource).map ListedResource.ofResource =
      resources := by
    rw [List.map_map]
    exact (List.map_congr_left fun resource _ => resource.ofResource_toResource).trans
      (List.map_id resources)
  rw [readResources, hBuffer]
  simp only [List.data_toByteArray, hTemplate, Option.map_some, hListed]

/-- A value under a name is read as the name tells. -/
theorem readsAs_name {name : String} {value node : Node} {entry : Entry}
    (hNode : Term.name name value = .ok node) (hName : normalName name = name)
    (hValue : ReadsAs (readValue name) value entry) : ReadsAs readEntry node entry := by
  obtain ⟨path, hPath, rfl⟩ := Term.name_eq_ok_iff.1 hNode
  intro h rest
  obtain ⟨hEncodable, hEncode⟩ := Node.encode_name h
  rw [hEncode, List.cons_append, List.append_assoc, readEntry, if_pos rfl,
    Name.takes_readName hPath, hName]
  exact hValue hEncodable rest

theorem readsAs_hid {id : String} {node : Node} (h : NamedId "_HID" id node) :
    ReadsAs readEntry node (.hid (Id.ofText id)) := by
  obtain ⟨value, hValue, hNode⟩ := h
  refine readsAs_name hNode (by decide) fun h => ?_
  rw [readValue, if_pos rfl]
  exact (readsAs_identifier hValue h).map Entry.hid

theorem readsAs_uid {value : UInt64} {node : Node} (h : NamedInteger "_UID" value node) :
    ReadsAs readEntry node (.uid value) := by
  refine readsAs_name h (by decide) fun _ => ?_
  rw [readValue, if_neg (by decide), if_pos rfl]
  exact (DataObject.takes_readInteger value).map Entry.uid

theorem readsAs_cid {id : String} {node : Node} (h : NamedId "_CID" id node) :
    ReadsAs readEntry node (.cid (Id.ofText id)) := by
  obtain ⟨value, hValue, hNode⟩ := h
  refine readsAs_name hNode (by decide) fun h => ?_
  rw [readValue, if_neg (by decide), if_neg (by decide), if_pos rfl]
  exact (readsAs_identifier hValue h).map Entry.cid

theorem readsAs_crs {resources : List ListedResource} {node : Node}
    (h : NamedTemplate "_CRS" resources node) : ReadsAs readEntry node (.crs resources) := by
  obtain ⟨value, hValue, hNode⟩ := h
  refine readsAs_name hNode (by decide) fun h => ?_
  rw [readValue, if_neg (by decide), if_neg (by decide), if_neg (by decide), if_pos rfl]
  exact (readsAs_resourceTemplate hValue h).map Entry.crs

/-- The content of the status method. -/
theorem readStatus_append {path : Name.Path} (hPath : Name.Path.parse "_STA" = .ok path)
    (flags : UInt8) (value : UInt64) :
    readStatus (path.bytes ++ flags :: encode (Term.returnValue (Term.integer value))) =
      some (.sta flags value) := by
  have hReturn : encode (Term.returnValue (Term.integer value)) =
      Opcode.returnOp :: encode (Term.integer value) := by
    rw [Term.returnValue, Term.object, Node.encode_object]
    show Opcode.returnOp :: ([] ++ [Term.integer value].flatMap encode) = _
    rw [List.flatMap_singleton, List.nil_append]
  rw [readStatus, Name.takes_readName hPath, show normalName "_STA" = "_STA" by decide, hReturn]
  simp only [(DataObject.takes_readInteger value).whole, if_true]

theorem readsAs_sta {status : UInt8} {node : Node} (h : StatusMethod status node) :
    ReadsAs readEntry node (.sta 0 status.toUInt64) := by
  obtain ⟨-, -, path, hPath, rfl⟩ := Term.method_eq_ok_iff.1 h
  intro hEncodable rest
  obtain ⟨field, hEncode, hField⟩ := Node.takes_content hEncodable rfl
  have hContent : ((Head.plain Opcode.methodOp).writtenArgs
      [Term.raw path.bytes, Term.raw [Term.methodFlags 0 false 0]]
      [Term.returnValue (Term.integer status.toUInt64)]).flatMap encode =
        path.bytes ++ 0 :: encode (Term.returnValue (Term.integer status.toUInt64)) := by
    simp [Head.writtenArgs, Head.plain, Term.encode_raw, Term.methodFlags]
  rw [hContent] at hField
  rw [Term.object, hEncode]
  show readEntry (Opcode.methodOp :: (field ++ rest)) = _
  rw [readEntry, if_neg (by decide), if_pos rfl, hField]
  show Option.bind (readStatus _) _ = _
  rw [readStatus_append hPath]
  rfl

/-! ## Devices and scopes -/

/-- Trees that are built one for one are read one for one. -/
theorem readsAs_of_forall₂ {α β : Type} {R : α → Node → Prop} {read : ByteReader β} {item : α → β}
    {parts : List α} {nodes : List Node} (h : List.Forall₂ R parts nodes)
    (hEach : ∀ part node, R part node → ReadsAs read node (item part)) :
    List.Forall₂ (ReadsAs read) nodes (parts.map item) :=
  List.forall₂_map_right_iff.2 (h.flip.imp fun node part => hEach part node)

/-- A named object that holds items reads back if its items do. -/
theorem readsAs_named {α : Type} {head : Head} {item : ByteReader α} (hEmpty : item [] = none)
    (hLength : head.hasLength = true) (hInvocation : head.invocation = false) {text : String}
    {path : Name.Path} (hPath : Name.Path.parse text = .ok path) {nodes : List Node}
    {items : List α} (hItems : List.Forall₂ (ReadsAs item) nodes items) :
    ReadsAs (readNamed head.opcodeBytes item) (.object head [Term.raw path.bytes] nodes)
      (normalName text, items) := by
  intro h rest
  have hAll : readAll item (nodes.flatMap encode) = some items :=
    Node.readAll_encode hEmpty hItems fun node hMem => h.of_mem_body hMem
  obtain ⟨field, hEncode, hField⟩ := Node.takes_named h hLength hInvocation
  rw [hEncode, List.append_assoc, readNamed, if_pos List.take_left, List.drop_left, hField]
  show Option.bind (readName (path.bytes ++ nodes.flatMap encode)) _ = _
  rw [Name.takes_readName hPath]
  show Option.bind (readAll item (nodes.flatMap encode)) _ = _
  rw [hAll]
  rfl

theorem Device.readsAs_body {device : Device} {body : List Node} (h : device.body = .ok body) :
    List.Forall₂ (ReadsAs readEntry) body device.entries := by
  obtain ⟨hid, uid, cid, sta, crs, hHid, hUid, hCid, hSta, hCrs, rfl⟩ := body_eq_ok_iff.1 h
  have hTemplate : (if device.resources = [] then [] else [.crs device.resources]) =
      device.template?.toList.map Entry.crs := by
    by_cases hNone : device.resources = []
    · simp [template?, hNone]
    · simp [template?, hNone]
  rw [entries, hTemplate]
  refine .cons (readsAs_hid hHid) ?_
  refine List.rel_append (List.rel_append (List.rel_append ?_ ?_) ?_) ?_
  · exact readsAs_of_forall₂ hUid fun _ _ => readsAs_uid
  · exact readsAs_of_forall₂ hCid fun _ _ => readsAs_cid
  · exact readsAs_of_forall₂ hSta fun _ _ => readsAs_sta
  · exact readsAs_of_forall₂ hCrs fun _ _ => readsAs_crs

theorem Device.readsAs {device : Device} {node : Node} (h : device.node = .ok node) :
    ReadsAs readDevice node device.reading := by
  obtain ⟨body, hBody, hNode⟩ := Device.node_eq_ok_iff.1 h
  obtain ⟨path, hPath, rfl⟩ := Term.device_eq_ok_iff.1 hNode
  exact readsAs_named rfl rfl rfl hPath (Device.readsAs_body hBody)

theorem Scope.readsAs {scope : Scope} {node : Node} (h : scope.node = .ok node) :
    ReadsAs readScope node scope.reading := by
  obtain ⟨devices, hDevices, hNode⟩ := Scope.node_eq_ok_iff.1 h
  obtain ⟨path, hPath, rfl⟩ := Term.scope_eq_ok_iff.1 hNode
  exact readsAs_named rfl rfl rfl hPath
    (readsAs_of_forall₂ hDevices fun _ _ => Device.readsAs)

/-! ## Tables -/

/-- A description whose table has a size has a table. -/
theorem Description.exists_table {description : Description} {node : Node} {total : Nat}
    (hNode : description.node = .ok node) (hQuery : (Table.query node).1 = .ok total) :
    ∃ table, (Table.encode node).1 = .ok table := by
  obtain ⟨header, scopes, hHeader, -, rfl⟩ := Description.node_eq_ok_iff.1 hNode
  cases hLayout : Layout.ofBody scopes with
  | error cause =>
      rw [Table.query, hLayout] at hQuery
      cases hQuery
  | ok layout =>
      refine ⟨_, Table.encode_eq hLayout fun hStale => ?_⟩
      exact hStale.1 (Identity.unstamped hHeader)

/-- **Tables say what descriptions ask for.**  If a description gives a tree and the tree can be
encoded as a table, then the table is sound and is read, from its first byte to its last, as the
texts of the description, filled up, and its numbers, and behind them as its scopes in order with
their devices in order: each under its name in normal form, and each device with its identifiers,
its number, its status and its resources, as far as the description gives them. -/
theorem readBoard_description {description : Description} {node : Node} {table : ByteArray}
    (hNode : description.node = .ok node) (hTable : (Table.encode node).1 = .ok table) :
    readBoard table = some description.reading := by
  obtain ⟨header, scopes, hHeader, hScopes, rfl⟩ := Description.node_eq_ok_iff.1 hNode
  obtain ⟨layout, hLayout, hBytes⟩ := Table.encode_ok_inv hTable
  obtain ⟨⟨hEncodable, -⟩, -⟩ := Layout.ofBody_eq_ok_iff.1 hLayout
  obtain ⟨found, hCheck⟩ :=
    (Table.check_ok_iff_sound table).2 (Table.sound_of_image hLayout hBytes)
  have hIdentity : readIdentity table.data.toList = description.table.reading := by
    rw [hBytes]
    exact readIdentity_header hHeader _ _ _
  have hBody : table.data.toList.drop 36 = scopes.flatMap encode := by
    rw [hBytes]
    exact List.drop_left' (Header.length_bytes _)
  have hItems : readAll readScope (scopes.flatMap encode) =
      some (description.scopes.map Scope.reading) :=
    Node.readAll_encode rfl (readsAs_of_forall₂ hScopes fun _ _ => Scope.readsAs) hEncodable
  rw [readBoard, hCheck, hIdentity, hBody]
  simp only [hItems]
  rfl

/-- A serial port with everything, and a device with an identifier that cannot be packed and nothing
else. -/
theorem readBoard_description_port :
    let description : Description := ⟨{}, [⟨"\\_sb", [
      ⟨"COM1", "PNP0501", some 1, some "ns16550", some 15, [.io 0x3F8 0x3F8 1 8 true]⟩,
      ⟨"FWC", "QEMU0002X", none, none, none, []⟩]⟩]⟩
    ∃ node table, description.node = .ok node ∧ (Table.encode node).1 = .ok table ∧
      readBoard table = some ⟨⟨"SSDT", 2, "HADRON", "SSDTGEN ", 0, "HDRN", 0⟩, [("\\_SB_", [
        ("COM1", [.hid (.packed 0x0105D041), .uid 1, .cid (.text "ns16550"), .sta 0 15,
          .crs [.io 0x3F8 0x3F8 1 8 true]]),
        ("FWC_", [.hid (.text "QEMU0002X")])])]⟩ := by
  intro description
  have hSize : (match description.node with
      | .ok node => (Table.query node).1
      | .error _ => .error .invalidTree) = .ok 134 := by
    decide +kernel
  have hTexts : padTo 4 "SSDT" = "SSDT" ∧ padTo 6 "HADRON" = "HADRON" ∧
      padTo 8 "SSDTGEN" = "SSDTGEN " ∧ padTo 4 "HDRN" = "HDRN" := by
    decide
  have hNames : normalName "\\_sb" = "\\_SB_" ∧ normalName "COM1" = "COM1" ∧
      normalName "FWC" = "FWC_" := by
    decide
  have hIds : Id.ofText "PNP0501" = .packed 0x0105D041 ∧ Id.ofText "ns16550" = .text "ns16550" ∧
      Id.ofText "QEMU0002X" = .text "QEMU0002X" := by
    decide
  cases hNode : description.node with
  | error cause =>
      rw [hNode] at hSize
      cases hSize
  | ok node =>
      rw [hNode] at hSize
      obtain ⟨table, hTable⟩ := Description.exists_table hNode hSize
      refine ⟨node, table, rfl, hTable, ?_⟩
      rw [readBoard_description hNode hTable]
      simp [description, Description.reading, Identity.reading, Scope.reading, Device.reading,
        Device.entries, hTexts, hNames, hIds]

end Acpi.Board
