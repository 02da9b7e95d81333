import Acpi.Proofs.BoardTree
import Acpi.Proofs.EisaRoundTrip
import Acpi.Proofs.PathGrammar
import Acpi.Proofs.ResourceTemplate
import Acpi.Proofs.Table

/-!
# Which descriptions are accepted

Whether a description gives a tree is decided by its texts and numbers one by one, and
`Description.Valid` asks for each of them what its place in the table demands: header texts that fit
their fields, names of the path grammar, identifiers without characters that a string constant
cannot hold, and resources that a descriptor can.  Nothing is said there about building.

The proof follows the layers of a description.  Each part that can be refused has one lemma that
says when it is not (`exists_padded_iff`, `exists_identifier_iff`, `exists_template_iff`,
`Name.exists_parse_iff`), and a device, a scope and a description are accepted exactly if all their
parts are.

Main result: `Description.accepts_valid`.
-/

namespace Acpi

/-! ## Names -/

/-- A text of the path grammar. -/
def Name.IsPath (text : String) : Prop :=
  ∃ spelling : Spelling, spelling.Valid ∧ spelling.text = text.toList

theorem Name.exists_parse_iff {text : String} :
    (∃ path, Path.parse text = .ok path) ↔ IsPath text := by
  constructor
  · rintro ⟨path, hPath⟩
    obtain ⟨spelling, hValid, hText, -⟩ := Path.exists_spelling (Path.ofChars?_of_parse hPath)
    exact ⟨spelling, hValid, hText⟩
  · rintro ⟨spelling, hValid, hText⟩
    obtain ⟨path, hPath, -⟩ := spelling.exists_path hValid
    rw [hText] at hPath
    refine ⟨path, ?_⟩
    rw [Path.parse, hPath]

namespace Board

/-! ## Validity -/

/-- A text for a header field: not empty, plain characters only, and no more bytes than the field
has. -/
structure HeaderText (limit : Nat) (text : String) : Prop where
  plain : ∀ c ∈ text.toList, c.toNat < 128
  ne_empty : text ≠ ""
  size_le : text.utf8ByteSize ≤ limit

/-- A text for an identifier: plain characters, and no zero among them. -/
def IdText (text : String) : Prop := ∀ c ∈ text.toList, c.toNat < 128 ∧ c.toNat ≠ 0

structure Identity.Valid (identity : Identity) : Prop where
  signature : HeaderText 4 identity.signature
  oemId : HeaderText 6 identity.oemId
  oemTableId : HeaderText 8 identity.oemTableId
  creatorId : HeaderText 4 identity.creatorId

structure Device.Valid (device : Device) : Prop where
  name : Name.IsPath device.name
  hid : IdText device.hid
  cid : ∀ cid, device.cid = some cid → IdText cid
  line_le : ∀ line edgeTriggered activeLow shared,
    .irq line edgeTriggered activeLow shared ∈ device.resources → line.toNat ≤ 15
  channel_le : ∀ channel busMaster, .dma channel busMaster ∈ device.resources → channel.toNat ≤ 7

structure Scope.Valid (scope : Scope) : Prop where
  path : Name.IsPath scope.path
  devices : ∀ device ∈ scope.devices, device.Valid

/-- What a description must be like in order to give a tree. -/
structure Description.Valid (description : Description) : Prop where
  table : description.table.Valid
  scopes : ∀ scope ∈ description.scopes, scope.Valid

/-! ## Header texts -/

theorem fits_iff (limit : Nat) (text : String) :
    fits limit text.toList = true ↔ HeaderText limit text := by
  have hPlain : text.toList.all (fun c => decide (c.toNat < 128)) = true ↔
      ∀ c ∈ text.toList, c.toNat < 128 := by
    simp only [List.all_eq_true, decide_eq_true_eq]
  have hEmpty : (!text.toList.isEmpty) = true ↔ text ≠ "" := by
    simp [String.toList_eq_nil_iff]
  rw [fits, Bool.and_eq_true, Bool.and_eq_true, hPlain, hEmpty, decide_eq_true_eq]
  -- The bytes of a plain text are as many as its characters.
  have hSize : (∀ c ∈ text.toList, c.toNat < 128) → text.utf8ByteSize = text.toList.length := by
    intro h
    have hBytes := congrArg List.length (PlainText.bytes_of_plain h)
    rwa [List.length_map] at hBytes
  constructor
  · rintro ⟨⟨hAll, hSome⟩, hLength⟩
    exact ⟨hAll, hSome, by rw [hSize hAll]; exact hLength⟩
  · rintro ⟨hAll, hSome, hLe⟩
    exact ⟨⟨hAll, hSome⟩, by rw [← hSize hAll]; exact hLe⟩

theorem exists_padded_iff {size : Nat} {field text : String} :
    (∃ bytes, padded size field text = .ok bytes) ↔ HeaderText size text := by
  rw [← fits_iff, padded]
  by_cases hFits : fits size text.toList = true
  · rw [if_pos hFits]
    exact ⟨fun _ => hFits, fun _ => ⟨_, rfl⟩⟩
  · rw [if_neg hFits]
    constructor
    · rintro ⟨_, ⟨⟩⟩
    · intro h
      exact absurd h hFits

theorem Identity.exists_header_iff {identity : Identity} :
    (∃ header, identity.header = .ok header) ↔ identity.Valid := by
  constructor
  · rintro ⟨header, h⟩
    obtain ⟨signature, oemId, oemTableId, creatorId, hSignature, hOemId, hOemTableId, hCreatorId,
      -⟩ := header_eq_ok_iff.1 h
    exact
      { signature := exists_padded_iff.1 ⟨signature, hSignature⟩
        oemId := exists_padded_iff.1 ⟨oemId, hOemId⟩
        oemTableId := exists_padded_iff.1 ⟨oemTableId, hOemTableId⟩
        creatorId := exists_padded_iff.1 ⟨creatorId, hCreatorId⟩ }
  · intro h
    obtain ⟨signature, hSignature⟩ := exists_padded_iff.2 h.signature
    obtain ⟨oemId, hOemId⟩ := exists_padded_iff.2 h.oemId
    obtain ⟨oemTableId, hOemTableId⟩ := exists_padded_iff.2 h.oemTableId
    obtain ⟨creatorId, hCreatorId⟩ := exists_padded_iff.2 h.creatorId
    exact ⟨_, header_eq_ok_iff.2 ⟨signature, oemId, oemTableId, creatorId, hSignature, hOemId,
      hOemTableId, hCreatorId, rfl⟩⟩

/-! ## Identifiers -/

theorem exists_string_iff {text : String} :
    (∃ node, Term.string text = .ok node) ↔ IdText text := by
  have hAll : text.toList.all Term.isStringChar = true ↔ IdText text := by
    simp [Term.isStringChar, IdText]
  rw [← hAll, Term.string]
  by_cases hChars : text.toList.all Term.isStringChar = true
  · rw [if_pos hChars]
    exact ⟨fun _ => hChars, fun _ => ⟨_, rfl⟩⟩
  · rw [if_neg hChars]
    constructor
    · rintro ⟨_, ⟨⟩⟩
    · intro h
      exact absurd h hChars

/-- Letters and digits are plain, and none of them is zero. -/
theorem idText_of_hasForm {text : String} (h : EisaId.HasForm text.toList) : IdText text := by
  intro c hMem
  refine ⟨h.plain c hMem, ?_⟩
  rw [← List.take_append_drop 3 text.toList, List.mem_append] at hMem
  rcases hMem with hMem | hMem
  · have := (EisaId.isUpper_iff c).1 (h.letters c hMem)
    omega
  · have := (EisaId.isHexDigit_iff c).1 (h.digits c hMem)
    omega

/-- Both forms of an identifier together ask no more than that it could be a string. -/
theorem exists_identifier_iff {text : String} :
    (∃ node, identifier text = .ok node) ↔ IdText text := by
  by_cases hForm : EisaId.HasForm text.toList
  · exact ⟨fun _ => idText_of_hasForm hForm, fun _ => ⟨_, identifier_of_hasForm hForm⟩⟩
  · simp only [identifier_of_not_hasForm hForm, mapError_eq_ok_iff]
    exact exists_string_iff

/-! ## Devices -/

theorem exists_namedId_iff {name id : String} (hName : Name.IsPath name) :
    (∃ node, NamedId name id node) ↔ IdText id := by
  rw [← exists_identifier_iff]
  constructor
  · rintro ⟨_, value, hValue, -⟩
    exact ⟨value, hValue⟩
  · rintro ⟨value, hValue⟩
    obtain ⟨path, hPath⟩ := Name.exists_parse_iff.2 hName
    exact ⟨_, value, hValue, Term.name_eq_ok_iff.2 ⟨path, hPath, rfl⟩⟩

theorem exists_template_iff {resources : List ListedResource} :
    (∃ node, NamedTemplate "_CRS" resources node) ↔
      ∀ resource ∈ resources, resource.toResource.inRange = true := by
  constructor
  · rintro ⟨_, value, hValue, -⟩
    obtain ⟨bytes, hBytes, -⟩ := bind_eq_ok_iff.1 hValue
    exact List.forall_mem_map.1 (Resource.template_eq_ok_iff.1 hBytes).1
  · intro hRange
    have hTemplate := Resource.template_of_inRange (List.forall_mem_map.2 hRange)
    obtain ⟨path, hPath⟩ : ∃ path, Name.Path.parse "_CRS" = .ok path := ⟨_, rfl⟩
    exact ⟨_, _, bind_eq_ok_iff.2 ⟨_, hTemplate, rfl⟩, Term.name_eq_ok_iff.2 ⟨path, hPath, rfl⟩⟩

/-- All resources are in range exactly if no line and no channel is too large. -/
theorem forall_inRange_iff {resources : List ListedResource} :
    (∀ resource ∈ resources, resource.toResource.inRange = true) ↔
      (∀ line edgeTriggered activeLow shared,
          .irq line edgeTriggered activeLow shared ∈ resources → line.toNat ≤ 15) ∧
        ∀ channel busMaster, .dma channel busMaster ∈ resources → channel.toNat ≤ 7 := by
  constructor
  · intro h
    refine ⟨fun line edgeTriggered activeLow shared hMem => ?_, fun channel busMaster hMem => ?_⟩
    · exact UInt8.le_iff_toNat_le.1 (of_decide_eq_true (h _ hMem))
    · exact UInt8.le_iff_toNat_le.1 (of_decide_eq_true (h _ hMem))
  · rintro ⟨hLine, hChannel⟩ resource hMem
    cases resource with
    | irq line edgeTriggered activeLow shared =>
        exact decide_eq_true (UInt8.le_iff_toNat_le.2 (hLine _ _ _ _ hMem))
    | dma channel busMaster =>
        exact decide_eq_true (UInt8.le_iff_toNat_le.2 (hChannel _ _ hMem))
    | io | fixedIo | memory32 | fixedMemory32 | extendedIrq => rfl

namespace Device

variable {device : Device}

theorem exists_body_iff :
    (∃ body, device.body = .ok body) ↔
      IdText device.hid ∧ (∀ cid, device.cid = some cid → IdText cid) ∧
        ∀ resource ∈ device.resources, resource.toResource.inRange = true := by
  have hHidPath : Name.IsPath "_HID" := Name.exists_parse_iff.1 ⟨_, rfl⟩
  have hCidPath : Name.IsPath "_CID" := Name.exists_parse_iff.1 ⟨_, rfl⟩
  have hCid : (∃ nodes, List.Forall₂ (NamedId "_CID") device.cid.toList nodes) ↔
      ∀ cid, device.cid = some cid → IdText cid := by
    simp only [exists_forall₂_iff, exists_namedId_iff hCidPath, Option.mem_toList]
  have hCrs : (∃ nodes, List.Forall₂ (NamedTemplate "_CRS") device.template?.toList nodes) ↔
      ∀ resource ∈ device.resources, resource.toResource.inRange = true := by
    simp only [exists_forall₂_iff, exists_template_iff, template?]
    cases device.resources <;> simp
  rw [← exists_namedId_iff hHidPath, ← hCid, ← hCrs]
  constructor
  · rintro ⟨body, hBody⟩
    obtain ⟨hid, uid, cid, sta, crs, hHid, -, hCid, -, hCrs, -⟩ := body_eq_ok_iff.1 hBody
    exact ⟨⟨hid, hHid⟩, ⟨cid, hCid⟩, ⟨crs, hCrs⟩⟩
  · rintro ⟨⟨hid, hHid⟩, ⟨cid, hCid⟩, ⟨crs, hCrs⟩⟩
    -- The number and the status of a device are never refused.
    obtain ⟨uid, hUid⟩ : ∃ uid, List.Forall₂ (NamedInteger "_UID") device.uid.toList uid :=
      exists_forall₂_iff.2 fun _ _ => ⟨_, rfl⟩
    obtain ⟨sta, hSta⟩ : ∃ sta, List.Forall₂ StatusMethod device.sta.toList sta :=
      exists_forall₂_iff.2 fun _ _ => ⟨_, rfl⟩
    exact ⟨_, body_eq_ok_iff.2 ⟨hid, uid, cid, sta, crs, hHid, hUid, hCid, hSta, hCrs, rfl⟩⟩

theorem exists_node_iff : (∃ node, device.node = .ok node) ↔ device.Valid := by
  constructor
  · rintro ⟨node, hNode⟩
    obtain ⟨body, hBody, hDevice⟩ := node_eq_ok_iff.1 hNode
    obtain ⟨hHid, hCid, hResources⟩ := exists_body_iff.1 ⟨body, hBody⟩
    obtain ⟨hLine, hChannel⟩ := forall_inRange_iff.1 hResources
    obtain ⟨path, hPath, -⟩ := Term.device_eq_ok_iff.1 hDevice
    exact ⟨Name.exists_parse_iff.1 ⟨path, hPath⟩, hHid, hCid, hLine, hChannel⟩
  · intro h
    obtain ⟨body, hBody⟩ :=
      exists_body_iff.2 ⟨h.hid, h.cid, forall_inRange_iff.2 ⟨h.line_le, h.channel_le⟩⟩
    obtain ⟨path, hPath⟩ := Name.exists_parse_iff.2 h.name
    exact ⟨_, node_eq_ok_iff.2 ⟨body, hBody, Term.device_eq_ok_iff.2 ⟨path, hPath, rfl⟩⟩⟩

end Device

/-! ## Scopes and whole descriptions -/

theorem Scope.exists_node_iff {scope : Scope} : (∃ node, scope.node = .ok node) ↔ scope.Valid := by
  constructor
  · rintro ⟨node, hNode⟩
    obtain ⟨devices, hDevices, hScope⟩ := node_eq_ok_iff.1 hNode
    obtain ⟨path, hPath, -⟩ := Term.scope_eq_ok_iff.1 hScope
    refine ⟨Name.exists_parse_iff.1 ⟨path, hPath⟩, fun device hMem => ?_⟩
    exact Device.exists_node_iff.1 (exists_forall₂_iff.1 ⟨devices, hDevices⟩ device hMem)
  · intro h
    obtain ⟨devices, hDevices⟩ := exists_forall₂_iff.2 fun device hMem =>
      Device.exists_node_iff.2 (h.devices device hMem)
    obtain ⟨path, hPath⟩ := Name.exists_parse_iff.2 h.path
    exact ⟨_, node_eq_ok_iff.2 ⟨devices, hDevices, Term.scope_eq_ok_iff.2 ⟨path, hPath, rfl⟩⟩⟩

namespace Description

variable {description : Description}

theorem exists_node_iff : (∃ node, description.node = .ok node) ↔ description.Valid := by
  constructor
  · rintro ⟨node, hNode⟩
    obtain ⟨header, scopes, hHeader, hScopes, -⟩ := node_eq_ok_iff.1 hNode
    refine ⟨Identity.exists_header_iff.1 ⟨header, hHeader⟩, fun scope hMem => ?_⟩
    exact Scope.exists_node_iff.1 (exists_forall₂_iff.1 ⟨scopes, hScopes⟩ scope hMem)
  · intro h
    obtain ⟨header, hHeader⟩ := Identity.exists_header_iff.2 h.table
    obtain ⟨scopes, hScopes⟩ := exists_forall₂_iff.2 fun scope hMem =>
      Scope.exists_node_iff.2 (h.scopes scope hMem)
    exact ⟨_, node_eq_ok_iff.2 ⟨header, scopes, hHeader, hScopes, rfl⟩⟩

end Description

/-! ## What is built -/

/-- The term of a scope: its opcode, its path and as many terms as it has devices. -/
def ScopeTerm (scope : Scope) (node : Node) : Prop :=
  ∃ path devices, Name.Path.parse scope.path = .ok path ∧
    devices.length = scope.devices.length ∧
    node = Term.object Opcode.scopeOp [Term.raw path.bytes] devices

theorem scopeTerm_of_node {scope : Scope} {node : Node} (h : scope.node = .ok node) :
    ScopeTerm scope node := by
  obtain ⟨devices, hDevices, hScope⟩ := Scope.node_eq_ok_iff.1 h
  obtain ⟨path, hPath, rfl⟩ := Term.scope_eq_ok_iff.1 hScope
  exact ⟨path, devices, hPath, hDevices.length_eq.symm, rfl⟩

/-- A header without a stamp has none that could be stale. -/
theorem write_ne_staleStamp {header : Header} (h : header.length = 0) (body : List Node)
    (buffer : ByteArray) :
    (Table.write (.block header body) buffer).result ≠ .error .staleStamp := by
  rw [Table.result_write, Table.verdict]
  cases hLayout : Layout.ofBody body with
  | error cause => rcases Layout.error_of_ofBody hLayout with rfl | rfl <;> simp
  | ok layout =>
      have hFresh : ¬ Table.Stale header layout := fun hStale => hStale.1 h
      simp only [if_neg hFresh]
      split <;> simp

namespace Description

/-- The tree of a description: a block without a stamp, and in it one term for each scope, in the
order of the scopes. -/
structure Tree (description : Description) (header : Header) (body : List Node) : Prop where
  length_eq : header.length = 0
  unstamped : header.isStamped = false
  count : body.length = description.scopes.length
  scopes : List.Forall₂ ScopeTerm description.scopes body
  not_stale : ∀ buffer, (Table.write (.block header body) buffer).result ≠ .error .staleStamp

/-- **Validity.**  A description gives a tree exactly if it is valid, wherever in it a part could be
refused and whatever stands before or behind that part.  An identifier of the packed form is valid
as it is, and the second look at it agrees with the first.  The tree is a block without a stamp with
one term for each scope, so that no write of it can complain about its stamp. -/
theorem accepts_valid (description : Description) :
    ((∃ node, description.node = .ok node) ↔ description.Valid) ∧
      (∀ id, EisaId.HasForm id.toList →
        IdText id ∧ ∃ node, Term.eisaId id = .ok node ∧ identifier id = .ok node) ∧
      ∀ node, description.node = .ok node →
        ∃ header body, node = .block header body ∧ description.Tree header body := by
  refine ⟨exists_node_iff, fun id hForm => ?_, fun node hNode => ?_⟩
  · exact ⟨idText_of_hasForm hForm, _, eisaId_of_hasForm hForm, identifier_of_hasForm hForm⟩
  obtain ⟨header, body, hHeader, hScopes, rfl⟩ := node_eq_ok_iff.1 hNode
  have hLength := Identity.unstamped hHeader
  refine ⟨header, body, rfl, hLength, ?_, hScopes.length_eq.symm,
    hScopes.imp fun _ _ => scopeTerm_of_node, write_ne_staleStamp hLength body⟩
  rw [Header.isStamped, hLength]
  rfl

/-- A device with everything is accepted; a line that is one too high is refused, in the second
device of the second scope. -/
theorem accepts_valid_ports :
    let port : Device := ⟨"COM1", "PNP0501", some 1, some "ACPI0007", some 15,
      [.irq 15 true false false, .dma 7 false]⟩
    let other : Device := { port with cid := none, resources := [.irq 16 true false false] }
    Valid ⟨{}, [⟨"\\_SB", [port]⟩, ⟨"^", []⟩]⟩ ∧
      ∃ cause, node ⟨{}, [⟨"\\_SB", [port]⟩, ⟨"^", [port, other]⟩]⟩ = .error cause := by
  intro port other
  constructor
  · have hOk : (node ⟨{}, [⟨"\\_SB", [port]⟩, ⟨"^", []⟩]⟩).isOk = true := by decide +kernel
    cases hNode : node ⟨{}, [⟨"\\_SB", [port]⟩, ⟨"^", []⟩]⟩ with
    | error cause =>
        rw [hNode] at hOk
        cases hOk
    | ok tree => exact (accepts_valid _).1.1 ⟨tree, hNode⟩
  · cases hNode : node ⟨{}, [⟨"\\_SB", [port]⟩, ⟨"^", [port, other]⟩]⟩ with
    | error cause => exact ⟨cause, rfl⟩
    | ok tree =>
        have hValid := (accepts_valid _).1.1 ⟨tree, hNode⟩
        have hDevice := (hValid.scopes ⟨"^", [port, other]⟩ (by simp)).devices other (by simp)
        have hLine := hDevice.line_le 16 true false false (by simp [other])
        exact absurd hLine (by decide)

end Description

end Board

end Acpi
