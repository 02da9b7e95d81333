import Acpi.Board.Tree
import Acpi.Proofs.Construction
import Acpi.Proofs.EisaId

/-!
# The trees of descriptions

A description gives a tree exactly if all its parts are accepted, and then the tree is put together
from theirs: a block of scopes (`Description.node_eq_ok_iff`), scopes of devices
(`Scope.node_eq_ok_iff`), and devices with their terms in order (`Device.node_eq_ok_iff`).  Whatever
is said of the trees of descriptions goes along these equations.

The scopes are trees put together from terms (`Scope.constructed`).  So no description gives a tree
that is put together badly, nor one with a stamp (`Description.wellFormed`, `Identity.unstamped`).
-/

namespace Acpi.Board

open Term (Constructed)

/-! ## What is built -/

/-- An identifier under a name. -/
def NamedId (name id : String) (node : Node) : Prop :=
  ∃ value, identifier id = .ok value ∧ Term.name name value = .ok node

/-- A number under a name. -/
def NamedInteger (name : String) (value : UInt64) (node : Node) : Prop :=
  Term.name name (Term.integer value) = .ok node

/-- A method that gives a status. -/
def StatusMethod (status : UInt8) (node : Node) : Prop :=
  Term.method "_STA" 0 false 0 [Term.returnValue (Term.integer status.toUInt64)] = .ok node

/-- The template of listed resources under a name. -/
def NamedTemplate (name : String) (resources : List ListedResource) (node : Node) : Prop :=
  ∃ value, Term.resourceTemplate (resources.map ListedResource.toResource) = .ok value ∧
    Term.name name value = .ok node

section Identifiers

variable {id : String}

theorem eisaId_of_hasForm (h : EisaId.HasForm id.toList) :
    Term.eisaId id = .ok (Term.dword (EisaId.packed id.toList)) := by
  rw [Term.eisaId, EisaId.parse_eq, if_pos h]
  rfl

/-- An identifier of the packed form is judged a second time when its constant is built, with the
same result. -/
theorem identifier_of_hasForm (h : EisaId.HasForm id.toList) :
    identifier id = .ok (Term.dword (EisaId.packed id.toList)) := by
  rw [identifier, eisaId_of_hasForm h, EisaId.parse_eq, if_pos h]
  rfl

theorem identifier_of_not_hasForm (h : ¬ EisaId.HasForm id.toList) :
    identifier id = (Term.string id).mapError (.badId id) := by
  rw [identifier, EisaId.parse_eq, if_neg h]
  rfl

end Identifiers

namespace Device

variable {device : Device} {node : Node} {body : List Node}

/-- The resources of a device, if it has any. -/
def template? (device : Device) : Option (List ListedResource) :=
  if device.resources.isEmpty then none else some device.resources

theorem part_eq_ok_iff {α : Type} {value : Option α} {build : α → Except BuildError Node}
    {nodes : List Node} :
    part value build = .ok nodes ↔
      List.Forall₂ (fun value node => build value = .ok node) value.toList nodes := by
  rw [← mapM_eq_ok_iff]
  cases value with
  | none => exact Iff.rfl
  | some value =>
      rw [part, Option.toList_some, List.mapM_cons]
      exact Iff.rfl

/-- The terms of a device, in order: `_HID`, and those of `_UID`, `_CID`, `_STA` and `_CRS` that the
description asks for. -/
theorem body_eq_ok_iff :
    device.body = .ok body ↔
      ∃ hid uid cid sta crs, NamedId "_HID" device.hid hid ∧
        List.Forall₂ (NamedInteger "_UID") device.uid.toList uid ∧
        List.Forall₂ (NamedId "_CID") device.cid.toList cid ∧
        List.Forall₂ StatusMethod device.sta.toList sta ∧
        List.Forall₂ (NamedTemplate "_CRS") device.template?.toList crs ∧
        body = hid :: (uid ++ cid ++ sta ++ crs) := by
  unfold Device.body
  simp only [bind_eq_ok_iff, mapError_eq_ok_iff, part_eq_ok_iff, named, statusMethod]
  constructor
  · rintro ⟨value, hValue, hid, hHid, uid, hUid, cid, hCid, sta, hSta, crs, hCrs, ⟨⟩⟩
    exact ⟨hid, uid, cid, sta, crs, ⟨value, hValue, hHid⟩, hUid, hCid, hSta, hCrs, rfl⟩
  · rintro ⟨hid, uid, cid, sta, crs, ⟨value, hValue, hHid⟩, hUid, hCid, hSta, hCrs, rfl⟩
    exact ⟨value, hValue, hid, hHid, uid, hUid, cid, hCid, sta, hSta, crs, hCrs, rfl⟩

theorem node_eq_ok_iff :
    device.node = .ok node ↔
      ∃ body, device.body = .ok body ∧ Term.device device.name body = .ok node := by
  rw [Device.node, bind_eq_ok_iff]
  simp only [mapError_eq_ok_iff]

end Device

theorem Scope.node_eq_ok_iff {scope : Scope} {node : Node} :
    scope.node = .ok node ↔
      ∃ devices, List.Forall₂ (fun device node => Device.node device = .ok node) scope.devices
        devices ∧ Term.scope scope.path devices = .ok node := by
  rw [Scope.node, bind_eq_ok_iff]
  simp only [mapError_eq_ok_iff, mapM_eq_ok_iff]

/-- The header that a description asks for. -/
theorem Identity.header_eq_ok_iff {identity : Identity} {header : Header} :
    identity.header = .ok header ↔
      ∃ signature oemId oemTableId creatorId,
        padded 4 "signature" identity.signature = .ok signature ∧
        padded 6 "oem-id" identity.oemId = .ok oemId ∧
        padded 8 "oem-table-id" identity.oemTableId = .ok oemTableId ∧
        padded 4 "creator-id" identity.creatorId = .ok creatorId ∧
        header = {
          signature, oemId, oemTableId
          length := 0
          revision := identity.revision
          checksum := 0
          oemRevision := identity.oemRevision
          creatorId := UInt32.ofNat (LittleEndian.decode creatorId.toList)
          creatorRevision := identity.creatorRevision } := by
  simp only [Identity.header, bind_eq_ok_iff]
  constructor
  · rintro ⟨signature, hSignature, oemId, hOemId, oemTableId, hOemTableId, creatorId, hCreatorId,
      ⟨⟩⟩
    exact ⟨signature, oemId, oemTableId, creatorId, hSignature, hOemId, hOemTableId, hCreatorId,
      rfl⟩
  · rintro ⟨signature, oemId, oemTableId, creatorId, hSignature, hOemId, hOemTableId, hCreatorId,
      rfl⟩
    exact ⟨signature, hSignature, oemId, hOemId, oemTableId, hOemTableId, creatorId, hCreatorId,
      rfl⟩

theorem Description.node_eq_ok_iff {description : Description} {node : Node} :
    description.node = .ok node ↔
      ∃ header scopes, description.table.header = .ok header ∧
        List.Forall₂ (fun scope node => Scope.node scope = .ok node) description.scopes scopes ∧
        node = .block header scopes := by
  simp only [Description.node, bind_eq_ok_iff, mapM_eq_ok_iff]
  constructor
  · rintro ⟨header, hHeader, scopes, hScopes, ⟨⟩⟩
    exact ⟨header, scopes, hHeader, hScopes, rfl⟩
  · rintro ⟨header, scopes, hHeader, hScopes, rfl⟩
    exact ⟨header, hHeader, scopes, hScopes, rfl⟩

/-! ## Trees put together from terms -/

/-- What holds of each result holds of all of them. -/
theorem forall_mem_of_forall₂ {α β : Type} {R : α → β → Prop} {P : β → Prop} {items : List α}
    {results : List β} (h : List.Forall₂ R items results)
    (hEach : ∀ item result, R item result → P result) : ∀ result ∈ results, P result := by
  induction h with
  | nil => nofun
  | cons hHead _ ih => exact List.forall_mem_cons.2 ⟨hEach _ _ hHead, ih⟩

theorem constructed_identifier {id : String} {node : Node} (h : identifier id = .ok node) :
    Constructed node := by
  unfold identifier at h
  split at h
  · exact .eisaId (mapError_eq_ok_iff.1 h)
  · exact .string (mapError_eq_ok_iff.1 h)

theorem NamedId.constructed {name id : String} {node : Node} (h : NamedId name id node) :
    Constructed node := by
  obtain ⟨value, hValue, hNode⟩ := h
  exact .name hNode (constructed_identifier hValue)

theorem NamedTemplate.constructed {name : String} {resources : List ListedResource} {node : Node}
    (h : NamedTemplate name resources node) : Constructed node := by
  obtain ⟨value, hValue, hNode⟩ := h
  exact .name hNode (.resourceTemplate hValue)

theorem StatusMethod.constructed {status : UInt8} {node : Node} (h : StatusMethod status node) :
    Constructed node := by
  refine .method h fun node hMem => ?_
  rw [List.mem_singleton.1 hMem]
  exact .returnValue (.integer _)

theorem Device.constructed {device : Device} {node : Node} (h : device.node = .ok node) :
    Constructed node := by
  obtain ⟨body, hBody, hNode⟩ := Device.node_eq_ok_iff.1 h
  obtain ⟨hid, uid, cid, sta, crs, hHid, hUid, hCid, hSta, hCrs, rfl⟩ := body_eq_ok_iff.1 hBody
  refine .device hNode (List.forall_mem_cons.2 ⟨hHid.constructed, ?_⟩)
  simp only [List.forall_mem_append]
  refine ⟨⟨⟨?_, ?_⟩, ?_⟩, ?_⟩
  · exact forall_mem_of_forall₂ hUid fun value _ h => .name h (.integer value)
  · exact forall_mem_of_forall₂ hCid fun _ _ h => h.constructed
  · exact forall_mem_of_forall₂ hSta fun _ _ h => h.constructed
  · exact forall_mem_of_forall₂ hCrs fun _ _ h => h.constructed

theorem Scope.constructed {scope : Scope} {node : Node} (h : scope.node = .ok node) :
    Constructed node := by
  obtain ⟨devices, hDevices, hNode⟩ := Scope.node_eq_ok_iff.1 h
  exact .scope hNode (forall_mem_of_forall₂ hDevices fun _ _ => Device.constructed)

/-- The tree of a description is put together well. -/
theorem Description.wellFormed {description : Description} {node : Node}
    (h : description.node = .ok node) : node.WellFormed := by
  obtain ⟨header, scopes, -, hScopes, rfl⟩ := Description.node_eq_ok_iff.1 h
  exact forall_mem_of_forall₂ hScopes fun _ _ h => (Scope.constructed h).wellBuilt

/-- The header of a description has not been stamped. -/
theorem Identity.unstamped {identity : Identity} {header : Header}
    (h : identity.header = .ok header) : header.length = 0 := by
  obtain ⟨_, _, _, _, -, -, -, -, rfl⟩ := Identity.header_eq_ok_iff.1 h
  rfl

end Acpi.Board
