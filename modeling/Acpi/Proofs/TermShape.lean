import Acpi.Proofs.Refusal
import Acpi.Tree.Term

/-!
# The trees of terms

A construct that can be refused gives a tree exactly if its parts are accepted, and then the tree is
known: that is what the equations `Term.scope_eq_ok_iff`, `Term.name_eq_ok_iff` and so on say, so
that nothing else needs to look into the constructs.
-/

namespace Acpi

namespace Term

/-! ## What is built -/

section Builders

variable {text : String} {node value : Node} {body : List Node}

theorem nameString_eq_ok_iff :
    nameString text = .ok node ↔
      ∃ path, Name.Path.parse text = .ok path ∧ node = raw path.bytes := by
  rw [nameString, bind_eq_ok_iff]
  simp only [pure, Except.pure, Except.ok.injEq, eq_comm]

/-- A term with a name is accepted if the name is. -/
theorem named_eq_ok_iff {tree : Node → Node} :
    (do return tree (← nameString text) : Except TermError Node) = .ok node ↔
      ∃ path, Name.Path.parse text = .ok path ∧ node = tree (raw path.bytes) := by
  rw [bind_eq_ok_iff]
  simp only [nameString_eq_ok_iff, pure, Except.pure, Except.ok.injEq]
  constructor
  · rintro ⟨_, ⟨path, hPath, rfl⟩, rfl⟩
    exact ⟨path, hPath, rfl⟩
  · rintro ⟨path, hPath, rfl⟩
    exact ⟨_, ⟨path, hPath, rfl⟩, rfl⟩

theorem scope_eq_ok_iff :
    scope text body = .ok node ↔
      ∃ path, Name.Path.parse text = .ok path ∧
        node = object Opcode.scopeOp [raw path.bytes] body :=
  named_eq_ok_iff

theorem device_eq_ok_iff :
    device text body = .ok node ↔
      ∃ path, Name.Path.parse text = .ok path ∧
        node = .object (Head.extended Opcode.deviceExt) [raw path.bytes] body :=
  named_eq_ok_iff

theorem name_eq_ok_iff :
    name text value = .ok node ↔
      ∃ path, Name.Path.parse text = .ok path ∧
        node = object Opcode.nameOp [raw path.bytes, value] [] :=
  named_eq_ok_iff

theorem method_eq_ok_iff {args syncLevel : UInt8} {serialized : Bool} :
    method text args serialized syncLevel body = .ok node ↔
      args.toNat ≤ maxArguments ∧ syncLevel ≤ maxSyncLevel ∧
        ∃ path, Name.Path.parse text = .ok path ∧
          node = object Opcode.methodOp
            [raw path.bytes, raw [methodFlags args serialized syncLevel]] body := by
  unfold method
  by_cases hArgs : args.toNat > maxArguments
  · rw [if_pos hArgs]
    refine ⟨nofun, fun h => ?_⟩
    omega
  · by_cases hSync : syncLevel > maxSyncLevel
    · rw [if_neg hArgs, if_pos hSync]
      refine ⟨nofun, fun h => ?_⟩
      exact absurd h.2.1 (UInt8.not_le.2 hSync)
    · rw [if_neg hArgs, if_neg hSync]
      refine Iff.trans named_eq_ok_iff ⟨fun h => ?_, fun h => h.2.2⟩
      exact ⟨Nat.not_lt.1 hArgs, UInt8.not_lt.1 hSync, h⟩

theorem call_eq_ok_iff {args : List Node} :
    call text args = .ok node ↔
      args.length ≤ maxArguments ∧
        ∃ path, Name.Path.parse text = .ok path ∧
          node = .object Head.group.asInvocation
            [raw path.bytes, raw [UInt8.ofNat args.length]] args := by
  unfold call
  by_cases hArgs : args.length > maxArguments
  · rw [if_pos hArgs]
    refine ⟨nofun, fun h => ?_⟩
    omega
  · rw [if_neg hArgs]
    exact Iff.trans named_eq_ok_iff ⟨fun h => ⟨Nat.not_lt.1 hArgs, h⟩, fun h => h.2⟩

theorem package_eq_ok_iff {elements : List Node} :
    package elements = .ok node ↔
      elements.length ≤ maxElements ∧
        node = object Opcode.packageOp [raw [UInt8.ofNat elements.length]] elements := by
  unfold package
  by_cases hLength : elements.length ≤ maxElements
  · rw [if_pos hLength, Except.ok.injEq]
    exact ⟨fun h => ⟨hLength, h.symm⟩, fun h => h.2.symm⟩
  · rw [if_neg hLength]
    exact ⟨nofun, fun h => absurd h.1 hLength⟩

end Builders

end Term

end Acpi
