import Acpi.Error
import Acpi.Opcode
import Acpi.Table.Header

/-!
# Trees of terms

A definition block is a tree.  Its top is a block with a header; below it stand objects, which have
an opcode, fixed arguments and a body, and data, which are bytes as they are.

Three facts about an object decide how it is written, and its `Head` holds them:

* a *pseudo* object only groups its arguments and writes nothing of its own;
* a *packaged* object has a package length behind its opcode;
* the second fixed argument of an *invocation* is private: it notes how many arguments the call
  passes and is never written.

`Head.writtenArgs` lists the arguments that are written, in the order of writing.
-/

namespace Acpi

/-- What an object is, apart from its arguments. -/
structure Head where
  opcode : UInt8
  /-- The second byte of an extended opcode. -/
  sub : Option UInt8
  /-- The object has a package length. -/
  packaged : Bool
  /-- The object writes nothing but its arguments. -/
  pseudo : Bool
  /-- The object is the call of a method. -/
  invocation : Bool
  deriving DecidableEq, Repr

/-- A tree of terms. -/
inductive Node where
  /-- A definition block: a table header and the terms of the table. -/
  | block (header : Header) (body : List Node)
  /-- An object with its fixed arguments and the terms in its body. -/
  | object (head : Head) (fixed body : List Node)
  /-- Bytes as they are. -/
  | data (bytes : ByteArray)
  deriving Inhabited

namespace Head

/-- An object with a plain opcode. -/
def plain (opcode : UInt8) : Head :=
  { opcode, sub := none, packaged := Opcode.carriesLength opcode none, pseudo := false,
    invocation := false }

/-- An object with an extended opcode. -/
def extended (sub : UInt8) : Head :=
  { opcode := Opcode.extended, sub := some sub,
    packaged := Opcode.carriesLength Opcode.extended (some sub), pseudo := false,
    invocation := false }

/-- A group without an opcode. -/
def group : Head :=
  { opcode := 0, sub := none, packaged := false, pseudo := true, invocation := false }

/-- The same object as the call of a method. -/
def asInvocation (head : Head) : Head := { head with invocation := true }

/-- The bytes of the opcode.  A second byte must be present exactly behind the lead byte of
extended opcodes; a pseudo object is not held to that, as its opcode is not written. -/
def opcodeSize (head : Head) : Except EncodeError Nat :=
  if head.pseudo then
    .ok 0
  else if (head.opcode == Opcode.extended) == head.sub.isSome then
    .ok (if head.sub.isSome then 2 else 1)
  else
    .error .invalidTree

/-- Whether the fixed argument at an index is private. -/
def isPrivate (head : Head) (index : Nat) : Bool := head.invocation && index == 1

/-- The arguments that are written: the fixed ones without the private one, then the body.  The
arguments may be nodes or whatever has been computed for each of them. -/
def writtenArgs {α : Type} (head : Head) (fixed body : List α) : List α :=
  (if head.invocation then fixed.eraseIdx 1 else fixed) ++ body

end Head

namespace Node

/-! ## Equality -/

mutual

/-- Whether two trees are the same. -/
def beq : Node → Node → Bool
  | .block header body, .block header' body' => header == header' && beqAll body body'
  | .object head fixed body, .object head' fixed' body' =>
      head == head' && beqAll fixed fixed' && beqAll body body'
  | .data bytes, .data bytes' => bytes.data == bytes'.data
  | _, _ => false

/-- Whether two lists of trees are the same. -/
def beqAll : List Node → List Node → Bool
  | [], [] => true
  | node :: nodes, node' :: nodes' => beq node node' && beqAll nodes nodes'
  | _, _ => false

end

instance : BEq Node := ⟨beq⟩

mutual

theorem eq_of_beq : ∀ (node other : Node), beq node other = true → node = other
  | .block _ body, .block _ body', h => by
      simp only [beq, Bool.and_eq_true, beq_iff_eq] at h
      rw [h.1, eq_of_beqAll body body' h.2]
  | .object _ fixed body, .object _ fixed' body', h => by
      simp only [beq, Bool.and_eq_true, beq_iff_eq] at h
      rw [h.1.1, eq_of_beqAll fixed fixed' h.1.2, eq_of_beqAll body body' h.2]
  | .data _, .data _, h => by
      simp only [beq, beq_iff_eq] at h
      rw [ByteArray.ext h]
  | .block .., .object .., h | .block .., .data _, h | .object .., .block .., h
  | .object .., .data _, h | .data _, .block .., h | .data _, .object .., h => by
      simp [beq] at h

theorem eq_of_beqAll : ∀ (nodes others : List Node), beqAll nodes others = true → nodes = others
  | [], [], _ => rfl
  | node :: nodes, other :: others, h => by
      simp only [beqAll, Bool.and_eq_true] at h
      rw [eq_of_beq node other h.1, eq_of_beqAll nodes others h.2]
  | [], _ :: _, h | _ :: _, [], h => by simp [beqAll] at h

end

mutual

theorem beq_self : ∀ node : Node, beq node node = true
  | .block _ body => by simp [beq, beqAll_self body]
  | .object _ fixed body => by simp [beq, beqAll_self fixed, beqAll_self body]
  | .data _ => by simp [beq]

theorem beqAll_self : ∀ nodes : List Node, beqAll nodes nodes = true
  | [] => rfl
  | node :: nodes => by simp [beqAll, beq_self node, beqAll_self nodes]

end

instance : LawfulBEq Node where
  rfl {node} := beq_self node
  eq_of_beq {node other} := eq_of_beq node other

instance : DecidableEq Node := fun node other =>
  decidable_of_iff (beq node other = true) ⟨eq_of_beq node other, fun h => h ▸ beq_self node⟩

end Node

end Acpi
