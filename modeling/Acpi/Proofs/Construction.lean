import Acpi.Proofs.IntegerConstant
import Acpi.Proofs.Limits
import Acpi.Proofs.TermShape

/-!
# Trees put together from terms

The constructs of `Term` can be nested in any way, and data can stand anywhere between them.
`Term.Constructed` says which trees come about so: one case for each construct, applied to parts
that were constructed themselves.

Every construct keeps three promises about the object that it builds: its opcode is well paired,
what the object says of itself fits what it holds (`Term.Consistent`), and all its arguments,
written or not, are constructed again.  `Constructed.shape` states this once for all constructs.
The rest goes along the tree and no longer looks into any construct: a part of a constructed tree
is constructed (`Constructed.of_occurs`), and a constructed tree is well built
(`Constructed.wellBuilt`).
-/

namespace Acpi

/-! ## Occurrences -/

/-- A tree stands somewhere in another, as the whole of it or below an argument, be it written or
private. -/
inductive Node.Occurs (part : Node) : Node → Prop
  | here : Occurs part part
  | fixed {head : Head} {fixed body : List Node} {arg : Node} (mem : arg ∈ fixed)
      (inside : Occurs part arg) : Occurs part (.object head fixed body)
  | body {head : Head} {fixed body : List Node} {arg : Node} (mem : arg ∈ body)
      (inside : Occurs part arg) : Occurs part (.object head fixed body)
  | term {header : Header} {body : List Node} {term : Node} (mem : term ∈ body)
      (inside : Occurs part term) : Occurs part (.block header body)

namespace Term

open IntegerConstant (Denotes denotes_integer encodable_integer length_integer_le)

/-! ## Constructed trees -/

/-- The trees that data and accepted constructs make up, nested in any way.  None of them holds a
definition block. -/
inductive Constructed : Node → Prop
  | data (bytes : ByteArray) : Constructed (.data bytes)
  | nameString {path : String} {node : Node} (h : nameString path = .ok node) : Constructed node
  | integer (value : UInt64) : Constructed (integer value)
  | dword (value : UInt32) : Constructed (dword value)
  | string {text : String} {node : Node} (h : string text = .ok node) : Constructed node
  | eisaId {text : String} {node : Node} (h : eisaId text = .ok node) : Constructed node
  | buffer (bytes : ByteArray) : Constructed (buffer bytes)
  | package {elements : List Node} {node : Node} (h : package elements = .ok node)
      (parts : ∀ element ∈ elements, Constructed element) : Constructed node
  | resourceTemplate {resources : List Resource} {node : Node}
      (h : resourceTemplate resources = .ok node) : Constructed node
  | scope {path : String} {body : List Node} {node : Node} (h : scope path body = .ok node)
      (parts : ∀ term ∈ body, Constructed term) : Constructed node
  | device {path : String} {body : List Node} {node : Node} (h : device path body = .ok node)
      (parts : ∀ term ∈ body, Constructed term) : Constructed node
  | name {path : String} {value node : Node} (h : name path value = .ok node)
      (part : Constructed value) : Constructed node
  | method {path : String} {args syncLevel : UInt8} {serialized : Bool} {body : List Node}
      {node : Node} (h : method path args serialized syncLevel body = .ok node)
      (parts : ∀ term ∈ body, Constructed term) : Constructed node
  | call {path : String} {args : List Node} {node : Node} (h : call path args = .ok node)
      (parts : ∀ arg ∈ args, Constructed arg) : Constructed node
  | returnValue {value : Node} (part : Constructed value) : Constructed (returnValue value)
  | group {body : List Node} (parts : ∀ term ∈ body, Constructed term) : Constructed (group body)

/-- What an object says of itself fits what it holds. -/
structure Consistent (head : Head) (fixed body : List Node) : Prop where
  /-- A length field stands exactly behind the opcodes for which the grammar has one. -/
  packaged : head.pseudo = false →
    head.packaged = Opcode.carriesLength head.opcode head.sub
  /-- The count byte of a package tells the number of its elements. -/
  package : head.pseudo = false → head.opcode = 0x12 →
    ∃ count : UInt8, fixed = [.data [count].toByteArray] ∧ count.toNat = body.length
  /-- The size that a buffer declares, as the shortest constant for it, is the length of its data,
  as far as 64 bits can tell. -/
  buffer : head.pseudo = false → head.opcode = 0x11 →
    ∃ (declared : Node) (size : UInt64) (bytes : ByteArray),
      fixed = [declared, .data bytes] ∧ body = [] ∧ declared.Encodable ∧
        Denotes declared.encode size.toNat ∧
        (∀ constant, Denotes constant size.toNat → declared.encode.length ≤ constant.length) ∧
        (bytes.size < UInt64.size → size.toNat = bytes.size)
  /-- The private argument of a call tells the number of arguments that are passed. -/
  invocation : head.invocation = true →
    ∃ (callee : Node) (count : UInt8), fixed = [callee, .data [count].toByteArray] ∧
      count.toNat = body.length ∧ body.length ≤ 7

section Consistent

variable {head : Head} {fixed body : List Node}

/-- An object that is neither package nor buffer nor call need only have the right length field. -/
theorem consistent_of_ne (hPackaged : head.packaged = Opcode.carriesLength head.opcode head.sub)
    (hPackage : head.opcode ≠ Opcode.packageOp) (hBuffer : head.opcode ≠ Opcode.bufferOp)
    (hCall : head.invocation = false) : Consistent head fixed body where
  packaged := fun _ => hPackaged
  package := fun _ h => absurd h hPackage
  buffer := fun _ h => absurd h hBuffer
  invocation := fun h => absurd (hCall.symm.trans h) Bool.false_ne_true

/-- A group that is no call says nothing of itself. -/
theorem consistent_group : Consistent Head.group fixed body where
  packaged := fun h => absurd h (by decide)
  package := fun h => absurd h (by decide)
  buffer := fun h => absurd h (by decide)
  invocation := fun h => absurd h (by decide)

theorem consistent_call {callee : Node} (h : body.length ≤ maxArguments) :
    Consistent Head.group.asInvocation [callee, raw [UInt8.ofNat body.length]] body where
  packaged := fun h => absurd h (by decide)
  package := fun h => absurd h (by decide)
  buffer := fun h => absurd h (by decide)
  invocation := fun _ => by
    refine ⟨callee, _, rfl, ?_, h⟩
    unfold maxArguments at h
    rw [UInt8.toNat_ofNat']
    omega

theorem consistent_package (h : body.length ≤ maxElements) :
    Consistent (Head.plain Opcode.packageOp) [raw [UInt8.ofNat body.length]] body where
  packaged := fun _ => rfl
  package := fun _ _ => by
    refine ⟨_, rfl, ?_⟩
    unfold maxElements at h
    rw [UInt8.toNat_ofNat']
    omega
  buffer := fun _ h => absurd h (by decide)
  invocation := fun h => absurd h (by decide)

theorem consistent_buffer (bytes : ByteArray) :
    Consistent (Head.plain Opcode.bufferOp)
      [integer (UInt64.ofNat bytes.size), .data bytes] [] where
  packaged := fun _ => rfl
  package := fun _ h => absurd h (by decide)
  buffer := fun _ _ => ⟨_, _, bytes, rfl, rfl, encodable_integer _, denotes_integer _,
    fun _ => length_integer_le, fun h => UInt64.toNat_ofNat_of_lt' h⟩
  invocation := fun h => absurd h (by decide)

end Consistent

/-- What every constructed tree looks like from above. -/
inductive Shape : Node → Prop
  | data (bytes : ByteArray) : Shape (.data bytes)
  | object {head : Head} {fixed body : List Node} (paired : head.WellPaired)
      (consistent : Consistent head fixed body) (fixedArgs : ∀ arg ∈ fixed, Constructed arg)
      (bodyArgs : ∀ arg ∈ body, Constructed arg) : Shape (.object head fixed body)

namespace Shape

variable {head : Head} {body : List Node}

/-- The shape of an object that is neither package nor buffer nor call. -/
theorem of_ne (hPaired : head.WellPaired)
    (hPackaged : head.packaged = Opcode.carriesLength head.opcode head.sub)
    (hPackage : head.opcode ≠ Opcode.packageOp) (hBuffer : head.opcode ≠ Opcode.bufferOp)
    (hCall : head.invocation = false) {fixed : List Node} (hFixed : ∀ arg ∈ fixed, Constructed arg)
    (hBody : ∀ arg ∈ body, Constructed arg) : Shape (.object head fixed body) :=
  .object hPaired (consistent_of_ne hPackaged hPackage hBuffer hCall) hFixed hBody

/-- The shape of a constant that is an opcode and nothing else. -/
theorem constant {opcode : UInt8} (hPaired : (Head.plain opcode).WellPaired)
    (hPackage : opcode ≠ Opcode.packageOp) (hBuffer : opcode ≠ Opcode.bufferOp) :
    Shape (Term.object opcode [] []) :=
  of_ne hPaired rfl hPackage hBuffer rfl (fun _ hMem => nomatch hMem) fun _ hMem => nomatch hMem

theorem integer (value : UInt64) : Shape (integer value) := by
  unfold Term.integer
  split
  · exact constant (by decide) (by decide) (by decide)
  split
  · exact constant (by decide) (by decide) (by decide)
  split
  · exact constant (by decide) (by decide) (by decide)
  repeat' split
  all_goals exact .data _

theorem buffer (bytes : ByteArray) : Shape (buffer bytes) := by
  refine .object (by decide) (consistent_buffer bytes) (fun arg hMem => ?_)
    fun _ hMem => nomatch hMem
  rcases List.mem_pair.1 hMem with rfl | rfl
  · exact .integer _
  · exact .data bytes

end Shape

/-- **Inversion.**  This is all that needs to be known about the constructs. -/
theorem Constructed.shape {node : Node} (h : Constructed node) : Shape node := by
  cases h with
  | data bytes => exact .data bytes
  | nameString h =>
      obtain ⟨path, -, rfl⟩ := nameString_eq_ok_iff.1 h
      exact .data _
  | integer value => exact .integer value
  | dword value => exact .data _
  | string h =>
      unfold Term.string at h
      split at h
      · cases h
        exact .data _
      · cases h
  | eisaId h =>
      obtain ⟨id, -, h⟩ := bind_eq_ok_iff.1 h
      cases h
      exact .data _
  | buffer bytes => exact .buffer bytes
  | package h parts =>
      obtain ⟨hLength, rfl⟩ := package_eq_ok_iff.1 h
      refine .object (by decide) (consistent_package hLength) (fun arg hMem => ?_) parts
      rw [List.mem_singleton.1 hMem]
      exact .data _
  | resourceTemplate h =>
      obtain ⟨bytes, -, h⟩ := bind_eq_ok_iff.1 h
      cases h
      exact .buffer _
  | scope h parts =>
      obtain ⟨path, -, rfl⟩ := scope_eq_ok_iff.1 h
      refine .of_ne (by decide) rfl (by decide) (by decide) rfl (fun arg hMem => ?_) parts
      rw [List.mem_singleton.1 hMem]
      exact .data _
  | device h parts =>
      obtain ⟨path, -, rfl⟩ := device_eq_ok_iff.1 h
      refine .of_ne (by decide) rfl (by decide) (by decide) rfl (fun arg hMem => ?_) parts
      rw [List.mem_singleton.1 hMem]
      exact .data _
  | name h part =>
      obtain ⟨path, -, rfl⟩ := name_eq_ok_iff.1 h
      refine .of_ne (by decide) rfl (by decide) (by decide) rfl (fun arg hMem => ?_)
        fun _ hMem => nomatch hMem
      rcases List.mem_pair.1 hMem with rfl | rfl
      · exact .data _
      · exact part
  | method h parts =>
      obtain ⟨-, -, path, -, rfl⟩ := method_eq_ok_iff.1 h
      refine .of_ne (by decide) rfl (by decide) (by decide) rfl (fun arg hMem => ?_) parts
      rcases List.mem_pair.1 hMem with rfl | rfl <;> exact .data _
  | call h parts =>
      obtain ⟨hLength, path, -, rfl⟩ := call_eq_ok_iff.1 h
      refine .object (by decide) (consistent_call hLength) (fun arg hMem => ?_) parts
      rcases List.mem_pair.1 hMem with rfl | rfl <;> exact .data _
  | returnValue part =>
      refine .of_ne (by decide) rfl (by decide) (by decide) rfl (fun arg hMem => ?_)
        fun _ hMem => nomatch hMem
      rw [List.mem_singleton.1 hMem]
      exact part
  | group parts =>
      exact .object (by decide) consistent_group (fun _ hMem => nomatch hMem) parts

/-! ## Along the tree -/

/-- A constructed tree is well built. -/
theorem Constructed.wellBuilt {node : Node} (h : Constructed node) : node.WellBuilt := by
  induction node using Node.written_induction with
  | block header body _ => cases h.shape
  | data bytes => exact .data bytes
  | object head fixed body ih =>
      cases h.shape with
      | object hPaired _ hFixed hBody =>
          refine .object head fixed body (fun node hMem => ih node hMem ?_) hPaired
          rcases Head.mem_of_mem_writtenArgs hMem with hMem | hMem
          · exact hFixed node hMem
          · exact hBody node hMem

/-- Every part of a constructed tree is constructed, private arguments included. -/
theorem Constructed.of_occurs {part node : Node} (hOccurs : part.Occurs node)
    (h : Constructed node) : Constructed part := by
  induction hOccurs with
  | here => exact h
  | fixed hMem _ ih =>
      cases h.shape with
      | object _ _ hFixed _ => exact ih (hFixed _ hMem)
  | body hMem _ ih =>
      cases h.shape with
      | object _ _ _ hBody => exact ih (hBody _ hMem)
  | term _ _ _ => cases h.shape

/-- **Constructed trees are in order.**  A table of constructed terms is never refused as malformed:
if it cannot be measured, it is too large.  And every object in it, at any depth and whether it is
written or not, says of itself what is true: it carries a length field exactly if its opcode asks
for one, a package tells the number of its elements, a buffer the length of its data, and a call the
number of its arguments, of which there are at most seven. -/
theorem constructed_table_in_order (header : Header) (terms : List Node)
    (hTerms : ∀ term ∈ terms, Constructed term) :
    (∀ error, Layout.ofNode (.block header terms) = .error error → error = .sizeOverflow) ∧
      ∀ head fixed body, Node.Occurs (.object head fixed body) (.block header terms) →
        Consistent head fixed body := by
  constructor
  · intro error hError
    have hForm : Node.WellFormed (.block header terms) := fun term hMem =>
      (hTerms term hMem).wellBuilt
    rcases Layout.error_of_ofNode hError with rfl | rfl
    · refine absurd hError (Layout.ofNode_ne_error _ (fun _ => hForm) fun hCause => ?_)
      cases hCause
    · rfl
  · intro head fixed body hOccurs
    cases hOccurs with
    | term hMem hInside =>
        cases ((hTerms _ hMem).of_occurs hInside).shape with
        | object _ hConsistent _ _ => exact hConsistent

/-- A call with a buffer as its argument, under a return.  The buffer stands three levels below the
table, and the count of the call is private. -/
theorem constructed_table_in_order_call :
    let header : Header := ⟨#v[0x53, 0x53, 0x44, 0x54], 0, 2, 0, #v[1, 2, 3, 4, 5, 6],
      #v[1, 2, 3, 4, 5, 6, 7, 8], 1, 2, 3⟩
    let argument : Node := buffer [7, 8].toByteArray
    let invocation : Node := .object Head.group.asInvocation
      [raw [0x4D, 0x54, 0x48, 0x30], raw [1]] [argument]
    call "MTH0" [argument] = .ok invocation ∧
      Layout.ofNode (.block header [returnValue invocation]) ≠ .error .invalidTree ∧
      Consistent Head.group.asInvocation [raw [0x4D, 0x54, 0x48, 0x30], raw [1]] [argument] ∧
      Consistent (Head.plain Opcode.bufferOp) [integer 2, .data [7, 8].toByteArray] [] := by
  intro header argument invocation
  have hCall : call "MTH0" [argument] = .ok invocation := by rfl
  have hArgument : ∀ arg ∈ [argument], Constructed arg := by
    intro arg hMem
    rw [List.mem_singleton.1 hMem]
    exact .buffer _
  have hTerms : ∀ term ∈ [returnValue invocation], Constructed term := by
    intro term hMem
    rw [List.mem_singleton.1 hMem]
    exact .returnValue (.call hCall hArgument)
  obtain ⟨hError, hConsistent⟩ := constructed_table_in_order header _ hTerms
  have hInvocation : invocation.Occurs (.block header [returnValue invocation]) :=
    .term List.mem_cons_self (.fixed List.mem_cons_self .here)
  have hBuffer : argument.Occurs (.block header [returnValue invocation]) :=
    .term List.mem_cons_self (.fixed List.mem_cons_self (.body List.mem_cons_self .here))
  refine ⟨hCall, fun hInvalid => ?_, hConsistent _ _ _ hInvocation, hConsistent _ _ _ hBuffer⟩
  cases hError _ hInvalid

end Term

end Acpi
