import Acpi.Proofs.Table
import Acpi.Table.Block

/-!
# Stamps over a session

A block is pushed to, edited, given header fields and stamped, in any order and any number of times,
and at some point it is written.  `Block.Operation` is one such step and `Block.run?` a session of
them.

A stamp is a promise about the length of the table, and it stands in the header alone.  Only two of
the operations can touch it there: another stamp, and a change of the header that sets the length
(`Operation.length_of_run?`, `length_of_run?`).  The length of the table, on the other hand, never
depends on the header.  So whatever happens between a stamp and a write, the write compares the
length that was promised with the length that the block has by then.

Main result: `Block.stamp_protocol`.
-/

namespace Acpi.Block

/-! ## Sessions -/

/-- One thing that can be done to a block. -/
inductive Operation where
  /-- Adds a term behind the others. -/
  | push (node : Node)
  /-- Edits the node at a position; with `Edit.set` any node can be put at any place. -/
  | edit (index : Nat) (steps : List Step) (change : Edit)
  /-- Changes fields of the header. -/
  | setHeader (change : Header → Header)
  /-- Writes the present length into the header. -/
  | stamp

namespace Operation

/-- The block after an operation; `none` for an edit that is not possible. -/
def run? : Operation → Block → Option Block
  | .push node, block => some (block.push node)
  | .edit index steps change, block => block.edit? index steps change
  | .setHeader change, block => some (block.mapHeader change)
  | .stamp, block => some block.stamp.2

/-- An operation that neither stamps the block nor sets the length in its header. -/
def KeepsLength : Operation → Prop
  | .push _ | .edit .. => True
  | .setHeader change => ∀ header, (change header).length = header.length
  | .stamp => False

end Operation

/-- The block after a session, one operation after the other. -/
def run? (session : List Operation) (block : Block) : Option Block :=
  session.foldlM (fun block operation => operation.run? block) block

/-- An edit leaves the header alone. -/
theorem header_of_edit? {block after : Block} {index : Nat} {steps : List Step} {edit : Edit}
    (h : block.edit? index steps edit = some after) : after.header = block.header := by
  unfold edit? at h
  cases hNode : block.body[index]? with
  | none => simp [hNode] at h
  | some node =>
      cases hEdit : node.modify? edit.run? steps with
      | none => simp [hNode, hEdit] at h
      | some node' =>
          simp only [hNode, hEdit, Option.bind_eq_bind, Option.bind_some] at h
          cases h
          rfl

/-- One step: the length in the header stays as it is. -/
theorem Operation.length_of_run? {operation : Operation} {block after : Block}
    (h : operation.run? block = some after) (hKeeps : operation.KeepsLength) :
    after.header.length = block.header.length := by
  cases operation with
  | push node =>
      cases h
      rfl
  | edit index steps change => rw [header_of_edit? h]
  | setHeader change =>
      cases h
      exact hKeeps block.header
  | stamp => cases hKeeps

/-- A whole session: the length in the header stays as it is. -/
theorem length_of_run? {session : List Operation} {block after : Block}
    (h : block.run? session = some after)
    (hKeeps : ∀ operation ∈ session, operation.KeepsLength) :
    after.header.length = block.header.length := by
  induction session generalizing block with
  | nil =>
      cases h
      rfl
  | cons operation session ih =>
      obtain ⟨between, hStep, hRest⟩ := Option.bind_eq_some_iff.1 h
      have hFirst := Operation.length_of_run? hStep (hKeeps operation List.mem_cons_self)
      have hLater := ih hRest fun other hMem => hKeeps other (List.mem_cons_of_mem operation hMem)
      exact hLater.trans hFirst

/-! ## Stamping -/

/-- A block has the size that measuring its terms finds, whatever its header says. -/
theorem size_toNode (block : Block) :
    block.toNode.size = (Layout.ofBody block.body).map fun layout => layout.total.toNat :=
  rfl

theorem query_toNode (block : Block) : (Table.query block.toNode).1 = block.toNode.size := by
  rw [size_toNode, toNode, Table.query]
  cases Layout.ofBody block.body <;> rfl

theorem stamp_eq_size (block : Block) : block.stamp.1 = block.toNode.size := by
  rw [size_toNode, stamp]
  cases Layout.ofBody block.body <;> rfl

theorem stamp_of_error {block : Block} {cause : EncodeError}
    (h : block.stamp.1 = .error cause) : block.stamp.2 = block := by
  unfold stamp at h ⊢
  cases hLayout : Layout.ofBody block.body with
  | error cause' => rfl
  | ok layout =>
      rw [hLayout] at h
      cases h

/-- A stamp that succeeds writes the length of the table, which is at least that of its header. -/
theorem stamp_of_ok {block : Block} {total : Nat} (h : block.stamp.1 = .ok total) :
    Header.size ≤ total ∧ total < UInt32.size ∧
      block.stamp.2 = block.mapHeader fun header => { header with length := UInt32.ofNat total } := by
  unfold stamp at h ⊢
  cases hLayout : Layout.ofBody block.body with
  | error cause =>
      rw [hLayout] at h
      cases h
  | ok layout =>
      rw [hLayout] at h
      cases h
      have hTotal := Layout.total_ofBody hLayout
      refine ⟨by omega, layout.total.toNat_lt, ?_⟩
      rw [UInt32.ofNat_toNat]

private theorem length_ne_zero {header : Header} {stamped : Nat}
    (hStamp : header.length.toNat = stamped) (hPos : 0 < stamped) : header.length ≠ 0 := by
  intro hZero
  rw [hZero] at hStamp
  exact absurd hStamp (Nat.ne_of_lt hPos)

/-- A block that can be measured and carries some stamp is written if the stamp is its length, and
refused as stale if not. -/
theorem result_write_of_stamped {block : Block} {stamped total : Nat}
    (hStamp : block.header.length.toNat = stamped) (hPos : 0 < stamped)
    (hSize : block.toNode.size = .ok total) {buffer : ByteArray} (hRoom : total ≤ buffer.size) :
    (Table.write block.toNode buffer).result =
      if total = stamped then .ok stamped else .error .staleStamp := by
  rw [Table.result_write, toNode, Table.verdict]
  rw [size_toNode] at hSize
  cases hLayout : Layout.ofBody block.body with
  | error cause =>
      rw [hLayout] at hSize
      cases hSize
  | ok layout =>
      rw [hLayout] at hSize
      cases hSize
      have hZero := length_ne_zero hStamp hPos
      have hSame : block.header.length = layout.total ↔ layout.total.toNat = stamped := by
        rw [← hStamp, ← UInt32.toNat_inj, eq_comm]
      have hStale : Table.Stale block.header layout ↔ ¬ layout.total.toNat = stamped := by
        unfold Table.Stale
        rw [Ne, Ne, hSame]
        exact and_iff_right hZero
      show (if buffer.size < layout.total.toNat then _ else _) = _
      rw [if_neg (Nat.not_lt.2 hRoom)]
      by_cases hEqual : layout.total.toNat = stamped
      · rw [if_neg (fun h => hStale.1 h hEqual), if_pos hEqual, hEqual]
      · rw [if_pos (hStale.2 hEqual), if_neg hEqual]

theorem result_write_of_error {block : Block} {cause : EncodeError}
    (hSize : block.toNode.size = .error cause) (buffer : ByteArray) :
    (Table.write block.toNode buffer).result = .error cause := by
  rw [Table.result_write, toNode, Table.verdict]
  rw [size_toNode] at hSize
  cases hLayout : Layout.ofBody block.body with
  | error cause' =>
      rw [hLayout] at hSize
      cases hSize
      rfl
  | ok layout =>
      rw [hLayout] at hSize
      cases hSize

/-- The two parts of a session, before and after a stamp. -/
theorem run?_around_stamp {start after : Block} {earlier later : List Operation}
    (h : start.run? (earlier ++ .stamp :: later) = some after) :
    ∃ block, start.run? earlier = some block ∧ block.stamp.2.run? later = some after := by
  unfold run? at h
  rw [List.foldlM_append] at h
  obtain ⟨block, hEarlier, hRest⟩ := Option.bind_eq_some_iff.1 h
  exact ⟨block, hEarlier, hRest⟩

/-- **The stamping protocol.**  A stamp in the middle of a session tells the size of the block at
that point.  If it fails, the block stays as it was.  If it succeeds, it changes the length in the
header and nothing else, and what it writes there always counts as a stamp.  A write right behind it
succeeds if there is room.  After any further operations that leave the length in the header alone,
a write into a buffer with room for the block succeeds if the block has the stamped size again, and
reports a stale stamp if not; a block that cannot be measured is refused for that.  Asking for the
size of the block takes no notice of the stamp. -/
theorem stamp_protocol (start after : Block) (earlier later : List Operation)
    (hRun : start.run? (earlier ++ .stamp :: later) = some after)
    (hKeeps : ∀ operation ∈ later, operation.KeepsLength) :
    ∃ block, start.run? earlier = some block ∧ block.stamp.2.run? later = some after ∧
      block.stamp.1 = block.toNode.size ∧
      (∀ cause, block.stamp.1 = .error cause → block.stamp.2 = block) ∧
      (Table.query after.toNode).1 = after.toNode.size ∧
      ∀ total, block.stamp.1 = .ok total →
        Header.size ≤ total ∧
        block.stamp.2 =
          { block with header := { block.header with length := UInt32.ofNat total } } ∧
        block.stamp.2.header.length.toNat = total ∧
        block.stamp.2.header.isStamped = true ∧
        (∀ buffer : ByteArray, total ≤ buffer.size →
          (Table.write block.stamp.2.toNode buffer).result = .ok total) ∧
        (∀ cause, after.toNode.size = .error cause →
          ∀ buffer, (Table.write after.toNode buffer).result = .error cause) ∧
        ∀ now, after.toNode.size = .ok now → ∀ buffer : ByteArray, now ≤ buffer.size →
          (Table.write after.toNode buffer).result =
            if now = total then .ok total else .error .staleStamp := by
  obtain ⟨block, hEarlier, hLater⟩ := run?_around_stamp hRun
  refine ⟨block, hEarlier, hLater, stamp_eq_size block, fun _ => stamp_of_error,
    query_toNode after, ?_⟩
  intro total hStamp
  obtain ⟨hHeader, hFits, hBlock⟩ := stamp_of_ok hStamp
  have hLength : block.stamp.2.header.length.toNat = total := by
    rw [hBlock]
    exact UInt32.toNat_ofNat_of_lt hFits
  have hKept : after.header.length.toNat = total := by
    rw [length_of_run? hLater hKeeps, hLength]
  have hPos : 0 < total := by
    unfold Header.size at hHeader
    omega
  refine ⟨hHeader, hBlock, hLength, ?_, ?_, fun _ => result_write_of_error, ?_⟩
  · rw [Header.isStamped, bne_iff_ne]
    exact length_ne_zero hLength hPos
  · intro buffer hRoom
    have hSize : block.stamp.2.toNode.size = .ok total := by
      rw [← hStamp, stamp_eq_size, hBlock]
      rfl
    rw [result_write_of_stamped hLength hPos hSize hRoom, if_pos rfl]
  · intro now hNow buffer hRoom
    exact result_write_of_stamped hKept hPos hNow hRoom

/-- A table is given a second term and another revision and is stamped.  Then data deep inside it grow
past the reach of a one-byte length field, which makes the stamp stale, and the old data are put back,
which makes it good. -/
theorem stamp_protocol_growth :
    let header : Header := ⟨#v[0x53, 0x53, 0x44, 0x54], 0, 2, 0, #v[1, 2, 3, 4, 5, 6],
      #v[1, 2, 3, 4, 5, 6, 7, 8], 1, 2, 3⟩
    let name : Node := .data [0x41, 0x42, 0x43, 0x44].toByteArray
    let scope (bytes : List UInt8) : Node :=
      .object (Head.plain Opcode.scopeOp) [name] [.data bytes.toByteArray]
    let short := List.replicate 58 0xA3
    let start : Block := ⟨header, [scope short]⟩
    let earlier : List Operation :=
      [.push (.data [0xA3].toByteArray), .setHeader fun header => { header with revision := 1 }]
    let grow : Operation := .edit 0 [⟨.body, 0⟩] (.append [0xA3].toByteArray)
    let shrink : Operation := .edit 0 [⟨.body, 0⟩] (.set (.data short.toByteArray))
    let buffer := (List.replicate 120 0).toByteArray
    ∃ grown restored : Block, start.run? (earlier ++ .stamp :: [grow]) = some grown ∧
      start.run? (earlier ++ .stamp :: [grow, shrink]) = some restored ∧
      (Table.query grown.toNode).1 = .ok 103 ∧
      (Table.write grown.toNode buffer).result = .error .staleStamp ∧
      (Table.write restored.toNode buffer).result = .ok 101 := by
  intro header name scope short start earlier grow shrink buffer
  let second : Node := .data [0xA3].toByteArray
  let stamped : Header := { header with revision := 1, length := 101 }
  let grown : Block := ⟨stamped, [scope (short ++ [0xA3]), second]⟩
  let restored : Block := ⟨stamped, [scope short, second]⟩
  have hGrown : start.run? (earlier ++ .stamp :: [grow]) = some grown := by rfl
  have hRestored : start.run? (earlier ++ .stamp :: [grow, shrink]) = some restored := by rfl
  have hRoom : 103 ≤ buffer.size := by simp [buffer]
  obtain ⟨block, hBlock, -, -, -, hQuery, hStamp⟩ :=
    stamp_protocol start grown earlier [grow] hGrown (by simp [grow, Operation.KeepsLength])
  obtain ⟨block', hBlock', -, -, -, -, hStamp'⟩ :=
    stamp_protocol start restored earlier [grow, shrink] hRestored
      (by simp [grow, shrink, Operation.KeepsLength])
  cases hBlock
  cases hBlock'
  obtain ⟨-, -, -, -, -, -, hWrite⟩ := hStamp 101 (by rfl)
  obtain ⟨-, -, -, -, -, -, hWrite'⟩ := hStamp' 101 (by rfl)
  refine ⟨grown, restored, hGrown, hRestored, hQuery, ?_, ?_⟩
  · exact hWrite 103 (by rfl) buffer hRoom
  · exact hWrite' 101 (by rfl) buffer (by omega)

end Acpi.Block
