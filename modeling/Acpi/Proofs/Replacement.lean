import Acpi.Proofs.Stamp
import Acpi.Proofs.Surroundings
import Mathlib.Order.WellFounded

/-!
# Replacing a part of a tree

The part of a whole tree at a position is replaced by another part.  What stands around it, its
`Place`, stays the same.  The size of the tree is then a function of the size of the part alone, and a
strictly monotone one: the length fields on the way up may become wider with the part, but they never
make up for a change (`Place.size_strictMono`).  All that is written in front of the part depends on
nothing but the size of the part, and what is written behind it does not depend on it at all
(`Place.Holds.flatMap_terms`).

Main result: `Node.replacement_is_local`.
-/

namespace Acpi

/-- What stands around a part in a whole tree. -/
structure Place where
  /-- The bytes of the header, if there is one. -/
  headerSize : Nat
  /-- The terms in front of the one that holds the part. -/
  before : List Node
  /-- What is written around the part in the term that holds it. -/
  frames : List Frame
  /-- The terms behind the one that holds the part. -/
  after : List Node

namespace Node

/-! ## Parts of whole trees -/

/-- Whether a node is a block. -/
def isBlock : Node → Bool
  | .block .. => true
  | _ => false

/-- The bytes of the header, if there is one. -/
def headerSize : Node → Nat
  | .block .. => Header.size
  | _ => 0

/-- The tree with another term at an index.  A tree that is no block is its own and only term. -/
def setTerm : Node → Nat → Node → Node
  | .block header body, index, term => .block header (body.set index term)
  | _, _, term => term

/-- The part of a whole tree at a position: a term and the steps down from it. -/
def part? (tree : Node) (index : Nat) (steps : List Step) : Option Node :=
  tree.terms[index]?.bind (get? steps)

/-- The part at a position is reached through written arguments only. -/
def PartWritten (tree : Node) (index : Nat) (steps : List Step) : Prop :=
  ∀ term, tree.terms[index]? = some term → term.WrittenAt steps

/-- The tree with another part at a position. -/
def replace? (tree : Node) (index : Nat) (steps : List Step) (part : Node) : Option Node := do
  let term ← tree.terms[index]?
  let term ← term.modify? (Edit.set part).run? steps
  return tree.setTerm index term

/-- What stands around the part at a position. -/
def place (tree : Node) (index : Nat) (steps : List Step) : Place where
  headerSize := tree.headerSize
  before := tree.terms.take index
  frames := tree.terms[index]?.elim [] (surroundings steps)
  after := tree.terms.drop (index + 1)

theorem exactSize_eq (tree : Node) : tree.exactSize = tree.headerSize + planSize tree.terms := by
  cases tree with
  | block header body => rfl
  | data bytes => exact (Nat.zero_add _).symm
  | object head fixed body => exact (Nat.zero_add _).symm

theorem replace?_eq_some_iff {tree tree' part : Node} {index : Nat} {steps : List Step} :
    tree.replace? index steps part = some tree' ↔
      ∃ term term', tree.terms[index]? = some term ∧
        term.modify? (Edit.set part).run? steps = some term' ∧ tree.setTerm index term' = tree' := by
  simp [replace?, Option.bind_eq_some_iff]

/-- A term does not become a block by getting a part that is none. -/
theorem isBlock_of_set {steps : List Step} {term term' part : Node}
    (h : term.modify? (Edit.set part).run? steps = some term') (hPart : part.isBlock = false) :
    term'.isBlock = false := by
  cases steps with
  | nil =>
      cases h
      exact hPart
  | cons step steps =>
      obtain ⟨child, child', hChild, -, rfl⟩ := modify?_cons_eq_some_iff.1 h
      obtain ⟨slot, index⟩ := step
      cases term with
      | block header body => cases hChild
      | data bytes => cases hChild
      | object head fixed body => cases slot <;> rfl

/-- A tree that is no block has no header, and it is its own and only term. -/
theorem top_of_not_isBlock {node : Node} (h : node.isBlock = false) :
    node.headerSize = 0 ∧ node.terms = [node] ∧ ∀ index other, node.setTerm index other = other := by
  cases node with
  | block header body => cases h
  | data bytes => exact ⟨rfl, rfl, fun _ _ => rfl⟩
  | object head fixed body => exact ⟨rfl, rfl, fun _ _ => rfl⟩

theorem Encodable.isBlock {node : Node} (h : Encodable node) : node.isBlock = false := by
  cases h <;> rfl

/-- Another term in a tree is the only change, also if the tree consists of that term. -/
theorem terms_setTerm {tree term other : Node} {index : Nat} (h : tree.terms[index]? = some term)
    (hOther : other.isBlock = false) :
    (tree.setTerm index other).headerSize = tree.headerSize ∧
      (tree.setTerm index other).terms =
        tree.terms.take index ++ other :: tree.terms.drop (index + 1) := by
  by_cases hTree : tree.isBlock = true
  · cases tree with
    | block header body => exact ⟨rfl, set_of_getElem? h other⟩
    | data bytes => cases hTree
    | object head fixed body => cases hTree
  · obtain ⟨hNoHeader, hTerms, hSet⟩ := top_of_not_isBlock (Bool.eq_false_iff.2 hTree)
    obtain ⟨hNoHeader', hTerms', -⟩ := top_of_not_isBlock hOther
    rw [hTerms] at h ⊢
    have hIndex : index = 0 := by
      have hLt := (List.getElem?_eq_some_iff.1 h).1
      rw [List.length_singleton] at hLt
      omega
    rw [hSet, hNoHeader, hNoHeader', hTerms', hIndex]
    exact ⟨rfl, rfl⟩

end Node

/-! ## A whole tree, seen from a part of it -/

namespace Listing

variable {β : Type} (listing : Listing β)

/-- What a tree lists in front of a part of the given size. -/
def front (place : Place) (inner : Nat) : List β :=
  place.before.flatMap listing.ofNode ++ listing.lead place.frames inner

/-- What a tree lists behind a part. -/
def back (place : Place) : List β :=
  listing.trail place.frames ++ place.after.flatMap listing.ofNode

end Listing

namespace Place

open Node (Encodable planSize planSize_append planSize_cons planLengths)

/-- The tree has the part at the place. -/
structure Holds (place : Place) (part tree : Node) : Prop where
  headerSize_eq : tree.headerSize = place.headerSize
  exists_term : ∃ term, tree.terms = place.before ++ term :: place.after ∧
    Node.Around part place.frames term

/-- A tree has its part at the place of the part. -/
theorem holds_of_part? {tree part : Node} {index : Nat} {steps : List Step}
    (hPart : tree.part? index steps = some part) (hWritten : tree.PartWritten index steps) :
    (tree.place index steps).Holds part tree := by
  obtain ⟨term, hTerm, hGet⟩ := Option.bind_eq_some_iff.1 hPart
  refine ⟨rfl, term, ?_, ?_⟩
  · exact (Node.set_self_of_getElem? hTerm).symm.trans (Node.set_of_getElem? hTerm term)
  · rw [Node.place, hTerm]
    exact Node.around_of_get? (hWritten term hTerm) hGet

/-- The tree with another part has that part at the same place. -/
theorem holds_of_replace? {tree tree' part : Node} {index : Nat} {steps : List Step}
    (hReplace : tree.replace? index steps part = some tree')
    (hWritten : tree.PartWritten index steps) (hBelow : part.isBlock = false) :
    (tree.place index steps).Holds part tree' := by
  obtain ⟨term, term', hTerm, hSet, rfl⟩ := Node.replace?_eq_some_iff.1 hReplace
  obtain ⟨hHeader, hTerms⟩ := Node.terms_setTerm hTerm (Node.isBlock_of_set hSet hBelow)
  refine ⟨hHeader, term', hTerms, ?_⟩
  rw [Node.place, hTerm]
  exact Node.around_of_set (hWritten term hTerm) hSet

/-- The size of a tree with a part of the given size at the place. -/
def size (place : Place) (inner : Nat) : Nat :=
  place.headerSize + planSize place.before + Frame.sizeAround place.frames inner +
    planSize place.after

/-- **No change of size is lost.**  A part that grows makes the whole tree grow. -/
theorem size_strictMono (place : Place) : StrictMono place.size := by
  intro inner inner' hLt
  have hAround := Frame.sizeAround_strictMono place.frames hLt
  unfold size
  omega

/-- Where the part starts in the bytes of the tree, if the part has the given size. -/
def start (place : Place) (inner : Nat) : Nat :=
  place.headerSize + (Listing.bytes.front place inner).length

namespace Holds

variable {place : Place} {part tree : Node}

theorem exactSize_eq (h : place.Holds part tree) : tree.exactSize = place.size part.plan.size := by
  obtain ⟨term, hTerms, hAround⟩ := h.exists_term
  rw [Node.exactSize_eq, h.headerSize_eq, hTerms, planSize_append, planSize_cons, hAround.size_eq,
    size]
  omega

theorem exists_encodable (h : place.Holds part tree)
    (hTree : ∀ term ∈ tree.terms, Encodable term) :
    ∃ term, tree.terms = place.before ++ term :: place.after ∧
      Node.Around part place.frames term ∧ Encodable term := by
  obtain ⟨term, hTerms, hAround⟩ := h.exists_term
  have hMem : term ∈ tree.terms := by
    rw [hTerms]
    exact List.mem_append_right place.before List.mem_cons_self
  exact ⟨term, hTerms, hAround, hTree term hMem⟩

/-- A part of a tree that can be measured can be measured. -/
theorem encodable (h : place.Holds part tree) (hTree : ∀ term ∈ tree.terms, Encodable term) :
    Encodable part := by
  obtain ⟨term, -, hAround, hTerm⟩ := h.exists_encodable hTree
  exact hAround.encodable hTerm

/-- What a tree lists, in front of a part, in it and behind it. -/
theorem flatMap_terms {β : Type} (listing : Listing β) (h : place.Holds part tree)
    (hTree : ∀ term ∈ tree.terms, Encodable term) :
    tree.terms.flatMap listing.ofNode =
      listing.front place part.plan.size ++ listing.ofNode part ++ listing.back place := by
  obtain ⟨term, hTerms, hAround, hTerm⟩ := h.exists_encodable hTree
  rw [hTerms, List.flatMap_append, List.flatMap_cons, listing.ofNode_around hAround hTerm,
    Listing.front, Listing.back]
  simp only [List.append_assoc]

/-- **A layout, seen from a part.**  If the tree can be measured, so can the part, and the layout of
the part stands inside that of the tree. -/
theorem layout_eq {layout : Layout} (h : place.Holds part tree)
    (hLayout : Layout.ofNode tree = .ok layout) :
    ∃ inner, Layout.ofNode part = .ok inner ∧ inner.total.toNat = part.plan.size ∧
      layout.total.toNat = place.size inner.total.toNat ∧
      layout.lengths.toList =
        Listing.lengths.front place inner.total.toNat ++ inner.lengths.toList ++
          Listing.lengths.back place := by
  have hTotal := Layout.total_ofNode hLayout
  obtain ⟨⟨hTerms, hFits⟩, hFound⟩ := Layout.ofNode_eq_ok_iff.1 hLayout
  have hPart := h.encodable hTerms
  obtain ⟨hNoHeader, hOnly, -⟩ := Node.top_of_not_isBlock hPart.isBlock
  have hSize : part.exactSize = part.plan.size := by
    rw [Node.exactSize_eq, hNoHeader, hOnly, planSize_cons, Nat.zero_add]
    rfl
  have hInner : Layout.ofNode part =
      .ok ⟨part.plan.lengths.toArray, UInt32.ofNat part.plan.size⟩ := by
    rw [Layout.ofNode_eq_ok_iff, hSize, hOnly]
    refine ⟨⟨?_, ?_⟩, ?_⟩
    · simpa using hPart
    · -- A part is never larger than the tree.
      have hLe : part.plan.size ≤ place.size part.plan.size := place.size_strictMono.le_apply
      rw [← h.exactSize_eq] at hLe
      omega
    · simp [planLengths]
  have hInnerTotal := Layout.total_ofNode hInner
  rw [hSize] at hInnerTotal
  refine ⟨_, hInner, hInnerTotal, ?_, ?_⟩
  · rw [hTotal, h.exactSize_eq, hInnerTotal]
  · rw [hFound, hInnerTotal]
    exact h.flatMap_terms Listing.lengths hTerms

end Holds

end Place

/-! ## Finished tables -/

namespace Table

/-- Two tables of one length that differ in one window and at the checksum only. -/
structure SameOutside (start : Nat) (window window' table table' : List UInt8) : Prop where
  length_eq : table'.length = table.length
  length_window : window'.length = window.length
  /-- The window is behind the header, and it ends within the table. -/
  start_ge : Header.size ≤ start
  end_le : start + window.length ≤ table.length
  window_eq : (table.drop start).take window.length = window
  window_eq' : (table'.drop start).take window.length = window'
  outside : ∀ i, i ≠ Header.checksumOffset → i < start ∨ start + window.length ≤ i →
    table'[i]? = table[i]?

/-- A finished table differs from the open one at the checksum only. -/
theorem getElem?_image (header : Header) (total : UInt32) (body : List Node) {i : Nat}
    (hNe : i ≠ Header.checksumOffset) :
    (image header total body)[i]? = (openImage header total body)[i]? := by
  have hOpen : openImage header total body = _ := image_split header total 0 _
  have hByte : [imageChecksum header total body].length = [(0 : UInt8)].length := rfl
  rw [image, finishedHeader, image_split, hOpen, List.append_cons, List.append_cons _ 0]
  apply getElem?_segment _ hByte
  rw [Header.length_beforeChecksum, List.length_singleton]
  omega

private theorem window_image (header : Header) (total : UInt32) {body : List Node}
    {front window back : List UInt8} (hBody : body.flatMap Node.encode = front ++ window ++ back) :
    ((image header total body).drop (Header.size + front.length)).take window.length = window := by
  rw [image, hBody, ← List.drop_drop, List.drop_left' (Header.length_bytes _), List.append_assoc,
    List.drop_left, List.take_left]

theorem sameOutside_image (header : Header) (total : UInt32) {body body' : List Node}
    {front window window' back : List UInt8}
    (hBody : body.flatMap Node.encode = front ++ window ++ back)
    (hBody' : body'.flatMap Node.encode = front ++ window' ++ back)
    (hLength : window'.length = window.length) :
    SameOutside (Header.size + front.length) window window' (image header total body)
      (image header total body') where
  length_eq := by
    simp only [image, hBody, hBody', List.length_append, Header.length_bytes, hLength]
  length_window := hLength
  start_ge := Nat.le_add_right ..
  end_le := by
    simp only [image, hBody, List.length_append, Header.length_bytes]
    omega
  window_eq := window_image header total hBody
  window_eq' := by
    rw [← hLength]
    exact window_image header total hBody'
  outside := by
    intro i hNe hOutside
    rw [getElem?_image header total body hNe, getElem?_image header total body' hNe, openImage,
      openImage, hBody, hBody']
    simp only [← List.append_assoc]
    apply getElem?_segment back hLength
    rw [List.length_append, Header.length_bytes]
    exact hOutside

end Table

/-- **A finished table, seen from a part.**  Where a table can be written, so can the table with
another part of the same size, and the two differ in the bytes of the part and at the checksum only. -/
theorem Place.Holds.write_eq {place : Place} {part part' : Node} {header : Header}
    {body body' : List Node} {layout layout' : Layout} {buffer buffer' : ByteArray} {total : Nat}
    (h : place.Holds part (.block header body)) (h' : place.Holds part' (.block header body'))
    (hLayout : Layout.ofBody body = .ok layout) (hLayout' : Layout.ofBody body' = .ok layout')
    (hTotal : layout'.total = layout.total) (hSize : part'.plan.size = part.plan.size)
    (hWrite : (Table.write (.block header body) buffer).result = .ok total)
    (hRoom : total ≤ buffer'.size) :
    (Table.write (.block header body') buffer').result = .ok total ∧
      Table.SameOutside (place.start part.plan.size) part.encode part'.encode
        ((Table.write (.block header body) buffer).buffer.data.toList.take total)
        ((Table.write (.block header body') buffer').buffer.data.toList.take total) := by
  have hWrite' : (Table.write (.block header body') buffer').result = .ok total := by
    obtain ⟨-, hFresh, rfl⟩ := (Table.result_write_eq_ok_iff hLayout).1 hWrite
    rw [Table.result_write_eq_ok_iff hLayout', Table.Stale, hTotal]
    exact ⟨hRoom, hFresh, rfl⟩
  obtain ⟨⟨hBody, -⟩, -⟩ := Layout.ofBody_eq_ok_iff.1 hLayout
  obtain ⟨⟨hBody', -⟩, -⟩ := Layout.ofBody_eq_ok_iff.1 hLayout'
  have hBytes := h.flatMap_terms Listing.bytes hBody
  have hBytes' := h'.flatMap_terms Listing.bytes hBody'
  have hLength : part'.encode.length = part.encode.length := by
    rw [(h.encodable hBody).length_encode, (h'.encodable hBody').length_encode, hSize]
  refine ⟨hWrite', ?_⟩
  rw [Table.take_write hLayout hWrite, Table.take_write hLayout' hWrite', hTotal, Place.start,
    ← h.headerSize_eq]
  rw [hSize] at hBytes'
  exact Table.sameOutside_image header layout.total hBytes hBytes' hLength

namespace Block

/-- An edit takes no notice of the header. -/
theorem edit?_mapHeader (block : Block) (change : Header → Header) (index : Nat)
    (steps : List Step) (edit : Edit) :
    (block.mapHeader change).edit? index steps edit =
      (block.edit? index steps edit).map (mapHeader · change) := by
  unfold edit?
  show (block.body[index]?.bind fun node => _) = _
  cases block.body[index]? with
  | none => rfl
  | some node =>
      simp only [Option.bind_some, Option.bind_eq_bind]
      cases node.modify? edit.run? steps <;> rfl

/-- Replacing a part is one of the edits. -/
theorem replace?_toNode (block : Block) (index : Nat) (steps : List Step) (part : Node) :
    block.toNode.replace? index steps part =
      (block.edit? index steps (.set part)).map toNode := by
  unfold edit? Node.replace?
  show (block.body[index]?.bind fun node => _) = _
  cases block.body[index]? with
  | none => rfl
  | some node =>
      simp only [Option.bind_some, Option.bind_eq_bind]
      cases node.modify? (Edit.set part).run? steps <;> rfl

/-- After a stamp, replacing a part is found out if it has changed the size of the block. -/
theorem write_of_replaced {block : Block} {tree part : Node} {index : Nat} {steps : List Step}
    {layout layout' : Layout} {buffer : ByteArray}
    (hReplace : block.toNode.replace? index steps part = some tree)
    (hLayout : Layout.ofNode block.toNode = .ok layout) (hLayout' : Layout.ofNode tree = .ok layout')
    (hRoom : layout'.total.toNat ≤ buffer.size) :
    ∃ edited, block.stamp.2.edit? index steps (.set part) = some edited ∧
      (Table.write edited.toNode buffer).result =
        if layout.total = layout'.total then .ok layout.total.toNat else .error .staleStamp := by
  have hStamp : block.stamp.1 = .ok layout.total.toNat := by
    rw [stamp_eq_size, Node.size, hLayout]
    rfl
  obtain ⟨hHeader, hFits, hStamped⟩ := stamp_of_ok hStamp
  have hPos : 0 < layout.total.toNat := by
    unfold Header.size at hHeader
    omega
  rw [replace?_toNode] at hReplace
  obtain ⟨replaced, hEdit, rfl⟩ := Option.map_eq_some_iff.1 hReplace
  let stampHeader (header : Header) : Header :=
    { header with length := UInt32.ofNat layout.total.toNat }
  refine ⟨replaced.mapHeader stampHeader, ?_, ?_⟩
  · rw [hStamped, edit?_mapHeader, hEdit]
    rfl
  · have hLength : (replaced.mapHeader stampHeader).header.length.toNat = layout.total.toNat :=
      UInt32.toNat_ofNat_of_lt hFits
    -- The size of a block does not depend on its header.
    have hSize : (replaced.mapHeader stampHeader).toNode.size = .ok layout'.total.toNat := by
      show replaced.toNode.size = _
      rw [Node.size, hLayout']
      rfl
    rw [result_write_of_stamped hLength hPos hSize hRoom]
    have hSame : layout'.total.toNat = layout.total.toNat ↔ layout.total = layout'.total := by
      rw [UInt32.toNat_inj, eq_comm]
    simp only [hSame]

end Block

namespace Node

/-- **Replacements are local.**  The part of a tree at a position that is reached through written
arguments is replaced by another part that is no block, and both trees can be measured.  Then so can
both parts, and the tree grows, shrinks or keeps its size just as the part does.  If the tree was
stamped before, a write reports a stale stamp just if the sizes of the parts differ.  If they are
equal, then the length fields outside of the part are the same, and where the first table can be
written so can the second, with the same bytes outside of the part but for the checksum. -/
theorem replacement_is_local (tree tree' part part' : Node) (index : Nat) (steps : List Step)
    (layout layout' : Layout) (hPart : tree.part? index steps = some part)
    (hWritten : tree.PartWritten index steps)
    (hReplace : tree.replace? index steps part' = some tree') (hBelow : part'.isBlock = false)
    (hLayout : Layout.ofNode tree = .ok layout) (hLayout' : Layout.ofNode tree' = .ok layout') :
    ∃ inner inner', Layout.ofNode part = .ok inner ∧ Layout.ofNode part' = .ok inner' ∧
      (layout.total < layout'.total ↔ inner.total < inner'.total) ∧
      (layout.total = layout'.total ↔ inner.total = inner'.total) ∧
      (∀ (block : Block) (buffer : ByteArray), tree = block.toNode →
        layout'.total.toNat ≤ buffer.size →
        ∃ edited, block.stamp.2.edit? index steps (.set part') = some edited ∧
          (Table.write edited.toNode buffer).result =
            if inner.total = inner'.total then .ok layout.total.toNat else .error .staleStamp) ∧
      (inner.total = inner'.total →
        let place := tree.place index steps
        let size := inner.total.toNat
        layout.lengths.toList = Listing.lengths.front place size ++ inner.lengths.toList ++
            Listing.lengths.back place ∧
          layout'.lengths.toList = Listing.lengths.front place size ++ inner'.lengths.toList ++
            Listing.lengths.back place ∧
          ∀ (buffer buffer' : ByteArray) (total : Nat),
            (Table.write tree buffer).result = .ok total → total ≤ buffer'.size →
              (Table.write tree' buffer').result = .ok total ∧
              Table.SameOutside (place.start size) part.encode part'.encode
                ((Table.write tree buffer).buffer.data.toList.take total)
                ((Table.write tree' buffer').buffer.data.toList.take total)) := by
  have hHolds := Place.holds_of_part? hPart hWritten
  have hHolds' := Place.holds_of_replace? hReplace hWritten hBelow
  obtain ⟨inner, hInner, hSize, hTotal, hLengths⟩ := hHolds.layout_eq hLayout
  obtain ⟨inner', hInner', hSize', hTotal', hLengths'⟩ := hHolds'.layout_eq hLayout'
  have hMono := (tree.place index steps).size_strictMono
  have hSame : layout.total = layout'.total ↔ inner.total = inner'.total := by
    rw [← UInt32.toNat_inj, ← UInt32.toNat_inj, hTotal, hTotal', hMono.injective.eq_iff]
  refine ⟨inner, inner', hInner, hInner', ?_, hSame, ?_, ?_⟩
  · rw [UInt32.lt_iff_toNat_lt, UInt32.lt_iff_toNat_lt, hTotal, hTotal', hMono.lt_iff_lt]
  · intro block buffer hBlock hRoom
    subst hBlock
    simp only [← hSame]
    exact Block.write_of_replaced hReplace hLayout hLayout' hRoom
  · intro hEqual place size
    rw [← hEqual] at hLengths'
    refine ⟨hLengths, hLengths', ?_⟩
    intro buffer buffer' total hWrite hRoom
    have hTotals := (hSame.2 hEqual).symm
    have hSizes : part'.plan.size = part.plan.size := by rw [← hSize, ← hSize', hEqual]
    -- Only a block can be written as a table.
    cases tree with
    | data bytes => cases hWrite
    | object head fixed body => cases hWrite
    | block header body =>
        obtain ⟨term, term', -, -, rfl⟩ := replace?_eq_some_iff.1 hReplace
        have hTables := hHolds.write_eq hHolds' hLayout hLayout' hTotals hSizes hWrite hRoom
        rw [← hSize] at hTables
        exact hTables

/-- The argument of a call inside a scope, behind the private one, is replaced twice.  A packaged
object of the same size leaves the rest of the table as it was.  With one byte more the scope needs a
wider length field, and the stamp is stale. -/
theorem replacement_is_local_argument :
    let header : Header := ⟨#v[0x53, 0x53, 0x44, 0x54], 0, 2, 0, #v[1, 2, 3, 4, 5, 6],
      #v[1, 2, 3, 4, 5, 6, 7, 8], 1, 2, 3⟩
    let name : Node := .data [0x41, 0x42, 0x43, 0x44].toByteArray
    let plain (size : Nat) : Node := .data (List.replicate size 0xA3).toByteArray
    let scope (body : Node) : Node := .object (Head.plain Opcode.scopeOp) [name] [body]
    let call (arg : Node) : Node := .object Head.group.asInvocation [name, plain 1, arg] []
    let block (arg : Node) : Block := ⟨header, [name, scope (call arg)]⟩
    let steps : List Step := [⟨.body, 0⟩, ⟨.fixed, 2⟩]
    let buffer := (List.replicate 120 0).toByteArray
    (∃ edited, (block (plain 54)).stamp.2.edit? 1 steps (.set (plain 55)) = some edited ∧
      (Table.write edited.toNode buffer).result = .error .staleStamp) ∧
    (Table.write (block (scope (plain 48))).toNode buffer).result = .ok 104 ∧
    Table.SameOutside 50 (plain 54).encode (scope (plain 48)).encode
      ((Table.write (block (plain 54)).toNode buffer).buffer.data.toList.take 104)
      ((Table.write (block (scope (plain 48))).toNode buffer).buffer.data.toList.take 104) := by
  intro header name plain scope call block steps buffer
  have hPart : (block (plain 54)).toNode.part? 1 steps = some (plain 54) := rfl
  have hWritten : (block (plain 54)).toNode.PartWritten 1 steps := by
    intro term hTerm
    cases hTerm
    refine ⟨rfl, ?_⟩
    intro child hChild
    cases hChild
    exact ⟨rfl, fun _ _ => trivial⟩
  have hLayout : Layout.ofNode (block (plain 54)).toNode = .ok ⟨#[⟨63, 1⟩], 104⟩ := by rfl
  have hGrown : Layout.ofNode (block (plain 55)).toNode = .ok ⟨#[⟨65, 2⟩], 106⟩ := by rfl
  have hPacked : Layout.ofNode (block (scope (plain 48))).toNode =
      .ok ⟨#[⟨63, 1⟩, ⟨53, 1⟩], 104⟩ := by rfl
  have hRoom : 106 ≤ buffer.size := by simp [buffer]
  have hWrite : (Table.write (block (plain 54)).toNode buffer).result = .ok 104 :=
    congrArg Table.Outcome.result (Table.write_eq hLayout (by simp [buffer]) (by decide))
  have hSmall : Layout.ofNode (plain 54) = .ok ⟨#[], 54⟩ := by rfl
  have hLarge : Layout.ofNode (plain 55) = .ok ⟨#[], 55⟩ := by rfl
  have hScope : Layout.ofNode (scope (plain 48)) = .ok ⟨#[⟨53, 1⟩], 54⟩ := by rfl
  have hStart : ((block (plain 54)).toNode.place 1 steps).start (54 : UInt32).toNat = 50 := by
    decide +kernel
  constructor
  · obtain ⟨inner, inner', hInner, hInner', -, -, hStamp, -⟩ :=
      replacement_is_local _ (block (plain 55)).toNode _ (plain 55) 1 steps _ _ hPart hWritten rfl rfl
        hLayout hGrown
    obtain rfl : ⟨#[], 54⟩ = inner := by injection hSmall.symm.trans hInner
    obtain rfl : ⟨#[], 55⟩ = inner' := by injection hLarge.symm.trans hInner'
    exact hStamp (block (plain 54)) buffer rfl hRoom
  · obtain ⟨inner, inner', hInner, hInner', -, -, -, hEqual⟩ :=
      replacement_is_local _ (block (scope (plain 48))).toNode _ (scope (plain 48)) 1 steps _ _ hPart
        hWritten rfl rfl hLayout hPacked
    obtain rfl : ⟨#[], 54⟩ = inner := by injection hSmall.symm.trans hInner
    obtain rfl : ⟨#[⟨53, 1⟩], 54⟩ = inner' := by injection hScope.symm.trans hInner'
    obtain ⟨-, -, hTables⟩ := hEqual rfl
    rw [← hStart]
    exact hTables buffer buffer 104 hWrite (Nat.le_trans (by decide) hRoom)

end Node

end Acpi
