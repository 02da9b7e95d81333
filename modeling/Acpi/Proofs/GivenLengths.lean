import Acpi.Proofs.ShortStream
import Mathlib.Data.List.Forall2

/-!
# Writing with given lengths

A writer measures nothing: it puts the package lengths that it was given behind the opcodes that it
meets.  So what it writes is a text with gaps, which depends on the trees alone, and the lengths
fill the gaps one after the other.  `Gapped` is such a text, and `Node.gapped` is the text of a
tree: every gap stands behind the opcode of an object that has a length field, and the gaps follow
one another in the order in which the objects are met (`Node.lengthHeads`).

If there are too few lengths, the text is written up to the first gap that stays open.

Main results: `Writer.obeyAll_of_enough`, `Writer.obeyAll_of_few` and `Writer.obeyAll_of_full` for
scripts, and `Writer.writeNodes_fills_gaps` for lists of trees.
-/

namespace Acpi

/-! ## Texts with gaps -/

/-- A text with gaps: what stands in front of each gap, behind the gap before, and what stands
behind the last one. -/
structure Gapped where
  fronts : List (List UInt8)
  last : List UInt8
  deriving DecidableEq, Repr

namespace Gapped

/-- A text without gaps. -/
def text (bytes : List UInt8) : Gapped := ⟨[], bytes⟩

/-- A text with a gap at its end. -/
def gap (bytes : List UInt8) : Gapped := ⟨[bytes], []⟩

/-- One text behind the other: the end of the first and the front of the second grow together. -/
def append (first second : Gapped) : Gapped :=
  match second.fronts with
  | [] => ⟨first.fronts, first.last ++ second.last⟩
  | front :: fronts => ⟨first.fronts ++ (first.last ++ front) :: fronts, second.last⟩

instance : Append Gapped := ⟨append⟩

/-- Some texts one behind the other. -/
def concat (parts : List Gapped) : Gapped := parts.foldr (· ++ ·) (text [])

/-- The text with its gaps filled, up to the first gap for which there is nothing. -/
def fill (gapped : Gapped) (fields : List (List UInt8)) : List UInt8 :=
  (List.zipWith (· ++ ·) gapped.fronts fields).flatten ++
    gapped.fronts.getD fields.length gapped.last

section

variable {first second third : Gapped} {bytes field : List UInt8} {fields : List (List UInt8)}

@[simp] theorem append_of_nil :
    first ++ ⟨[], bytes⟩ = (⟨first.fronts, first.last ++ bytes⟩ : Gapped) := rfl

@[simp] theorem append_of_cons {front : List UInt8} {fronts : List (List UInt8)} :
    first ++ ⟨front :: fronts, bytes⟩ =
      (⟨first.fronts ++ (first.last ++ front) :: fronts, bytes⟩ : Gapped) := rfl

theorem append_empty : first ++ text [] = first := by
  simp [text]

theorem empty_append : text [] ++ first = first := by
  obtain ⟨_ | ⟨front, fronts⟩, last⟩ := first <;> rfl

theorem append_assoc : first ++ second ++ third = first ++ (second ++ third) := by
  obtain ⟨fronts, last⟩ := second
  obtain ⟨fronts', last'⟩ := third
  cases fronts <;> cases fronts' <;> simp

theorem length_fronts_append :
    (first ++ second).fronts.length = first.fronts.length + second.fronts.length := by
  obtain ⟨fronts, last⟩ := second
  cases fronts <;> simp

theorem concat_append (parts more : List Gapped) :
    concat (parts ++ more) = concat parts ++ concat more := by
  induction parts with
  | nil => exact empty_append.symm
  | cons part parts ih =>
      show part ++ concat (parts ++ more) = part ++ concat parts ++ concat more
      rw [ih, append_assoc]

theorem fill_text_append : (text bytes ++ first).fill fields = bytes ++ first.fill fields := by
  obtain ⟨fronts, last⟩ := first
  cases fronts <;> cases fields <;> simp [fill, text]

theorem fill_gap_append_nil : (gap bytes ++ first).fill [] = bytes := by
  obtain ⟨fronts, last⟩ := first
  cases fronts <;> rfl

theorem fill_gap_append_cons :
    (gap bytes ++ first).fill (field :: fields) = bytes ++ field ++ first.fill fields := by
  obtain ⟨fronts, last⟩ := first
  cases fronts <;> cases fields <;> simp [fill, gap]

theorem fill_cons_cons {front : List UInt8} {fronts : List (List UInt8)} :
    fill ⟨front :: fronts, bytes⟩ (field :: fields) =
      front ++ field ++ fill ⟨fronts, bytes⟩ fields := by
  simp [fill]

/-- What stands in front of a gap ends the text up to that gap. -/
theorem suffix_fill_take {i : Nat} {front : List UInt8} (hFront : first.fronts[i]? = some front)
    (hLe : i ≤ fields.length) : front <:+ first.fill (fields.take i) := by
  have hNext : first.fronts.getD (fields.take i).length first.last = front := by
    rw [List.length_take, Nat.min_eq_left hLe, List.getD_eq_getElem?_getD, hFront, Option.getD_some]
  rw [fill, hNext]
  exact List.suffix_append _ _

/-- A field that fills a gap stands behind the text up to that gap. -/
theorem fill_take_append {i : Nat} {front : List UInt8} (hFront : first.fronts[i]? = some front)
    (hField : fields[i]? = some field) :
    first.fill (fields.take i) ++ field <+: first.fill fields := by
  obtain ⟨fronts, last⟩ := first
  induction fronts generalizing i fields with
  | nil => simp at hFront
  | cons front' fronts ih =>
      cases fields with
      | nil => simp at hField
      | cons field' fields =>
          cases i with
          | zero =>
              obtain rfl : field' = field := by simpa using hField
              have hStart : fill ⟨front' :: fronts, last⟩ [] = front' := rfl
              rw [List.take_zero, hStart, fill_cons_cons]
              exact List.prefix_append _ _
          | succ i =>
              rw [List.take_succ_cons, fill_cons_cons, fill_cons_cons, List.append_assoc _ _ field]
              exact (List.prefix_append_right_inj _).2 (ih hField hFront)

end

end Gapped

/-! ## The gaps of a tree -/

/-- The opcode of an object, with a gap behind it if a length field belongs there. -/
def Head.gapped (head : Head) : Gapped :=
  if head.hasLength then .gap head.opcodeBytes else .text head.opcodeBytes

/-- The head of an object that has a length field. -/
def Head.lengthHeads (head : Head) : List Head := if head.hasLength then [head] else []

namespace Node

/-- The encoding of a tree below the top, with gaps for its length fields. -/
def gapped : Node → Gapped :=
  fold
    { block := fun _ _ => .text []
      data := fun bytes => .text bytes.data.toList
      object := fun head args => head.gapped ++ .concat args }

/-- The heads of the objects that have a length field, in the order in which they are met. -/
def lengthHeads : Node → List Head :=
  fold
    { block := fun _ _ => []
      data := fun _ => []
      object := fun head args => head.lengthHeads ++ args.flatten }

/-- No block stands where it would be written. -/
inductive NoBlock : Node → Prop
  | data (bytes : ByteArray) : NoBlock (.data bytes)
  | object (head : Head) (fixed body : List Node)
      (args : ∀ node ∈ head.writtenArgs fixed body, NoBlock node) :
      NoBlock (.object head fixed body)

theorem gapped_object (head : Head) (fixed body : List Node) :
    gapped (.object head fixed body) =
      head.gapped ++ .concat ((head.writtenArgs fixed body).map gapped) := by
  rw [gapped, fold_object, ← gapped]

theorem lengthHeads_object (head : Head) (fixed body : List Node) :
    lengthHeads (.object head fixed body) =
      head.lengthHeads ++ (head.writtenArgs fixed body).flatMap lengthHeads := by
  rw [lengthHeads, fold_object, ← lengthHeads, List.flatMap_def]

theorem noBlock_object_iff {head : Head} {fixed body : List Node} :
    NoBlock (.object head fixed body) ↔ ∀ node ∈ head.writtenArgs fixed body, NoBlock node := by
  constructor
  · rintro (_ | ⟨_, _, _, hArgs⟩)
    exact hArgs
  · exact .object head fixed body

end Node

/-- Every gap of a text stands behind the opcode of the object that is listed for it. -/
def Gapped.StandsBehind (gapped : Gapped) (heads : List Head) : Prop :=
  List.Forall₂ (fun front head => head.opcodeBytes <:+ front) gapped.fronts heads

namespace Gapped.StandsBehind

theorem append {first second : Gapped} {heads more : List Head} (h : first.StandsBehind heads)
    (hMore : second.StandsBehind more) : (first ++ second).StandsBehind (heads ++ more) := by
  obtain ⟨fronts, last⟩ := second
  cases fronts with
  | nil =>
      obtain rfl := List.forall₂_nil_left_iff.1 hMore
      rw [List.append_nil]
      exact h
  | cons front fronts =>
      obtain ⟨head, more, hFront, hFronts, rfl⟩ := List.forall₂_cons_left_iff.1 hMore
      exact List.rel_append h
        (.cons (hFront.trans (List.suffix_append first.last front)) hFronts)

theorem head (head : Head) : head.gapped.StandsBehind head.lengthHeads := by
  unfold Head.gapped Head.lengthHeads
  split
  · exact .cons (List.suffix_refl _) .nil
  · exact .nil

theorem concat {nodes : List Node} (h : ∀ node ∈ nodes, node.gapped.StandsBehind node.lengthHeads) :
    (Gapped.concat (nodes.map Node.gapped)).StandsBehind (nodes.flatMap Node.lengthHeads) := by
  induction nodes with
  | nil => exact .nil
  | cons node nodes ih =>
      obtain ⟨hNode, hNodes⟩ := List.forall_mem_cons.1 h
      exact hNode.append (ih hNodes)

end Gapped.StandsBehind

/-- The gaps of a tree stand behind the opcodes of its objects with length fields, one for each and
in the same order. -/
theorem Node.standsBehind (node : Node) : node.gapped.StandsBehind node.lengthHeads := by
  induction node using written_induction with
  | block header body _ => rw [gapped, fold_block, lengthHeads, fold_block]; exact .nil
  | data bytes => rw [gapped, fold_data, lengthHeads, fold_data]; exact .nil
  | object head fixed body ih =>
      rw [gapped_object, lengthHeads_object]
      exact (Gapped.StandsBehind.head head).append (Gapped.StandsBehind.concat ih)

/-! ## The gaps of a script -/

/-- An order as a text with gaps. -/
def Order.gapped : Order → Gapped
  | .chunk bytes => .text bytes
  | .length => .gap []
  | .refuse => .text []

/-- What a script spells, with gaps for the lengths. -/
def scriptText (orders : List Order) : Gapped := .concat (orders.map Order.gapped)

theorem scriptText_append (orders more : List Order) :
    scriptText (orders ++ more) = scriptText orders ++ scriptText more := by
  rw [scriptText, List.map_append, Gapped.concat_append]
  rfl

theorem Head.scriptText_script (head : Head) : scriptText head.script = head.gapped := by
  unfold Head.script Head.gapped
  by_cases hPseudo : head.pseudo = true
  · rw [if_pos hPseudo, Head.hasLength_of_pseudo hPseudo, Head.opcodeBytes_of_pseudo hPseudo]
    rfl
  · rw [if_neg hPseudo, Head.hasLength_of_not_pseudo hPseudo, Head.opcodeBytes, if_neg hPseudo]
    cases head.sub <;> cases head.packaged <;> rfl

private theorem scriptText_of_each {nodes : List Node}
    (hEach : ∀ node ∈ nodes, scriptText node.script = node.gapped) :
    scriptText (nodes.flatMap Node.script) = .concat (nodes.map Node.gapped) := by
  induction nodes with
  | nil => rfl
  | cons node nodes ih =>
      obtain ⟨hNode, hNodes⟩ := List.forall_mem_cons.1 hEach
      rw [List.flatMap_cons, scriptText_append, hNode, ih hNodes]
      rfl

theorem Node.scriptText_script (node : Node) : scriptText node.script = node.gapped := by
  induction node using written_induction with
  | block header body _ => rw [script_block, gapped, fold_block]; rfl
  | data bytes =>
      rw [script_data, gapped, fold_data]
      exact Gapped.append_empty
  | object head fixed body ih =>
      rw [script_object, scriptText_append, Head.scriptText_script, scriptText_of_each ih,
        gapped_object]

theorem scriptText_flatMap (nodes : List Node) :
    scriptText (nodes.flatMap Node.script) = .concat (nodes.map Node.gapped) :=
  scriptText_of_each fun node _ => node.scriptText_script

theorem Head.refuse_not_mem_script (head : Head) : Order.refuse ∉ head.script := by
  unfold Head.script
  cases head.pseudo <;> cases head.sub <;> cases head.packaged <;> simp

/-- A script refuses exactly if a block stands where it would be written. -/
theorem Node.refuse_mem_script_iff (node : Node) : .refuse ∈ node.script ↔ ¬ node.NoBlock := by
  induction node using written_induction with
  | block header body _ =>
      rw [script_block]
      refine ⟨fun _ h => ?_, fun _ => List.mem_singleton.2 rfl⟩
      cases h
  | data bytes =>
      rw [script_data]
      simp [NoBlock.data]
  | object head fixed body ih =>
      have hHead := head.refuse_not_mem_script
      simp only [script_object, List.mem_append, hHead, false_or, List.mem_flatMap,
        noBlock_object_iff]
      constructor
      · rintro ⟨arg, hMem, hRefuse⟩ hArgs
        exact (ih arg hMem).1 hRefuse (hArgs arg hMem)
      · intro hSome
        simp only [not_forall] at hSome
        obtain ⟨arg, hMem, hBlock⟩ := hSome
        exact ⟨arg, hMem, (ih arg hMem).2 hBlock⟩

/-! ## Carrying out a script with given lengths -/

section

variable {bytes field : List UInt8} {fields : List (List UInt8)} {orders : List Order}

theorem fill_chunk :
    (scriptText (.chunk bytes :: orders)).fill fields = bytes ++ (scriptText orders).fill fields :=
  Gapped.fill_text_append

theorem fill_length_nil : (scriptText (.length :: orders)).fill [] = [] :=
  Gapped.fill_gap_append_nil

theorem fill_length_cons :
    (scriptText (.length :: orders)).fill (field :: fields) =
      field ++ (scriptText orders).fill fields :=
  Gapped.fill_gap_append_cons

/-- The gaps of a script. -/
def gapCount (orders : List Order) : Nat := (scriptText orders).fronts.length

theorem gapCount_chunk : gapCount (.chunk bytes :: orders) = gapCount orders :=
  Gapped.length_fronts_append.trans (Nat.zero_add _)

theorem gapCount_length : gapCount (.length :: orders) = gapCount orders + 1 :=
  Gapped.length_fronts_append.trans (Nat.add_comm _ _)

end

/-- With enough lengths a script comes to its text with all gaps filled, and the lengths that it
needs are the first ones. -/
theorem exists_cuts_of_enough {orders : List Order} {lengths : List PkgLength}
    (hOrders : .refuse ∉ orders) (hEnough : gapCount orders ≤ lengths.length) :
    ∃ chunks, Cuts orders (lengths.take (gapCount orders)) chunks ∧
      chunks.flatten = (scriptText orders).fill (lengths.map PkgLength.bytes) := by
  induction orders generalizing lengths with
  | nil => exact ⟨[], .nil, by simp [scriptText, Gapped.concat, Gapped.fill, Gapped.text]⟩
  | cons order orders ih =>
      obtain ⟨hOrder, hRest⟩ := not_or.1 (mt List.mem_cons.2 hOrders)
      cases order with
      | refuse => exact absurd rfl hOrder
      | chunk bytes =>
          rw [gapCount_chunk] at hEnough ⊢
          obtain ⟨chunks, hCuts, hFlatten⟩ := ih hRest hEnough
          refine ⟨bytes :: chunks, .chunk bytes hCuts, ?_⟩
          rw [List.flatten_cons, hFlatten, fill_chunk]
      | length =>
          rw [gapCount_length] at hEnough ⊢
          cases lengths with
          | nil => exact absurd hEnough (Nat.not_succ_le_zero _)
          | cons length lengths =>
              obtain ⟨chunks, hCuts, hFlatten⟩ := ih hRest (Nat.le_of_succ_le_succ hEnough)
              refine ⟨length.bytes :: chunks, .length length hCuts, ?_⟩
              rw [List.flatten_cons, hFlatten, List.map_cons, fill_length_cons]

/-- With too few lengths a script gets as far as the first gap that stays open. -/
theorem exists_cuts_of_few {orders : List Order} {lengths : List PkgLength}
    (hOrders : .refuse ∉ orders) (hFew : lengths.length < gapCount orders) :
    ∃ front back chunks, orders = front ++ .length :: back ∧ Cuts front lengths chunks ∧
      chunks.flatten = (scriptText orders).fill (lengths.map PkgLength.bytes) := by
  induction orders generalizing lengths with
  | nil => exact absurd hFew (Nat.not_lt_zero _)
  | cons order orders ih =>
      obtain ⟨hOrder, hRest⟩ := not_or.1 (mt List.mem_cons.2 hOrders)
      cases order with
      | refuse => exact absurd rfl hOrder
      | chunk bytes =>
          rw [gapCount_chunk] at hFew
          obtain ⟨front, back, chunks, rfl, hCuts, hFlatten⟩ := ih hRest hFew
          refine ⟨.chunk bytes :: front, back, bytes :: chunks, rfl, .chunk bytes hCuts, ?_⟩
          rw [List.flatten_cons, hFlatten, fill_chunk]
      | length =>
          rw [gapCount_length] at hFew
          cases lengths with
          | nil => exact ⟨[], orders, [], rfl, .nil, fill_length_nil.symm⟩
          | cons length lengths =>
              obtain ⟨front, back, chunks, rfl, hCuts, hFlatten⟩ :=
                ih hRest (Nat.lt_of_succ_lt_succ hFew)
              refine ⟨.length :: front, back, length.bytes :: chunks, rfl, .length length hCuts, ?_⟩
              rw [List.flatten_cons, hFlatten, List.map_cons, fill_length_cons]

/-- A script that was cut up with some lengths comes to its chunks. -/
theorem Cuts.fill {orders : List Order} {lengths : List PkgLength} {chunks : List (List UInt8)}
    (h : Cuts orders lengths chunks) :
    (scriptText orders).fill (lengths.map PkgLength.bytes) = chunks.flatten := by
  induction h with
  | nil => rfl
  | chunk bytes _ ih => rw [fill_chunk, ih, List.flatten_cons]
  | length length _ ih => rw [List.map_cons, fill_length_cons, ih, List.flatten_cons]

namespace Writer

section

variable {orders : List Order} {lengths : List PkgLength} {stream : Stream}

/-- Enough lengths and enough room: the text is written and the lengths that it needs are taken. -/
theorem obeyAll_of_enough (hOrders : .refuse ∉ orders) (hForward : stream.direction = .forward)
    (hEnough : gapCount orders ≤ lengths.length)
    (hRoom : ((scriptText orders).fill (lengths.map PkgLength.bytes)).toByteArray.size ≤
      stream.remaining) :
    obeyAll orders ⟨lengths, stream⟩ =
      .ok () ⟨lengths.drop (gapCount orders),
        stream.put ((scriptText orders).fill (lengths.map PkgLength.bytes)).toByteArray hRoom⟩ := by
  obtain ⟨chunks, hCuts, hFlatten⟩ := exists_cuts_of_enough hOrders hEnough
  have hSpells := hCuts.spells
  rw [hFlatten] at hSpells
  have hRun := obeyAll_eq hSpells (lengths.drop (gapCount orders)) hForward
    (List.size_toByteArray ▸ hRoom)
  rw [List.take_append_drop] at hRun
  rw [hRun, writeChunk_of_le _ hRoom]

private theorem obeyAll_split {front back : List Order} (hSplit : orders = front ++ .length :: back)
    (writer : Writer) :
    obeyAll orders writer =
      EStateM.bind (obeyAll front) (fun _ => obeyAll (.length :: back)) writer := by
  rw [hSplit]
  exact congrFun (obeyAll_append front (.length :: back)) writer

/-- Too few lengths and enough room: the text is written up to the first gap that stays open. -/
theorem obeyAll_of_few (hOrders : .refuse ∉ orders) (hForward : stream.direction = .forward)
    (hFew : lengths.length < gapCount orders)
    (hRoom : ((scriptText orders).fill (lengths.map PkgLength.bytes)).toByteArray.size ≤
      stream.remaining) :
    obeyAll orders ⟨lengths, stream⟩ =
      .error .sizeMismatch ⟨[],
        stream.put ((scriptText orders).fill (lengths.map PkgLength.bytes)).toByteArray hRoom⟩ := by
  obtain ⟨front, back, chunks, hSplit, hCuts, hFlatten⟩ := exists_cuts_of_few hOrders hFew
  have hSpells := hCuts.spells
  rw [hFlatten] at hSpells
  have hRun := obeyAll_eq hSpells [] hForward (List.size_toByteArray ▸ hRoom)
  rw [List.append_nil, writeChunk_of_le _ hRoom] at hRun
  rw [obeyAll_split hSplit]
  unfold EStateM.bind
  rw [hRun]
  rfl

/-- Chunks that do not fit together end the run that writes them. -/
private theorem obeyAll_of_short {chunks : List (List UInt8)} (hCuts : Cuts orders lengths chunks)
    (rest : List PkgLength) (hShort : stream.remaining < chunks.flatten.length) :
    ∃ writer, obeyAll orders ⟨lengths ++ rest, stream⟩ = .error .bufferTooSmall writer := by
  obtain ⟨_, after, hWrite, -, -⟩ := Stream.writeAll_of_short stream.holds_contents hShort
  have hRun := streamOf_obeyAll hCuts rest stream
  rw [hWrite] at hRun
  cases hResult : obeyAll orders ⟨lengths ++ rest, stream⟩ with
  | ok _ writer =>
      rw [hResult] at hRun
      cases hRun
  | error error writer =>
      rw [hResult] at hRun
      cases hRun
      exact ⟨writer, rfl⟩

/-- Too little room for what the lengths allow to write: the run ends at a chunk that does not
fit. -/
theorem obeyAll_of_full (hOrders : .refuse ∉ orders)
    (hFull : stream.remaining < ((scriptText orders).fill (lengths.map PkgLength.bytes)).length) :
    ∃ writer, obeyAll orders ⟨lengths, stream⟩ = .error .bufferTooSmall writer := by
  by_cases hEnough : gapCount orders ≤ lengths.length
  · obtain ⟨chunks, hCuts, hFlatten⟩ := exists_cuts_of_enough hOrders hEnough
    rw [← hFlatten] at hFull
    have hRun := obeyAll_of_short hCuts (lengths.drop (gapCount orders)) hFull
    rwa [List.take_append_drop] at hRun
  · obtain ⟨front, back, chunks, hSplit, hCuts, hFlatten⟩ :=
      exists_cuts_of_few hOrders (Nat.not_le.1 hEnough)
    rw [← hFlatten] at hFull
    obtain ⟨writer, hRun⟩ := obeyAll_of_short hCuts [] hFull
    rw [List.append_nil] at hRun
    refine ⟨writer, ?_⟩
    rw [obeyAll_split hSplit]
    unfold EStateM.bind
    rw [hRun]

/-- A script that refuses does not end well. -/
theorem refuse_not_mem_of_ok {writer after : Writer} (h : obeyAll orders writer = .ok () after) :
    .refuse ∉ orders := by
  induction orders generalizing writer with
  | nil => exact List.not_mem_nil
  | cons order orders ih =>
      change EStateM.bind (obey order) (fun _ => obeyAll orders) writer = _ at h
      unfold EStateM.bind at h
      cases hOrder : obey order writer with
      | error error middle =>
          rw [hOrder] at h
          cases h
      | ok _ middle =>
          rw [hOrder] at h
          refine mt List.mem_cons.1 (not_or.2 ⟨?_, ih h⟩)
          rintro rfl
          cases hOrder

/-- A run on a forward stream that ends well had enough lengths and enough room, and has done what
`obeyAll_of_enough` says. -/
theorem obeyAll_ok_inv {after : Writer} (hForward : stream.direction = .forward)
    (h : obeyAll orders ⟨lengths, stream⟩ = .ok () after) :
    .refuse ∉ orders ∧ gapCount orders ≤ lengths.length ∧
      ∃ hRoom : ((scriptText orders).fill (lengths.map PkgLength.bytes)).toByteArray.size ≤
          stream.remaining,
        after.stream = stream.put
          ((scriptText orders).fill (lengths.map PkgLength.bytes)).toByteArray hRoom := by
  have hOrders := refuse_not_mem_of_ok h
  by_cases hRoom : ((scriptText orders).fill (lengths.map PkgLength.bytes)).toByteArray.size ≤
      stream.remaining
  · by_cases hEnough : gapCount orders ≤ lengths.length
    · rw [obeyAll_of_enough hOrders hForward hEnough hRoom] at h
      cases h
      exact ⟨hOrders, hEnough, hRoom, rfl⟩
    · rw [obeyAll_of_few hOrders hForward (Nat.not_le.1 hEnough) hRoom] at h
      cases h
  · rw [List.size_toByteArray] at hRoom
    obtain ⟨writer, hFull⟩ := obeyAll_of_full hOrders (Nat.not_le.1 hRoom)
    cases hFull.symm.trans h

end

end Writer

/-! ## Writing trees with given lengths -/

namespace Node

/-- What some trees come to with the given lengths: their encodings with the lengths in the gaps, up
to the first gap for which there is none. -/
def textWith (nodes : List Node) (lengths : List PkgLength) : List UInt8 :=
  (Gapped.concat (nodes.map gapped)).fill (lengths.map PkgLength.bytes)

section

variable {nodes : List Node} {lengths : List PkgLength}

theorem textWith_eq :
    textWith nodes lengths =
      (scriptText (nodes.flatMap script)).fill (lengths.map PkgLength.bytes) := by
  rw [textWith, scriptText_flatMap]

theorem standsBehind_all (nodes : List Node) :
    (Gapped.concat (nodes.map gapped)).StandsBehind (nodes.flatMap lengthHeads) :=
  .concat fun node _ => node.standsBehind

theorem gapCount_script (nodes : List Node) :
    gapCount (nodes.flatMap script) = (nodes.flatMap lengthHeads).length := by
  rw [gapCount, scriptText_flatMap]
  exact (standsBehind_all nodes).length_eq

theorem refuse_not_mem_script_iff :
    .refuse ∉ nodes.flatMap script ↔ ∀ node ∈ nodes, node.NoBlock := by
  simp only [List.mem_flatMap, refuse_mem_script_iff, not_exists, not_and, not_not]

/-- The gap of an object with a length field stands behind its opcode. -/
theorem exists_front {i : Nat} {head : Head} (h : (nodes.flatMap lengthHeads)[i]? = some head) :
    ∃ front, (Gapped.concat (nodes.map gapped)).fronts[i]? = some front ∧
      head.opcodeBytes <:+ front := by
  obtain ⟨hHeads, rfl⟩ := List.getElem?_eq_some_iff.1 h
  have hFronts := (standsBehind_all nodes).length_eq ▸ hHeads
  exact ⟨_, List.getElem?_eq_getElem hFronts, (standsBehind_all nodes).get hFronts hHeads⟩

/-- The text up to the gap of an object ends with the opcode of the object. -/
theorem opcodeBytes_suffix_textWith {i : Nat} {head : Head}
    (h : (nodes.flatMap lengthHeads)[i]? = some head) (hLe : i ≤ lengths.length) :
    head.opcodeBytes <:+ textWith nodes (lengths.take i) := by
  obtain ⟨front, hFront, hOpcode⟩ := exists_front h
  rw [textWith, List.map_take]
  exact hOpcode.trans (Gapped.suffix_fill_take hFront (by rwa [List.length_map]))

/-- The field of an object stands behind the text up to its gap. -/
theorem textWith_take_append {i : Nat} {head : Head} {length : PkgLength}
    (h : (nodes.flatMap lengthHeads)[i]? = some head) (hLength : lengths[i]? = some length) :
    textWith nodes (lengths.take i) ++ length.bytes <+: textWith nodes lengths := by
  obtain ⟨front, hFront, -⟩ := exists_front h
  rw [textWith, textWith, List.map_take]
  exact Gapped.fill_take_append hFront (by rw [List.getElem?_map, hLength, Option.map_some])

/-- With more lengths the text goes on where it stopped. -/
theorem textWith_append_cons {head : Head}
    (h : (nodes.flatMap lengthHeads)[lengths.length]? = some head) (length : PkgLength)
    (more : List PkgLength) :
    textWith nodes lengths ++ length.bytes <+: textWith nodes (lengths ++ length :: more) := by
  have hNext : (lengths ++ length :: more)[lengths.length]? = some length := by simp
  have hField := textWith_take_append h hNext
  rwa [List.take_left] at hField

/-- With the lengths that were planned for them, trees come to their encodings. -/
theorem textWith_planLengths (h : ∀ node ∈ nodes, Encodable node) :
    textWith nodes (planLengths nodes) = nodes.flatMap encode := by
  rw [textWith_eq, (cuts_all h).fill, flatten_chunks_all]

end

end Node

/-- A stream has written some bytes more; what stood before them and what stands behind them is as
it was. -/
structure Stream.Advanced (before : Stream) (bytes : List UInt8) (after : Stream) : Prop where
  direction : after.direction = before.direction
  written : after.written = before.written + bytes.length
  buffer : after.buffer.data.toList =
    before.buffer.data.toList.take before.written ++ bytes ++
      before.buffer.data.toList.drop (before.written + bytes.length)

theorem Stream.advanced_put {stream : Stream} (hForward : stream.direction = .forward)
    {bytes : List UInt8} (hRoom : bytes.toByteArray.size ≤ stream.remaining) :
    stream.Advanced bytes (stream.put bytes.toByteArray hRoom) where
  direction := rfl
  written := by rw [← List.size_toByteArray]; rfl
  buffer := by rw [toList_put_forward hForward, List.data_toByteArray, List.size_toByteArray]

namespace Writer

section

variable {nodes : List Node} {lengths : List PkgLength} {stream : Stream}

theorem writeNodes_of_enough (hBlocks : ∀ node ∈ nodes, node.NoBlock)
    (hForward : stream.direction = .forward)
    (hEnough : (nodes.flatMap Node.lengthHeads).length ≤ lengths.length)
    (hRoom : (Node.textWith nodes lengths).toByteArray.size ≤ stream.remaining) :
    writeNodes nodes ⟨lengths, stream⟩ =
      .ok () ⟨lengths.drop (nodes.flatMap Node.lengthHeads).length,
        stream.put (Node.textWith nodes lengths).toByteArray hRoom⟩ := by
  simp only [Node.textWith_eq, ← Node.gapCount_script] at hEnough hRoom ⊢
  rw [writeNodes_eq]
  exact obeyAll_of_enough (Node.refuse_not_mem_script_iff.2 hBlocks) hForward hEnough hRoom

theorem writeNodes_of_few (hBlocks : ∀ node ∈ nodes, node.NoBlock)
    (hForward : stream.direction = .forward)
    (hFew : lengths.length < (nodes.flatMap Node.lengthHeads).length)
    (hRoom : (Node.textWith nodes lengths).toByteArray.size ≤ stream.remaining) :
    writeNodes nodes ⟨lengths, stream⟩ =
      .error .sizeMismatch ⟨[], stream.put (Node.textWith nodes lengths).toByteArray hRoom⟩ := by
  simp only [Node.textWith_eq, ← Node.gapCount_script] at hFew hRoom ⊢
  rw [writeNodes_eq]
  exact obeyAll_of_few (Node.refuse_not_mem_script_iff.2 hBlocks) hForward hFew hRoom

theorem writeNodes_of_full (hBlocks : ∀ node ∈ nodes, node.NoBlock)
    (hFull : stream.remaining < (Node.textWith nodes lengths).length) :
    ∃ writer, writeNodes nodes ⟨lengths, stream⟩ = .error .bufferTooSmall writer := by
  rw [Node.textWith_eq] at hFull
  rw [writeNodes_eq]
  exact obeyAll_of_full (Node.refuse_not_mem_script_iff.2 hBlocks) hFull

/-- All that writing trees with given lengths can come to: there is too little room, or there are
enough lengths, or there are too few. -/
theorem writeNodes_outcome (hBlocks : ∀ node ∈ nodes, node.NoBlock) (lengths : List PkgLength)
    (hForward : stream.direction = .forward) :
    (stream.remaining < (Node.textWith nodes lengths).length ∧
        ∃ writer, writeNodes nodes ⟨lengths, stream⟩ = .error .bufferTooSmall writer) ∨
      ((Node.textWith nodes lengths).length ≤ stream.remaining ∧
        (nodes.flatMap Node.lengthHeads).length ≤ lengths.length ∧
        ∃ after, writeNodes nodes ⟨lengths, stream⟩ =
            .ok () ⟨lengths.drop (nodes.flatMap Node.lengthHeads).length, after⟩ ∧
          stream.Advanced (Node.textWith nodes lengths) after) ∨
      ((Node.textWith nodes lengths).length ≤ stream.remaining ∧
        lengths.length < (nodes.flatMap Node.lengthHeads).length ∧
        ∃ after, writeNodes nodes ⟨lengths, stream⟩ = .error .sizeMismatch ⟨[], after⟩ ∧
          stream.Advanced (Node.textWith nodes lengths) after) := by
  by_cases hFull : stream.remaining < (Node.textWith nodes lengths).length
  · exact .inl ⟨hFull, writeNodes_of_full hBlocks hFull⟩
  · have hLength := Nat.not_lt.1 hFull
    have hRoom : (Node.textWith nodes lengths).toByteArray.size ≤ stream.remaining := by
      rwa [List.size_toByteArray]
    by_cases hEnough : (nodes.flatMap Node.lengthHeads).length ≤ lengths.length
    · exact .inr (.inl ⟨hLength, hEnough, _, writeNodes_of_enough hBlocks hForward hEnough hRoom,
        Stream.advanced_put hForward hRoom⟩)
    · have hFew := Nat.not_le.1 hEnough
      exact .inr (.inr ⟨hLength, hFew, _, writeNodes_of_few hBlocks hForward hFew hRoom,
        Stream.advanced_put hForward hRoom⟩)

end

/-- A writer with any lengths on a forward stream, given trees without a block in a place that is
written.  It runs out of room exactly if what the lengths allow to write does not fit.  Otherwise it
succeeds exactly if there is a length for every object with a length field.  It has then taken that
many lengths and left the others, and the `i`-th object has got the `i`-th length: the text before
the gap ends with its opcode, and the field follows.  With too few lengths it fails with none left,
and what it has written ends with the opcode of the first object without a length. -/
theorem writeNodes_fills_gaps {nodes : List Node} (hBlocks : ∀ node ∈ nodes, node.NoBlock)
    (lengths : List PkgLength) {stream : Stream} (hForward : stream.direction = .forward) :
    let heads := nodes.flatMap Node.lengthHeads
    let text := Node.textWith nodes
    (stream.remaining < (text lengths).length ↔
        ∃ writer, writeNodes nodes ⟨lengths, stream⟩ = .error .bufferTooSmall writer) ∧
      ((text lengths).length ≤ stream.remaining →
        ((∃ writer, writeNodes nodes ⟨lengths, stream⟩ = .ok () writer) ↔
            heads.length ≤ lengths.length) ∧
          (heads.length ≤ lengths.length →
            ∃ after, writeNodes nodes ⟨lengths, stream⟩ =
                .ok () ⟨lengths.drop heads.length, after⟩ ∧
              stream.Advanced (text lengths) after) ∧
            (lengths.length < heads.length →
              ∃ after, writeNodes nodes ⟨lengths, stream⟩ = .error .sizeMismatch ⟨[], after⟩ ∧
                stream.Advanced (text lengths) after)) ∧
        (∀ (i : Nat) (head : Head) (length : PkgLength),
          heads[i]? = some head → lengths[i]? = some length →
            head.opcodeBytes <:+ text (lengths.take i) ∧
              text (lengths.take i) ++ length.bytes <+: text lengths) ∧
          (∀ head, heads[lengths.length]? = some head →
            head.opcodeBytes <:+ text lengths ∧
              ∀ length more, text lengths ++ length.bytes <+: text (lengths ++ length :: more)) ∧
            ((∀ node ∈ nodes, node.Encodable) →
              text (Node.planLengths nodes) = nodes.flatMap Node.encode) := by
  intro heads text
  refine ⟨?_, fun hRoom => ?_, ?_, ?_, Node.textWith_planLengths⟩
  · rcases writeNodes_outcome hBlocks lengths hForward with
      ⟨hFull, hRun⟩ | ⟨hRoom, -, after, hRun, -⟩ | ⟨hRoom, -, after, hRun, -⟩
    · exact iff_of_true hFull hRun
    · refine iff_of_false (Nat.not_lt.2 hRoom) ?_
      rintro ⟨writer, hFull⟩
      cases hRun.symm.trans hFull
    · refine iff_of_false (Nat.not_lt.2 hRoom) ?_
      rintro ⟨writer, hFull⟩
      cases hRun.symm.trans hFull
  · rcases writeNodes_outcome hBlocks lengths hForward with
      ⟨hFull, -⟩ | ⟨-, hEnough, after, hRun, hAfter⟩ | ⟨-, hFew, after, hRun, hAfter⟩
    · exact absurd hRoom (Nat.not_le.2 hFull)
    · exact ⟨iff_of_true ⟨_, hRun⟩ hEnough, fun _ => ⟨after, hRun, hAfter⟩,
        fun hFew => absurd hEnough (Nat.not_le.2 hFew)⟩
    · refine ⟨iff_of_false ?_ (Nat.not_le.2 hFew),
        fun hEnough => absurd hEnough (Nat.not_le.2 hFew), fun _ => ⟨after, hRun, hAfter⟩⟩
      rintro ⟨writer, hOk⟩
      cases hRun.symm.trans hOk
  · intro i head length hHead hLength
    have hLt := (List.getElem?_eq_some_iff.1 hLength).1
    exact ⟨Node.opcodeBytes_suffix_textWith hHead (Nat.le_of_lt hLt),
      Node.textWith_take_append hHead hLength⟩
  · intro head hHead
    have hOpcode := Node.opcodeBytes_suffix_textWith hHead (Nat.le_refl lengths.length)
    rw [List.take_length] at hOpcode
    exact ⟨hOpcode, fun length more => Node.textWith_append_cons hHead length more⟩

/-- A package in a package with one length for both: the outer one gets it, and the opcode of the
inner one is the last byte. -/
theorem writeNodes_fills_gaps_nested :
    let package : List Node → Node := .object (Head.plain Opcode.packageOp) []
    let stream := Stream.fresh .forward (List.replicate 8 0xAA).toByteArray
    ∃ after, writeNodes [.data [1].toByteArray, package [package []]] ⟨[⟨5, 1⟩], stream⟩ =
        .error .sizeMismatch ⟨[], after⟩ ∧
      stream.Advanced [0x01, 0x12, 0x05, 0x12] after := by
  intro package stream
  have hInner : (package []).NoBlock := .object _ _ _ (List.forall_mem_nil _)
  have hOuter : (package [package []]).NoBlock :=
    .object _ _ _ (List.forall_mem_singleton.2 hInner)
  have hBlocks : ∀ node ∈ [.data [1].toByteArray, package [package []]], node.NoBlock :=
    List.forall_mem_cons.2 ⟨.data _, List.forall_mem_singleton.2 hOuter⟩
  exact ((writeNodes_fills_gaps hBlocks [⟨5, 1⟩] rfl).2.1 (by decide)).2.2 (by decide)

end Writer

end Acpi
