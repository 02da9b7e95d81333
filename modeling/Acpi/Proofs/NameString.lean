import Acpi.Name.Path
import Acpi.Proofs.Header
import Acpi.Proofs.ByteReader
import Acpi.Proofs.EisaId
import Acpi.Proofs.PlainText

/-!
# Reading name paths

A name path is read from its bytes in three steps: the start, which is a root mark or a run of
parent marks; the mark that tells how many segments follow; and the segments of four bytes each.
The first byte of a segment is a capital letter or an underscore and so can be taken for neither of
the marks, which is why a single segment needs no mark of its own.

Main statements:

* `Segment.bytes_of_ofChars?`: a segment is its text in capitals, filled up with underscores;
* `Path.takes_read`: reading takes exactly the encoding of a path;
* `takes_readName`: what is read is the normal form of the text that the path was made from.
-/

namespace Acpi.Name

open ByteReader (Takes charOf map_charOf)
open PlainText (of_plain)

/-! ## Segments -/

namespace Segment

/-- The text of a segment in capitals, filled up to four characters. -/
def normalText (text : List Char) : List Char :=
  text.map Char.toUpper ++ List.replicate (4 - text.length) '_'

/-- The bytes that a segment can start with. -/
def isLeadByte (byte : UInt8) : Bool := (0x41 ≤ byte && byte ≤ 0x5A) || byte == 0x5F

/-- The bytes that a segment can hold behind the first. -/
def isTailByte (byte : UInt8) : Bool := isLeadByte byte || (0x30 ≤ byte && byte ≤ 0x39)

/-- Whether these bytes spell a segment, if there are four of them. -/
def isSpelled : List UInt8 → Bool
  | [] => false
  | lead :: tail => isLeadByte lead && tail.all isTailByte

/-- A segment whose bytes spell one. -/
def WellFormed (segment : Segment) : Prop := isSpelled segment.bytes.toList = true

/-- The bytes of a segment start with a lead byte. -/
theorem WellFormed.cons {segment : Segment} (h : segment.WellFormed) :
    ∃ lead tail, segment.bytes.toList = lead :: tail ∧ isLeadByte lead = true := by
  unfold WellFormed at h
  cases hBytes : segment.bytes.toList with
  | nil => rw [hBytes] at h; cases h
  | cons lead tail =>
      rw [hBytes, isSpelled, Bool.and_eq_true] at h
      exact ⟨lead, tail, rfl, h.1⟩

theorem ne_of_isLeadByte {lead : UInt8} (h : isLeadByte lead = true) (other : UInt8)
    (hOther : isLeadByte other = false) : lead ≠ other := by
  rintro rfl
  rw [h] at hOther
  cases hOther

/-- Takes a segment off the front. -/
def read : ByteReader Segment := fun bytes => do
  let (word, rest) ← Header.take? 4 bytes
  if isSpelled word.toList then some (⟨word⟩, rest) else none

theorem takes_read {segment : Segment} (h : segment.WellFormed) :
    Takes read segment.bytes.toList segment := by
  intro rest
  unfold read
  rw [Header.take?_append]
  show (if isSpelled segment.bytes.toList = true then some (segment, rest) else none) = _
  exact if_pos h

/-- The letters of the alphabet, by their codes. -/
def IsLetter (c : Char) : Prop :=
  (0x41 ≤ c.toNat ∧ c.toNat ≤ 0x5A) ∨ (0x61 ≤ c.toNat ∧ c.toNat ≤ 0x7A)

/-- The decimal digits, by their codes. -/
def IsDigit (c : Char) : Prop := 0x30 ≤ c.toNat ∧ c.toNat ≤ 0x39

theorem isAlpha_iff (c : Char) : c.isAlpha = true ↔ IsLetter c := by
  change (decide ('A'.val ≤ c.val ∧ c.val ≤ 'Z'.val) || ('a'.val ≤ c.val && c.val ≤ 'z'.val)) =
    true ↔ _
  simp only [Bool.or_eq_true, Bool.and_eq_true, decide_eq_true_eq, UInt32.le_iff_toNat_le]
  rfl

theorem isLead_iff (c : Char) : isLead c = true ↔ IsLetter c ∨ c = '_' := by
  rw [isLead, Bool.or_eq_true, isAlpha_iff, beq_iff_eq]

theorem isTail_iff (c : Char) : isTail c = true ↔ IsLetter c ∨ IsDigit c ∨ c = '_' := by
  change (c.isAlpha || c.isDigit || c == '_') = true ↔ _
  rw [Bool.or_eq_true, Bool.or_eq_true, isAlpha_iff, EisaId.isDigit_iff, beq_iff_eq, or_assoc]
  rfl

theorem plain_of_isTail {c : Char} (h : isTail c = true) : c.toNat < 128 := by
  rcases (isTail_iff c).1 h with hLetter | hDigit | rfl
  · unfold IsLetter at hLetter
    omega
  · unfold IsDigit at hDigit
    omega
  · decide

theorem isTail_of_isLead {c : Char} (h : isLead c = true) : isTail c = true := by
  rcases (isLead_iff c).1 h with hLetter | hUnderscore
  · exact (isTail_iff c).2 (Or.inl hLetter)
  · exact (isTail_iff c).2 (Or.inr (Or.inr hUnderscore))

theorem isLeadByte_toUpper {c : Char} (h : isLead c = true) :
    isLeadByte (UInt8.ofNat c.toUpper.toNat) = true :=
  of_plain (P := fun c => isLead c = true → isLeadByte (UInt8.ofNat c.toUpper.toNat) = true)
    (by decide) (plain_of_isTail (isTail_of_isLead h)) h

theorem isTailByte_toUpper {c : Char} (h : isTail c = true) :
    isTailByte (UInt8.ofNat c.toUpper.toNat) = true :=
  of_plain (P := fun c => isTail c = true → isTailByte (UInt8.ofNat c.toUpper.toNat) = true)
    (by decide) (plain_of_isTail h) h

theorem plain_toUpper {c : Char} (h : c.toNat < 128) : c.toUpper.toNat < 128 :=
  of_plain (P := fun c => c.toUpper.toNat < 128) (by decide) h

theorem isValid_of_ofChars? {text : List Char} {segment : Segment}
    (h : ofChars? text = some segment) : isValid text = true := by
  unfold ofChars? at h
  split at h
  · assumption
  · cases h

/-- A text that spells a segment is a lead character and at most three tail characters. -/
theorem of_isValid {text : List Char} (h : isValid text = true) :
    ∃ lead tail, text = lead :: tail ∧ isLead lead = true ∧ (∀ c ∈ tail, isTail c = true) ∧
      tail.length ≤ 3 := by
  cases text with
  | nil => cases h
  | cons lead tail =>
      simp only [isValid, Bool.and_eq_true, List.all_eq_true, decide_eq_true_eq] at h
      exact ⟨lead, tail, rfl, h.1.1, h.1.2, h.2⟩

/-- A segment is its text in capitals, filled up with underscores. -/
theorem bytes_of_ofChars? {text : List Char} {segment : Segment}
    (h : ofChars? text = some segment) :
    segment.bytes.toList = (normalText text).map fun c => UInt8.ofNat c.toNat := by
  have hValid := isValid_of_ofChars? h
  unfold ofChars? at h
  rw [if_pos hValid] at h
  injection h with h
  subst h
  -- Only four lengths are left, and for each of them both sides are computed.
  obtain ⟨lead, tail, rfl, -, -, hLength⟩ := of_isValid hValid
  match tail with
  | [] => rfl
  | [_] => rfl
  | [_, _] => rfl
  | [_, _, _] => rfl
  | _ :: _ :: _ :: _ :: _ =>
      simp only [List.length_cons] at hLength
      omega

theorem isLead_of_ofChars? {c : Char} {text : List Char} {segment : Segment}
    (h : ofChars? (c :: text) = some segment) : isLead c = true := by
  obtain ⟨lead, tail, hText, hLead, -, -⟩ := of_isValid (isValid_of_ofChars? h)
  injection hText with hC
  rw [hC]
  exact hLead

theorem wellFormed_of_ofChars? {text : List Char} {segment : Segment}
    (h : ofChars? text = some segment) : segment.WellFormed := by
  obtain ⟨lead, tail, rfl, hLead, hTail, -⟩ := of_isValid (isValid_of_ofChars? h)
  unfold WellFormed
  rw [bytes_of_ofChars? h, normalText, List.map_cons, List.cons_append, List.map_cons, isSpelled,
    isLeadByte_toUpper hLead, Bool.true_and, List.all_eq_true]
  intro byte hByte
  obtain ⟨c, hMem, rfl⟩ := List.mem_map.1 hByte
  rcases List.mem_append.1 hMem with hMem | hMem
  · obtain ⟨origin, hOrigin, rfl⟩ := List.mem_map.1 hMem
    exact isTailByte_toUpper (hTail origin hOrigin)
  · rw [List.eq_of_mem_replicate hMem]
    decide

/-- The segment as characters. -/
def chars (segment : Segment) : List Char := segment.bytes.toList.map charOf

theorem chars_of_ofChars? {text : List Char} {segment : Segment}
    (h : ofChars? text = some segment) : segment.chars = normalText text := by
  obtain ⟨lead, tail, rfl, hLead, hTail, -⟩ := of_isValid (isValid_of_ofChars? h)
  rw [chars, bytes_of_ofChars? h]
  refine map_charOf fun c hMem => ?_
  rcases List.mem_append.1 hMem with hMem | hMem
  · obtain ⟨origin, hOrigin, rfl⟩ := List.mem_map.1 hMem
    refine plain_toUpper (plain_of_isTail ?_)
    rcases List.mem_cons.1 hOrigin with rfl | hOrigin
    · exact isTail_of_isLead hLead
    · exact hTail origin hOrigin
  · rw [List.eq_of_mem_replicate hMem]
    decide

end Segment

/-! ## Starts -/

/-- Takes the start of a path off the front. -/
def Anchor.read (bytes : List UInt8) : Anchor × List UInt8 :=
  if bytes.head? = some 0x5C then
    (.root, bytes.tail)
  else
    (.parents (bytes.takeWhile (· == 0x5E)).length, bytes.dropWhile (· == 0x5E))

/-- The start ends where a byte follows that is no mark of a start. -/
theorem Anchor.read_append (anchor : Anchor) {lead : UInt8} (rest : List UInt8)
    (hRoot : lead ≠ Opcode.rootChar) (hParent : lead ≠ Opcode.parentChar) :
    read (anchor.bytes ++ lead :: rest) = (anchor, lead :: rest) := by
  cases anchor with
  | root => rfl
  | parents count =>
      have hStop : (lead == Opcode.parentChar) = false := beq_eq_false_iff_ne.2 hParent
      have hHead : (List.replicate count Opcode.parentChar ++ lead :: rest).head? ≠
          some Opcode.rootChar := by
        cases count with
        | zero => simpa using hRoot
        | succ count =>
            rw [List.replicate_succ, List.cons_append, List.head?_cons]
            decide
      have hRun : ∀ byte ∈ List.replicate count Opcode.parentChar,
          (byte == Opcode.parentChar) = true := by
        intro byte hMem
        rw [List.eq_of_mem_replicate hMem]
        rfl
      rw [bytes, read, if_neg hHead, List.takeWhile_append_of_pos hRun,
        List.dropWhile_append_of_pos hRun, List.takeWhile_cons, hStop, List.dropWhile_cons, hStop]
      simp

namespace Path

/-! ## Paths -/

/-- A path whose segments are well formed and whose count byte can tell their number. -/
structure WellFormed (path : Path) : Prop where
  segments : ∀ segment ∈ path.segments, segment.WellFormed
  length_le : path.segments.length ≤ maxSegments

/-- Takes so many segments off the front. -/
def readSegments : Nat → ByteReader (List Segment)
  | 0, bytes => some ([], bytes)
  | count + 1, bytes => do
      let (segment, rest) ← Segment.read bytes
      let (segments, rest) ← readSegments count rest
      return (segment :: segments, rest)

/-- Takes the mark and the segments that it announces off the front. -/
def readMarked : ByteReader (List Segment)
  | [] => none
  | lead :: rest =>
      if lead = 0x00 then
        some ([], rest)
      else if lead = 0x2E then
        readSegments 2 rest
      else if lead = 0x2F then
        match rest with
        | [] => none
        | count :: rest => readSegments count.toNat rest
      else
        readSegments 1 (lead :: rest)

/-- Takes a path off the front. -/
def read : ByteReader Path := fun bytes =>
  let (anchor, rest) := Anchor.read bytes
  (readMarked rest).map fun (segments, rest) => (⟨anchor, segments⟩, rest)

theorem takes_readSegments {segments : List Segment}
    (h : ∀ segment ∈ segments, segment.WellFormed) :
    Takes (readSegments segments.length) (segments.flatMap fun segment => segment.bytes.toList)
      segments := by
  intro rest
  induction segments with
  | nil => rfl
  | cons segment segments ih =>
      have hSegment := Segment.takes_read (h segment List.mem_cons_self)
      have hSegments := ih fun other hMem => h other (List.mem_cons_of_mem segment hMem)
      rw [List.length_cons, List.flatMap_cons, List.append_assoc, readSegments, hSegment]
      simp only [Option.bind_eq_bind, Option.bind_some, hSegments]
      rfl

theorem takes_readMarked {segments : List Segment}
    (h : ∀ segment ∈ segments, segment.WellFormed) (hLength : segments.length ≤ maxSegments) :
    Takes readMarked
      (mark segments.length ++ segments.flatMap fun segment => segment.bytes.toList) segments := by
  intro rest
  have hSegments := takes_readSegments h rest
  match segments with
  | [] => rfl
  | [segment] =>
      -- No mark stands here, so the first byte of the segment must not look like one.
      obtain ⟨lead, tail, hBytes, hLead⟩ := (h segment List.mem_cons_self).cons
      have hNone := Segment.ne_of_isLeadByte hLead 0x00 (by decide)
      have hDual := Segment.ne_of_isLeadByte hLead Opcode.dualName (by decide)
      have hMulti := Segment.ne_of_isLeadByte hLead Opcode.multiName (by decide)
      simp only [List.flatMap_cons, List.flatMap_nil, List.append_nil, hBytes,
        List.cons_append] at hSegments
      simp only [List.length_singleton, mark, List.nil_append, List.flatMap_cons, List.flatMap_nil,
        List.append_nil, hBytes, List.cons_append, readMarked, if_neg hNone, if_neg hDual,
        if_neg hMulti]
      exact hSegments
  | [_, _] => exact hSegments
  | first :: second :: third :: more =>
      have hCount : (UInt8.ofNat (first :: second :: third :: more).length).toNat =
          (first :: second :: third :: more).length := by
        rw [UInt8.toNat_ofNat']
        unfold maxSegments at hLength
        omega
      show readSegments (UInt8.ofNat (first :: second :: third :: more).length).toNat _ = _
      rw [hCount]
      exact hSegments

/-- What follows the start of a path cannot be taken for a part of it. -/
private theorem marked_cons {segments : List Segment}
    (h : ∀ segment ∈ segments, segment.WellFormed) :
    ∃ lead tail,
      (mark segments.length ++ segments.flatMap fun segment => segment.bytes.toList) =
        lead :: tail ∧ lead ≠ Opcode.rootChar ∧ lead ≠ Opcode.parentChar := by
  match segments with
  | [] => exact ⟨0x00, [], rfl, by decide, by decide⟩
  | [segment] =>
      obtain ⟨lead, tail, hBytes, hLead⟩ := (h segment List.mem_cons_self).cons
      refine ⟨lead, tail, ?_, Segment.ne_of_isLeadByte hLead _ (by decide),
        Segment.ne_of_isLeadByte hLead _ (by decide)⟩
      simp [mark, hBytes]
  | [_, _] => exact ⟨Opcode.dualName, _, rfl, by decide, by decide⟩
  | _ :: _ :: _ :: _ => exact ⟨Opcode.multiName, _, rfl, by decide, by decide⟩

/-- Reading takes exactly the encoding of a path. -/
theorem takes_read {path : Path} (h : path.WellFormed) : Takes read path.bytes path := by
  intro rest
  have hMarked := takes_readMarked h.segments h.length_le rest
  obtain ⟨lead, tail, hCons, hRoot, hParent⟩ := marked_cons h.segments
  rw [hCons, List.cons_append] at hMarked
  rw [bytes, List.append_assoc path.anchor.bytes, hCons, List.append_assoc, List.cons_append, read,
    Anchor.read_append path.anchor (tail ++ rest) hRoot hParent]
  simp only [hMarked, Option.map_some]

/-! ## Normal forms -/

theorem splitDots_eq_splitOn (text : List Char) : splitDots text = text.splitOn '.' := by
  unfold List.splitOn
  induction text with
  | nil => rfl
  | cons c rest ih =>
      rw [splitDots, List.splitOnP_cons_eq_if_modifyHead, ih]
      by_cases hDot : c = '.'
      · rw [if_pos hDot, if_pos (beq_iff_eq.2 hDot)]
      · rw [if_neg hDot, if_neg (mt beq_iff_eq.1 hDot)]
        cases hPieces : rest.splitOnP (· == '.') with
        | nil => exact absurd hPieces (List.splitOnP_ne_nil _ _)
        | cons piece pieces => rfl

/-- The characters that can stand at the start of a path. -/
def isStart (c : Char) : Bool := c == '\\' || c == '^'

/-- The normal form of a path's text: the start as it is, and every segment in capitals and filled
up. -/
def normalText (text : List Char) : List Char :=
  text.takeWhile isStart ++
    match text.dropWhile isStart with
    | [] => []
    | rest => ['.'].intercalate ((rest.splitOn '.').map Segment.normalText)

/-- The path as characters. -/
def chars (path : Path) : List Char :=
  path.anchor.chars ++ ['.'].intercalate (path.segments.map Segment.chars)

theorem split_spec (text : List Char) :
    (Anchor.split text).1.chars ++ (Anchor.split text).2 = text := by
  unfold Anchor.split
  split
  · rfl
  · have hRun : text.takeWhile (· == '^') =
        List.replicate (text.takeWhile (· == '^')).length '^' :=
      List.eq_replicate_of_mem fun c hMem => by
        simpa using List.all_eq_true.1 List.all_takeWhile c hMem
    show List.replicate (text.takeWhile (· == '^')).length '^' ++ _ = text
    rw [← hRun, List.takeWhile_append_dropWhile]

/-- What an accepted text consists of. -/
theorem ofChars?_cases {text : List Char} {path : Path} (h : ofChars? text = some path) :
    ∃ rest, text = path.anchor.chars ++ rest ∧ path.segments.length ≤ maxSegments ∧
      (rest = [] ∧ path.segments = [] ∨
        rest ≠ [] ∧ (splitDots rest).mapM Segment.ofChars? = some path.segments) := by
  have hText := split_spec text
  refine ⟨(Anchor.split text).2, ?_⟩
  unfold ofChars? at h
  by_cases hEmpty : text.isEmpty = true
  · rw [if_pos hEmpty] at h
    cases h
  · rw [if_neg hEmpty] at h
    dsimp only at h
    by_cases hSecond : ((Anchor.split text).2.head?.any fun c => c == '\\' || c == '^') = true
    · rw [if_pos hSecond] at h
      cases h
    · rw [if_neg hSecond] at h
      by_cases hRest : (Anchor.split text).2.isEmpty = true
      · rw [if_pos hRest] at h
        injection h with h
        subst h
        exact ⟨hText.symm, Nat.zero_le _, Or.inl ⟨List.isEmpty_iff.1 hRest, rfl⟩⟩
      · rw [if_neg hRest] at h
        cases hSegments : (splitDots (Anchor.split text).2).mapM Segment.ofChars? with
        | none =>
            rw [hSegments] at h
            cases h
        | some segments =>
            simp only [hSegments] at h
            split at h
            next hLength =>
              injection h with h
              subst h
              exact ⟨hText.symm, hLength, Or.inr ⟨mt List.isEmpty_iff.2 hRest, rfl⟩⟩
            next => cases h

theorem forall₂_of_mapM {pieces : List (List Char)} {segments : List Segment}
    (h : pieces.mapM Segment.ofChars? = some segments) :
    List.Forall₂ (fun piece segment => Segment.ofChars? piece = some segment) pieces segments := by
  induction pieces generalizing segments with
  | nil =>
      cases h
      exact .nil
  | cons piece pieces ih =>
      rw [List.mapM_cons] at h
      obtain ⟨segment, hSegment, h⟩ := Option.bind_eq_some_iff.1 h
      obtain ⟨rest, hRest, h⟩ := Option.bind_eq_some_iff.1 h
      cases h
      exact .cons hSegment (ih hRest)

/-- Behind the start an accepted text has a character that can lead a segment. -/
theorem isLead_of_mapM {c : Char} {rest : List Char} {segments : List Segment}
    (h : (splitDots (c :: rest)).mapM Segment.ofChars? = some segments) :
    Segment.isLead c = true := by
  have hEach := forall₂_of_mapM h
  rw [splitDots] at hEach
  split at hEach
  next =>
    obtain _ | ⟨hFirst, -⟩ := hEach
    cases hFirst
  next =>
    split at hEach
    next =>
      obtain _ | ⟨hFirst, -⟩ := hEach
      exact Segment.isLead_of_ofChars? hFirst
    next =>
      obtain _ | ⟨hFirst, -⟩ := hEach
      exact Segment.isLead_of_ofChars? hFirst

private theorem wellFormed_of_mapM {pieces : List (List Char)} {segments : List Segment}
    (h : pieces.mapM Segment.ofChars? = some segments) :
    ∀ segment ∈ segments, segment.WellFormed := by
  have hEach := forall₂_of_mapM h
  clear h
  intro segment hMem
  induction hEach with
  | nil => cases hMem
  | cons hPiece _ ih =>
      rcases List.mem_cons.1 hMem with rfl | hMem
      · exact Segment.wellFormed_of_ofChars? hPiece
      · exact ih hMem

private theorem chars_of_mapM {pieces : List (List Char)} {segments : List Segment}
    (h : pieces.mapM Segment.ofChars? = some segments) :
    segments.map Segment.chars = pieces.map Segment.normalText := by
  have hEach := forall₂_of_mapM h
  clear h
  induction hEach with
  | nil => rfl
  | cons hPiece _ ih => rw [List.map_cons, List.map_cons, ih, Segment.chars_of_ofChars? hPiece]

theorem wellFormed_of_ofChars? {text : List Char} {path : Path} (h : ofChars? text = some path) :
    path.WellFormed := by
  obtain ⟨rest, -, hLength, ⟨-, hNone⟩ | ⟨-, hMapM⟩⟩ := ofChars?_cases h
  · refine ⟨?_, hLength⟩
    rw [hNone]
    exact fun _ hMem => nomatch hMem
  · exact ⟨wellFormed_of_mapM hMapM, hLength⟩

private theorem isStart_of_mem {anchor : Anchor} {c : Char} (h : c ∈ anchor.chars) :
    isStart c = true := by
  cases anchor with
  | root =>
      rw [List.mem_singleton.1 h]
      rfl
  | parents count =>
      rw [List.eq_of_mem_replicate h]
      rfl

theorem not_isStart_of_isLead {c : Char} (h : Segment.isLead c = true) :
    isStart c = false := by
  by_contra hStart
  rw [Bool.not_eq_false, isStart, Bool.or_eq_true, beq_iff_eq, beq_iff_eq] at hStart
  rcases hStart with rfl | rfl <;> cases h

/-- The characters of an accepted path are the normal form of its text. -/
theorem chars_of_ofChars? {text : List Char} {path : Path} (h : ofChars? text = some path) :
    path.chars = normalText text := by
  have hStart := fun c => @isStart_of_mem path.anchor c
  obtain ⟨rest, rfl, -, ⟨rfl, hNone⟩ | ⟨hRest, hMapM⟩⟩ := ofChars?_cases h
  · rw [chars, normalText, hNone, List.takeWhile_append_of_pos hStart,
      List.dropWhile_append_of_pos hStart]
    simp
  · obtain ⟨c, rest, rfl⟩ := List.exists_cons_of_ne_nil hRest
    have hStop := not_isStart_of_isLead (isLead_of_mapM hMapM)
    rw [chars, normalText, chars_of_mapM hMapM, splitDots_eq_splitOn,
      List.takeWhile_append_of_pos hStart, List.dropWhile_append_of_pos hStart,
      List.takeWhile_cons, List.dropWhile_cons, hStop]
    simp

theorem ofChars?_of_parse {text : String} {path : Path} (h : parse text = .ok path) :
    ofChars? text.toList = some path := by
  unfold parse at h
  split at h
  next => cases h; assumption
  next => cases h

end Path

/-! ## Names as texts -/

/-- Takes a name off the front. -/
def readName : ByteReader String := fun bytes =>
  (Path.read bytes).map fun (path, rest) => (String.ofList path.chars, rest)

/-- The normal form of a name. -/
def normalName (text : String) : String := String.ofList (Path.normalText text.toList)

/-- A name that was accepted is read in its normal form. -/
theorem takes_readName {text : String} {path : Path} (h : Path.parse text = .ok path) :
    Takes readName path.bytes (normalName text) := by
  have hPath := Path.ofChars?_of_parse h
  intro rest
  rw [readName, Path.takes_read (Path.wellFormed_of_ofChars? hPath), Option.map_some, normalName,
    ← Path.chars_of_ofChars? hPath]

end Acpi.Name
