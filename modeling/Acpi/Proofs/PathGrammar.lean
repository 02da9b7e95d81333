import Acpi.Proofs.NameString

/-!
# The grammar of path texts

Which texts are paths, said without taking any of them apart.  A `Spelling` is a start and a list of
segment texts; `Spelling.text` writes it down and `Spelling.bytes` says what it encodes to.  A text
is a path if it is the text of a valid spelling.

Reading goes the other way: it strips the start, splits the rest at the dots and judges the pieces.
The two meet because the pieces of a text and the segments of its spelling are the same list:

* `Path.exists_spelling`: what is accepted has a valid spelling, made of its pieces;
* `Spelling.exists_path`: a valid spelling is accepted, because its segments hold no dot and the
  first of them starts with a character that no start can hold;
* `Path.bytes_of_pieces`: either way the encoding is the one of the spelling.
-/

namespace Acpi.Name

/-! ## Segments -/

namespace Segment

/-- One to four letters, digits and underscores, the first of them not a digit. -/
structure Spelled (text : List Char) : Prop where
  length_pos : 1 ≤ text.length
  length_le : text.length ≤ 4
  chars : ∀ c ∈ text, IsLetter c ∨ IsDigit c ∨ c = '_'
  lead : ∀ c, text.head? = some c → ¬ IsDigit c

theorem isLead_iff_not_isDigit (c : Char) :
    isLead c = true ↔ (IsLetter c ∨ IsDigit c ∨ c = '_') ∧ ¬ IsDigit c := by
  have hUnderscore : '_'.toNat = 0x5F := rfl
  rw [isLead_iff]
  constructor
  · rintro (hLetter | rfl)
    · refine ⟨Or.inl hLetter, fun hDigit => ?_⟩
      unfold IsLetter at hLetter
      unfold IsDigit at hDigit
      omega
    · refine ⟨Or.inr (Or.inr rfl), fun hDigit => ?_⟩
      unfold IsDigit at hDigit
      omega
  · rintro ⟨hLetter | hDigit | hSame, hNot⟩
    · exact Or.inl hLetter
    · exact absurd hDigit hNot
    · exact Or.inr hSame

/-- A text is taken for a segment exactly if the grammar says so. -/
theorem isValid_iff (text : List Char) : isValid text = true ↔ Spelled text := by
  constructor
  · intro h
    obtain ⟨lead, tail, rfl, hLead, hTail, hLength⟩ := of_isValid h
    obtain ⟨hChar, hDigit⟩ := (isLead_iff_not_isDigit lead).1 hLead
    refine ⟨by simp, by simp; omega, ?_, ?_⟩
    · intro c hMem
      rcases List.mem_cons.1 hMem with rfl | hMem
      · exact hChar
      · exact (isTail_iff c).1 (hTail c hMem)
    · intro c hHead
      injection hHead with hSame
      exact hSame ▸ hDigit
  · intro h
    cases text with
    | nil => exact absurd h.length_pos (by decide)
    | cons lead tail =>
        have hLead : isLead lead = true := (isLead_iff_not_isDigit lead).2
          ⟨h.chars lead List.mem_cons_self, h.lead lead rfl⟩
        have hTail : ∀ c ∈ tail, isTail c = true := fun c hMem =>
          (isTail_iff c).2 (h.chars c (List.mem_cons_of_mem lead hMem))
        have hLength := h.length_le
        rw [List.length_cons] at hLength
        simp only [isValid, Bool.and_eq_true, List.all_eq_true, decide_eq_true_eq]
        exact ⟨⟨hLead, hTail⟩, by omega⟩

theorem exists_ofChars?_iff (text : List Char) :
    (∃ segment, ofChars? text = some segment) ↔ Spelled text := by
  rw [← isValid_iff, ofChars?]
  split
  next h => exact ⟨fun _ => h, fun _ => ⟨_, rfl⟩⟩
  next h =>
    refine ⟨fun hSome => ?_, fun hValid => absurd hValid h⟩
    cases hSome.choose_spec

/-- A segment holds no dot. -/
theorem Spelled.dot_not_mem {text : List Char} (h : Spelled text) : '.' ∉ text := by
  intro hMem
  have hDot : '.'.toNat = 0x2E := rfl
  rcases h.chars '.' hMem with hLetter | hDigit | hSame
  · unfold IsLetter at hLetter
    omega
  · unfold IsDigit at hDigit
    omega
  · cases hSame

end Segment

/-! ## Paths -/

/-- A way to spell a path: its start and the texts of its segments. -/
structure Spelling where
  anchor : Anchor
  segments : List (List Char)

namespace Spelling

/-- The start, and behind it the segments with dots between them. -/
def text (spelling : Spelling) : List Char :=
  spelling.anchor.chars ++ ['.'].intercalate spelling.segments

/-- What the grammar asks of a spelling.  Only the start without a mark may not stand alone. -/
structure Valid (spelling : Spelling) : Prop where
  text_ne_nil : spelling.text ≠ []
  segments : ∀ segment ∈ spelling.segments, Segment.Spelled segment
  length_le : spelling.segments.length ≤ 255

/-- A text of plain characters as bytes. -/
def plainBytes (text : List Char) : List UInt8 := text.map fun c => UInt8.ofNat c.toNat

/-- The four bytes of a segment: in capitals, and filled up with underscores. -/
def segmentBytes (segment : List Char) : List UInt8 := plainBytes (Segment.normalText segment)

/-- What a spelling encodes to: its start, and its segments behind a mark for their number. -/
def bytes (spelling : Spelling) : List UInt8 :=
  plainBytes spelling.anchor.chars ++
    match spelling.segments with
    | [] => [0x00]
    | [segment] => segmentBytes segment
    | [first, second] => 0x2E :: (segmentBytes first ++ segmentBytes second)
    | segments => 0x2F :: UInt8.ofNat segments.length :: segments.flatMap segmentBytes

end Spelling

namespace Anchor

theorem plainBytes_chars (anchor : Anchor) : Spelling.plainBytes anchor.chars = anchor.bytes := by
  cases anchor with
  | root => rfl
  | parents count => exact List.map_replicate

theorem split_of_head_ne {text : List Char} (h : text.head? ≠ some '\\') :
    split text =
      (.parents (text.takeWhile (· == '^')).length, text.dropWhile (· == '^')) := by
  unfold split
  split
  next => exact absurd rfl h
  next => rfl

/-- The start ends where no character follows that could belong to it. -/
theorem split_append (anchor : Anchor) {rest : List Char}
    (hStop : ∀ c, rest.head? = some c → Path.isStart c = false) :
    split (anchor.chars ++ rest) = (anchor, rest) := by
  cases anchor with
  | root => rfl
  | parents count =>
      have hRoot : rest.head? ≠ some '\\' := by
        intro hHead
        cases hStop '\\' hHead
      have hParent : rest.takeWhile (· == '^') = [] ∧ rest.dropWhile (· == '^') = rest := by
        cases rest with
        | nil => exact ⟨rfl, rfl⟩
        | cons c rest =>
            have hOther := hStop c rfl
            rw [Path.isStart, Bool.or_eq_false_iff] at hOther
            rw [List.takeWhile_cons, List.dropWhile_cons, hOther.2]
            exact ⟨rfl, rfl⟩
      have hRun : ∀ c ∈ List.replicate count '^', (c == '^') = true := by
        intro c hMem
        rw [List.eq_of_mem_replicate hMem]
        rfl
      have hHead : (List.replicate count '^' ++ rest).head? ≠ some '\\' := by
        cases count with
        | zero => exact hRoot
        | succ count =>
            intro hSame
            cases hSame
      rw [chars, split_of_head_ne hHead, List.takeWhile_append_of_pos hRun,
        List.dropWhile_append_of_pos hRun, hParent.1, hParent.2, List.append_nil,
        List.length_replicate]

end Anchor

namespace Path

open Segment (Spelled)

/-- The pieces of a text, each with its segment. -/
abbrev Pieces : List (List Char) → List Segment → Prop :=
  List.Forall₂ fun piece segment => Segment.ofChars? piece = some segment

theorem mapM_of_pieces {pieces : List (List Char)} {segments : List Segment}
    (h : Pieces pieces segments) : pieces.mapM Segment.ofChars? = some segments := by
  induction h with
  | nil => rfl
  | cons hPiece _ ih =>
      rw [List.mapM_cons, hPiece, ih]
      rfl

/-- Pieces have segments exactly if each of them is one by the grammar. -/
theorem exists_pieces_iff (pieces : List (List Char)) :
    (∃ segments, Pieces pieces segments) ↔ ∀ piece ∈ pieces, Spelled piece := by
  simp only [exists_forall₂_iff, Segment.exists_ofChars?_iff]

theorem flatMap_of_pieces {pieces : List (List Char)} {segments : List Segment}
    (h : Pieces pieces segments) :
    (segments.flatMap fun segment => segment.bytes.toList) =
      pieces.flatMap Spelling.segmentBytes := by
  induction h with
  | nil => rfl
  | cons hPiece _ ih =>
      rw [List.flatMap_cons, List.flatMap_cons, ih, Segment.bytes_of_ofChars? hPiece]
      rfl

/-- A path encodes to what its spelling says. -/
theorem bytes_of_pieces {path : Path} {pieces : List (List Char)}
    (h : Pieces pieces path.segments) : path.bytes = Spelling.bytes ⟨path.anchor, pieces⟩ := by
  have hLength := h.length_eq
  have hBytes := flatMap_of_pieces h
  rw [bytes, List.append_assoc, ← Anchor.plainBytes_chars, ← hLength, hBytes]
  unfold Spelling.bytes
  rcases pieces with _ | ⟨first, _ | ⟨second, _ | ⟨third, more⟩⟩⟩
  · rfl
  · simp [mark]
  · simp [mark]
  · rfl

/-- What is accepted has a valid spelling, made of the pieces between the dots. -/
theorem exists_spelling {text : List Char} {path : Path} (h : ofChars? text = some path) :
    ∃ spelling : Spelling, spelling.Valid ∧ spelling.text = text ∧ path.bytes = spelling.bytes := by
  have hNonempty : text ≠ [] := by
    rintro rfl
    cases h
  obtain ⟨rest, hText, hLength, hRest⟩ := ofChars?_cases h
  obtain ⟨pieces, hPieces, hJoined⟩ : ∃ pieces, Pieces pieces path.segments ∧
      ['.'].intercalate pieces = rest := by
    rcases hRest with ⟨rfl, hNone⟩ | ⟨-, hMapM⟩
    · rw [hNone]
      exact ⟨[], .nil, rfl⟩
    · refine ⟨splitDots rest, forall₂_of_mapM hMapM, ?_⟩
      rw [splitDots_eq_splitOn, List.intercalate_splitOn]
  refine ⟨⟨path.anchor, pieces⟩, ⟨?_, ?_, ?_⟩, ?_, bytes_of_pieces hPieces⟩
  · rw [Spelling.text, hJoined, ← hText]
    exact hNonempty
  · exact (exists_pieces_iff pieces).1 ⟨_, hPieces⟩
  · rw [hPieces.length_eq]
    exact hLength
  · rw [Spelling.text, hJoined, ← hText]

/-- A text is read as its start and the segments between its dots. -/
theorem ofChars?_append {anchor : Anchor} {rest : List Char} {segments : List Segment}
    (hRest : rest ≠ []) (hStop : ∀ c, rest.head? = some c → isStart c = false)
    (hPieces : Pieces (splitDots rest) segments) (hLength : segments.length ≤ maxSegments) :
    ofChars? (anchor.chars ++ rest) = some ⟨anchor, segments⟩ := by
  have hText : (anchor.chars ++ rest).isEmpty = false := by
    rw [List.isEmpty_eq_false_iff]
    exact List.append_ne_nil_of_right_ne_nil _ hRest
  have hEmpty : rest.isEmpty = false := List.isEmpty_eq_false_iff.2 hRest
  have hSecond : (rest.head?.any fun c => c == '\\' || c == '^') = false := by
    cases hHead : rest.head? with
    | none => rfl
    | some c => exact hStop c hHead
  unfold ofChars?
  rw [hText, Anchor.split_append anchor hStop]
  simp only [hSecond, hEmpty, mapM_of_pieces hPieces, if_pos hLength, Bool.false_eq_true, if_false]

/-- A start alone is read as itself. -/
theorem ofChars?_anchor {anchor : Anchor} (h : anchor.chars ≠ []) :
    ofChars? anchor.chars = some ⟨anchor, []⟩ := by
  have hStop : ∀ c, ([] : List Char).head? = some c → isStart c = false := by
    intro c hHead
    cases hHead
  have hSplit : Anchor.split anchor.chars = (anchor, []) := by
    have hAppend := anchor.split_append hStop
    rwa [List.append_nil] at hAppend
  unfold ofChars?
  rw [List.isEmpty_eq_false_iff.2 h, hSplit]
  rfl

end Path

/-- A valid spelling is accepted and encodes as it says. -/
theorem Spelling.exists_path {spelling : Spelling} (h : spelling.Valid) :
    ∃ path, Path.ofChars? spelling.text = some path ∧ path.bytes = spelling.bytes := by
  obtain ⟨anchor, pieces⟩ := spelling
  cases pieces with
  | nil =>
      have hText : text ⟨anchor, []⟩ = anchor.chars := List.append_nil _
      have hNonempty := h.text_ne_nil
      rw [hText] at hNonempty ⊢
      exact ⟨⟨anchor, []⟩, Path.ofChars?_anchor hNonempty, Path.bytes_of_pieces .nil⟩
  | cons first more =>
      obtain ⟨segments, hPieces⟩ := (Path.exists_pieces_iff _).2 h.segments
      have hLength : segments.length ≤ Path.maxSegments := by
        rw [← hPieces.length_eq]
        exact h.length_le
      -- No segment holds a dot, so splitting at the dots gives them back.
      have hSplit : Path.splitDots (['.'].intercalate (first :: more)) = first :: more := by
        rw [Path.splitDots_eq_splitOn]
        exact List.splitOn_intercalate '.' (fun piece hMem => (h.segments piece hMem).dot_not_mem)
          (List.cons_ne_nil first more)
      have hFirst := (Segment.isValid_iff first).2 (h.segments first List.mem_cons_self)
      obtain ⟨c, tail, rfl, hLead, -, -⟩ := Segment.of_isValid hFirst
      have hHead : (['.'].intercalate ((c :: tail) :: more)).head? = some c := by
        cases more <;> rfl
      refine ⟨⟨anchor, segments⟩, Path.ofChars?_append ?_ ?_ (hSplit.symm ▸ hPieces) hLength,
        Path.bytes_of_pieces hPieces⟩
      · intro hNone
        rw [hNone] at hHead
        cases hHead
      · intro other hOther
        rw [hHead] at hOther
        injection hOther with hSame
        exact hSame ▸ Path.not_isStart_of_isLead hLead

/-- **The grammar of paths.**  A text is accepted with some encoding exactly if it is the text of a
valid spelling and the encoding is that of the spelling; any other text is refused as no name. -/
theorem parse_accepts_grammar (text : String) :
    (∀ encoding, (Path.parse text).map Path.bytes = .ok encoding ↔
        ∃ spelling : Spelling, spelling.Valid ∧ spelling.text = text.toList ∧
          encoding = spelling.bytes) ∧
      ((¬ ∃ spelling : Spelling, spelling.Valid ∧ spelling.text = text.toList) →
        (Path.parse text).map Path.bytes = .error .invalidName) := by
  unfold Path.parse
  cases hPath : Path.ofChars? text.toList with
  | none =>
      have hNone : ¬ ∃ spelling : Spelling, spelling.Valid ∧ spelling.text = text.toList := by
        rintro ⟨spelling, hValid, hText⟩
        obtain ⟨path, hSome, -⟩ := spelling.exists_path hValid
        rw [hText, hPath] at hSome
        cases hSome
      refine ⟨fun encoding => ⟨fun h => ?_, fun h => ?_⟩, fun _ => rfl⟩
      · cases h
      · obtain ⟨spelling, hValid, hText, -⟩ := h
        exact absurd ⟨spelling, hValid, hText⟩ hNone
  | some path =>
      obtain ⟨spelling, hValid, hText, hBytes⟩ := Path.exists_spelling hPath
      refine ⟨fun encoding => ⟨fun h => ?_, fun h => ?_⟩, fun h => ?_⟩
      · injection h with hSame
        exact ⟨spelling, hValid, hText, hSame ▸ hBytes⟩
      · -- Another spelling of the same text is accepted as the same path.
        obtain ⟨other, hOther, hSameText, rfl⟩ := h
        obtain ⟨path', hPath', hBytes'⟩ := other.exists_path hOther
        rw [hSameText, hPath] at hPath'
        injection hPath' with hSame
        rw [← hBytes', ← hSame]
        rfl
      · exact absurd ⟨spelling, hValid, hText⟩ h

example : (Path.parse "^a.b_.c0").map Path.bytes = .ok
    [0x5E, 0x2F, 3, 0x41, 0x5F, 0x5F, 0x5F, 0x42, 0x5F, 0x5F, 0x5F, 0x43, 0x30, 0x5F, 0x5F] := rfl

end Acpi.Name
