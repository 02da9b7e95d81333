import Acpi.Proofs.PathGrammar

/-!
# Normal forms of name paths

Many texts spell one path, since small letters count as capitals and short segments are filled up.
Reading an encoding gives back one text of each path, its normal form.  That text is itself
accepted, as the path that it came from, and with this the encodings tell paths apart exactly as
the normal forms do.

* `Segment.ofChars?_chars`, `Path.ofChars?_chars`: the characters of a well-formed path spell it;
* `Path.eq_of_bytes_eq`: a well-formed path is determined by its encoding;
* `encoding_tells_normal_form`: what is read from an encoding, and when two encodings are the same.
-/

namespace Acpi.Name

open ByteReader (charOf)

/-! ## Segments -/

namespace Segment

/-- What is claimed of all bytes can be tried out. -/
private theorem of_byte {P : UInt8 → Prop} (h : ∀ n : Fin 256, P (UInt8.ofNat n)) (byte : UInt8) :
    P byte := by
  have hByte := h ⟨byte.toNat, byte.toNat_lt⟩
  rwa [UInt8.ofNat_toNat] at hByte

theorem isLead_charOf {byte : UInt8} (h : isLeadByte byte = true) : isLead (charOf byte) = true :=
  of_byte (P := fun byte => isLeadByte byte = true → isLead (charOf byte) = true)
    (by decide +kernel) byte h

theorem isTail_charOf {byte : UInt8} (h : isTailByte byte = true) : isTail (charOf byte) = true :=
  of_byte (P := fun byte => isTailByte byte = true → isTail (charOf byte) = true)
    (by decide +kernel) byte h

/-- The bytes of a segment are those of capitals, so turning to capitals keeps them. -/
theorem ofNat_toUpper_charOf {byte : UInt8} (h : isTailByte byte = true) :
    UInt8.ofNat (charOf byte).toUpper.toNat = byte :=
  of_byte (P := fun byte => isTailByte byte = true →
    UInt8.ofNat (charOf byte).toUpper.toNat = byte) (by decide +kernel) byte h

theorem WellFormed.isTailByte {segment : Segment} (h : segment.WellFormed) :
    ∀ byte ∈ segment.bytes.toList, isTailByte byte = true := by
  unfold WellFormed at h
  cases hBytes : segment.bytes.toList with
  | nil => rw [hBytes] at h; cases h
  | cons lead tail =>
      rw [hBytes, isSpelled, Bool.and_eq_true, List.all_eq_true] at h
      intro byte hMem
      rcases List.mem_cons.1 hMem with rfl | hMem
      · rw [Segment.isTailByte, h.1, Bool.true_or]
      · exact h.2 byte hMem

/-- The characters of a segment are a text of it. -/
theorem WellFormed.isValid_chars {segment : Segment} (h : segment.WellFormed) :
    isValid segment.chars = true := by
  have hLength : segment.bytes.toList.length = 4 := Vector.length_toList
  obtain ⟨lead, tail, hBytes, hLead⟩ := h.cons
  have hTail := h.isTailByte
  rw [hBytes] at hLength hTail
  rw [List.length_cons] at hLength
  simp only [chars, hBytes, List.map_cons, isValid, List.length_map, isLead_charOf hLead,
    Bool.true_and, Bool.and_eq_true, List.all_eq_true, decide_eq_true_eq]
  refine ⟨?_, by omega⟩
  intro c hMem
  obtain ⟨byte, hByte, rfl⟩ := List.mem_map.1 hMem
  exact isTail_charOf (hTail byte (List.mem_cons_of_mem lead hByte))

theorem ofChars?_chars {segment : Segment} (h : segment.WellFormed) :
    ofChars? segment.chars = some segment := by
  have hBytes : (Vector.ofFn fun index : Fin 4 => byteAt segment.chars index) = segment.bytes := by
    ext index hIndex
    have hChar : segment.chars.getD index '_' = charOf segment.bytes[index] := by
      simp [chars, hIndex]
    have hByte := ofNat_toUpper_charOf
      (h.isTailByte _ (Vector.mem_toList_iff.2 (Vector.getElem_mem hIndex)))
    rw [Vector.getElem_ofFn, byteAt, hChar, hByte]
  rw [ofChars?, if_pos h.isValid_chars, hBytes]

end Segment

/-! ## Paths -/

namespace Path

/-- A well-formed path is determined by its encoding. -/
theorem eq_of_bytes_eq {path path' : Path} (h : path.WellFormed) (h' : path'.WellFormed)
    (hBytes : path.bytes = path'.bytes) : path = path' := by
  have hRead := (takes_read h).whole
  rw [hBytes, (takes_read h').whole] at hRead
  injection hRead with hPair
  injection hPair with hPath
  exact hPath.symm

theorem pieces_chars {segments : List Segment} (h : ∀ segment ∈ segments, segment.WellFormed) :
    Pieces (segments.map Segment.chars) segments := by
  induction segments with
  | nil => exact .nil
  | cons segment segments ih =>
      obtain ⟨hFirst, hRest⟩ := List.forall_mem_cons.1 h
      exact .cons (Segment.ofChars?_chars hFirst) (ih hRest)

/-- The characters of a path spell it, unless there are none. -/
theorem ofChars?_chars {path : Path} (h : path.WellFormed) (hText : path.chars ≠ []) :
    ofChars? path.chars = some path := by
  have hPieces := pieces_chars h.segments
  have hValid : Spelling.Valid ⟨path.anchor, path.segments.map Segment.chars⟩ := by
    refine ⟨hText, (exists_pieces_iff _).1 ⟨_, hPieces⟩, ?_⟩
    rw [List.length_map]
    exact h.length_le
  obtain ⟨other, hOther, hBytes⟩ := Spelling.exists_path hValid
  -- Which path the text was taken for is told by its encoding.
  have hSame : path = other := by
    apply eq_of_bytes_eq h (wellFormed_of_ofChars? hOther)
    rw [bytes_of_pieces hPieces, hBytes]
  rw [← hSame] at hOther
  exact hOther

/-- A text that is accepted has characters to read back: a start, or the first segment. -/
theorem chars_ne_nil_of_ofChars? {text : List Char} {path : Path} (h : ofChars? text = some path) :
    path.chars ≠ [] := by
  intro hNone
  obtain ⟨hAnchor, hSegments⟩ := List.append_eq_nil_iff.1 hNone
  obtain ⟨rest, hText, -, ⟨rfl, -⟩ | ⟨-, hMapM⟩⟩ := ofChars?_cases h
  · rw [hAnchor, List.append_nil] at hText
    rw [hText] at h
    cases h
  · have hPieces := (forall₂_of_mapM hMapM).length_eq
    rw [splitDots_eq_splitOn] at hPieces
    cases hFirst : path.segments with
    | nil =>
        rw [hFirst, List.length_nil, List.length_eq_zero_iff] at hPieces
        exact List.splitOnP_ne_nil _ _ hPieces
    | cons segment segments =>
        have hChars : segment.chars.length = 4 := by simp [Segment.chars]
        rw [hFirst] at hSegments
        cases segments <;> simp_all [List.intercalate]

end Path

/-- The normal form of an accepted name is accepted, as the same path. -/
theorem parse_normalName {text : String} {path : Path} (h : Path.parse text = .ok path) :
    Path.parse (normalName text) = .ok path := by
  have hPath := Path.ofChars?_of_parse h
  have hNormal : Path.ofChars? (normalName text).toList = some path := by
    rw [normalName, String.toList_ofList, ← Path.chars_of_ofChars? hPath]
    exact Path.ofChars?_chars (Path.wellFormed_of_ofChars? hPath)
      (Path.chars_ne_nil_of_ofChars? hPath)
  rw [Path.parse, hNormal]

/-- **Encodings of names stand for normal forms.**  Whatever follows it, the encoding of an accepted
name is read up to its end and as the normal form of the name; the normal form is accepted with the
same encoding; and two accepted names have the same encoding exactly if they have the same normal
form. -/
theorem encoding_tells_normal_form {text other : String} {path path' : Path}
    (h : Path.parse text = .ok path) (h' : Path.parse other = .ok path') :
    (∀ rest, readName (path.bytes ++ rest) = some (normalName text, rest)) ∧
      (Path.parse (normalName text)).map Path.bytes = .ok path.bytes ∧
      (path.bytes = path'.bytes ↔ normalName text = normalName other) := by
  have hNormal := parse_normalName h
  refine ⟨takes_readName h, ?_, ?_, ?_⟩
  · rw [hNormal]
    rfl
  · -- Equal bytes are read as one text.
    intro hBytes
    have hRead := (takes_readName h).whole
    rw [hBytes, (takes_readName h').whole] at hRead
    injection hRead with hPair
    injection hPair with hText
    exact hText.symm
  · -- Each path is the one that its normal form spells.
    intro hText
    rw [hText, parse_normalName h'] at hNormal
    injection hNormal with hPath
    rw [hPath]

/-- Two spellings with one normal form, and one with another. -/
theorem encoding_tells_normal_form_spellings :
    let path : Path := ⟨.parents 2, [⟨#v[0x5F, 0x53, 0x42, 0x5F]⟩, ⟨#v[0x41, 0x31, 0x5F, 0x5F]⟩]⟩
    let other : Path := ⟨.root, path.segments⟩
    Path.parse "^^_sb.a1" = .ok path ∧ Path.parse "^^_SB_.A1_" = .ok path ∧
      Path.parse "\\_SB.A1" = .ok other ∧
      (∀ rest, readName (path.bytes ++ rest) = some ("^^_SB_.A1__", rest)) ∧
      normalName "^^_sb.a1" = normalName "^^_SB_.A1_" ∧
      normalName "^^_sb.a1" ≠ normalName "\\_SB.A1" := by
  have hFirst : Path.parse "^^_sb.a1" = .ok _ := rfl
  have hSecond : Path.parse "^^_SB_.A1_" = .ok _ := rfl
  have hThird : Path.parse "\\_SB.A1" = .ok _ := rfl
  obtain ⟨hRead, -, hSame⟩ := encoding_tells_normal_form hFirst hSecond
  obtain ⟨-, -, hOther⟩ := encoding_tells_normal_form hFirst hThird
  exact ⟨hFirst, hSecond, hThird, hRead, hSame.1 rfl, fun h => absurd (hOther.2 h) (by decide)⟩

end Acpi.Name
