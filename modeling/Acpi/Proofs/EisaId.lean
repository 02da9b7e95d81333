import Acpi.EisaId

/-!
# The form of device identifiers

Which texts can be packed, and into what number, said without looking at the characters one by one:
three capital letters are the digits of a number to the base 32, four hexadecimal digits those of a
number to the base 16, and the table holds the bytes of the two together with the highest one first.

Main result: `parse_eq`.
-/

namespace Acpi.EisaId

/-- A hexadecimal digit of either case. -/
def isHexDigit (c : Char) : Bool :=
  c.isDigit || (0x41 ≤ c.toNat && c.toNat ≤ 0x46) || (0x61 ≤ c.toNat && c.toNat ≤ 0x66)

/-- Three capital letters and four hexadecimal digits. -/
structure HasForm (text : List Char) : Prop where
  length_eq : text.length = 7
  letters : ∀ c ∈ text.take 3, c.isUpper = true
  digits : ∀ c ∈ text.drop 3, isHexDigit c = true

theorem hasForm_iff (text : List Char) :
    text.length = 7 ∧ (text.take 3).all Char.isUpper = true ∧
      (text.drop 3).all isHexDigit = true ↔ HasForm text := by
  rw [List.all_eq_true, List.all_eq_true]
  exact ⟨fun h => ⟨h.1, h.2.1, h.2.2⟩, fun h => ⟨h.length_eq, h.letters, h.digits⟩⟩

-- Through `List.all`, so that only the characters of the text are looked at.
instance (text : List Char) : Decidable (HasForm text) := decidable_of_iff _ (hasForm_iff text)

/-- The value of a hexadecimal digit. -/
def digitValue (c : Char) : Nat :=
  if c.toNat ≤ 0x39 then c.toNat - 0x30
  else if c.toNat ≤ 0x46 then c.toNat - 0x37
  else c.toNat - 0x57

/-- The letters and the digits of an identifier as one number. -/
def number (text : List Char) : Nat :=
  (text.take 3).foldl (fun n c => n * 32 + (c.toNat - 0x40)) 0 * 0x10000 +
    (text.drop 3).foldl (fun n c => n * 16 + digitValue c) 0

/-- The double word that stands for an identifier: the bytes of its number, the highest first. -/
def packed (text : List Char) : UInt32 :=
  UInt32.ofNat (LittleEndian.decode (LittleEndian.encode 4 (number text)).reverse)

theorem letterCode?_eq (c : Char) :
    letterCode? c = if c.isUpper then some (c.toNat - 0x40) else none := rfl

theorem le_iff_toNat_le (c d : Char) : c ≤ d ↔ c.toNat ≤ d.toNat := by
  rw [Char.le_def, UInt32.le_iff_toNat_le]
  rfl

theorem isDigit_iff (c : Char) : c.isDigit = true ↔ 0x30 ≤ c.toNat ∧ c.toNat ≤ 0x39 := by
  simp [Char.isDigit, UInt32.le_iff_toNat_le, ← Char.toNat_val]

/-- The three ranges of hexadecimal digits follow each other, so the upper end of each is enough to
tell which of them a digit is in. -/
theorem hexValue?_eq (c : Char) :
    hexValue? c = if isHexDigit c then some (digitValue c) else none := by
  have hA : 'A'.toNat = 0x41 := rfl
  have hF : 'F'.toNat = 0x46 := rfl
  have ha : 'a'.toNat = 0x61 := rfl
  have hf : 'f'.toNat = 0x66 := rfl
  simp only [hexValue?, isHexDigit, digitValue, Bool.or_eq_true, Bool.and_eq_true,
    decide_eq_true_eq, isDigit_iff, le_iff_toNat_le, hA, hF, ha, hf]
  by_cases hDigit : 0x30 ≤ c.toNat ∧ c.toNat ≤ 0x39
  · rw [if_pos hDigit, if_pos (Or.inl (Or.inl hDigit)), if_pos hDigit.2]
    rfl
  · rw [if_neg hDigit]
    by_cases hUpper : 0x41 ≤ c.toNat ∧ c.toNat ≤ 0x46
    · rw [if_pos hUpper, if_pos (Or.inl (Or.inr hUpper)), if_neg (by omega), if_pos hUpper.2]
      congr 1
      omega
    · rw [if_neg hUpper]
      by_cases hLower : 0x61 ≤ c.toNat ∧ c.toNat ≤ 0x66
      · rw [if_pos hLower, if_pos (Or.inr hLower), if_neg (by omega), if_neg (by omega)]
        congr 1
        omega
      · rw [if_neg hLower, if_neg (by omega)]

private theorem ofChars?_eq_seven (a b c d e f g : Char) :
    ofChars? [a, b, c, d, e, f, g] =
      if HasForm [a, b, c, d, e, f, g] then some ⟨packed [a, b, c, d, e, f, g]⟩ else none := by
  simp only [ofChars?, letterCode?_eq, hexValue?_eq]
  by_cases hForm : HasForm [a, b, c, d, e, f, g]
  · have hLetters : a.isUpper = true ∧ b.isUpper = true ∧ c.isUpper = true := by
      simpa using hForm.letters
    have hDigits : isHexDigit d = true ∧ isHexDigit e = true ∧ isHexDigit f = true ∧
        isHexDigit g = true := by
      simpa using hForm.digits
    obtain ⟨ha, hb, hc⟩ := hLetters
    obtain ⟨hd, he, hf, hg⟩ := hDigits
    rw [if_pos hForm]
    simp [ha, hb, hc, hd, he, hf, hg, packed, number, reverseBytes]
  · rw [if_neg hForm]
    refine Option.eq_none_iff_forall_ne_some.2 fun id h => hForm ?_
    -- Every character has been looked at before there is a result.
    simp only [Option.bind_eq_bind, Option.bind_eq_some_iff, Option.ite_none_right_eq_some] at h
    obtain ⟨_, ⟨ha, -⟩, _, ⟨hb, -⟩, _, ⟨hc, -⟩, _, ⟨hd, -⟩, _, ⟨he, -⟩, _, ⟨hf, -⟩, _, ⟨hg, -⟩,
      -⟩ := h
    exact ⟨rfl, by simp [ha, hb, hc], by simp [hd, he, hf, hg]⟩

theorem ofChars?_eq (text : List Char) :
    ofChars? text = if HasForm text then some ⟨packed text⟩ else none := by
  by_cases hLength : text.length = 7
  · match text, hLength with
    | [a, b, c, d, e, f, g], _ => exact ofChars?_eq_seven a b c d e f g
  · have hForm : ¬ HasForm text := fun h => hLength h.length_eq
    rw [if_neg hForm]
    unfold ofChars?
    split
    · exact absurd rfl hLength
    · rfl

/-- A text is packed if it has the form of an identifier, and refused otherwise. -/
theorem parse_eq (text : String) :
    parse text =
      if HasForm text.toList then .ok ⟨packed text.toList⟩ else .error .invalidEisaId := by
  rw [parse, ofChars?_eq]
  by_cases hForm : HasForm text.toList
  · rw [if_pos hForm, if_pos hForm]
  · rw [if_neg hForm, if_neg hForm]

example : packed "PNP0501".toList = 0x0105D041 := by decide

end Acpi.EisaId
