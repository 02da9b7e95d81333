import Acpi.Proofs.EisaId
import Acpi.Proofs.PlainText

/-!
# Device identifiers there and back

A text that is packed into a number is read back from it with its digits in capitals.  The other way
round it depends on the number: seven plain characters can always be read from it, but they are an
identifier only if its three letter codes stand for letters, and what they are packed into has the
topmost bit of the reversed number clear.

Main result: `texts_and_numbers_round_trip`.
-/

namespace Acpi.EisaId

/-! ## The form as bytes -/

/-- The bytes of the capital letters. -/
def IsLetterByte (byte : UInt8) : Prop := 0x41 ≤ byte.toNat ∧ byte.toNat ≤ 0x5A

/-- The bytes of the hexadecimal digits of either case. -/
def IsHexByte (byte : UInt8) : Prop :=
  (0x30 ≤ byte.toNat ∧ byte.toNat ≤ 0x39) ∨ (0x41 ≤ byte.toNat ∧ byte.toNat ≤ 0x46) ∨
    (0x61 ≤ byte.toNat ∧ byte.toNat ≤ 0x66)

/-- Seven bytes: three capital letters and four hexadecimal digits. -/
structure HasByteForm (bytes : List UInt8) : Prop where
  length_eq : bytes.length = 7
  letters : ∀ byte ∈ bytes.take 3, IsLetterByte byte
  digits : ∀ byte ∈ bytes.drop 3, IsHexByte byte

theorem isUpper_iff (c : Char) : c.isUpper = true ↔ 0x41 ≤ c.toNat ∧ c.toNat ≤ 0x5A := by
  change decide ('A'.val ≤ c.val ∧ c.val ≤ 'Z'.val) = true ↔ _
  rw [decide_eq_true_eq, UInt32.le_iff_toNat_le, UInt32.le_iff_toNat_le]
  rfl

theorem isHexDigit_iff (c : Char) :
    isHexDigit c = true ↔ (0x30 ≤ c.toNat ∧ c.toNat ≤ 0x39) ∨ (0x41 ≤ c.toNat ∧ c.toNat ≤ 0x46) ∨
      (0x61 ≤ c.toNat ∧ c.toNat ≤ 0x66) := by
  simp only [isHexDigit, Bool.or_eq_true, Bool.and_eq_true, decide_eq_true_eq, isDigit_iff,
    or_assoc]

theorem plain_of_isUpper {c : Char} (h : c.isUpper = true) : c.toNat < 128 := by
  have := (isUpper_iff c).1 h
  omega

theorem plain_of_isHexDigit {c : Char} (h : isHexDigit c = true) : c.toNat < 128 := by
  have := (isHexDigit_iff c).1 h
  omega

theorem HasForm.plain {text : List Char} (h : HasForm text) : ∀ c ∈ text, c.toNat < 128 := by
  intro c hMem
  rw [← List.take_append_drop 3 text, List.mem_append] at hMem
  rcases hMem with hMem | hMem
  · exact plain_of_isUpper (h.letters c hMem)
  · exact plain_of_isHexDigit (h.digits c hMem)

theorem HasByteForm.plain {bytes : List UInt8} (h : HasByteForm bytes) :
    ∀ byte ∈ bytes, byte.toNat < 128 := by
  intro byte hMem
  rw [← List.take_append_drop 3 bytes, List.mem_append] at hMem
  rcases hMem with hMem | hMem
  · have hLetter := h.letters byte hMem
    unfold IsLetterByte at hLetter
    omega
  · have hDigit := h.digits byte hMem
    unfold IsHexByte at hDigit
    omega

theorem hasForm_iff_of_plain {text : List Char} (h : ∀ c ∈ text, c.toNat < 128) :
    HasForm text ↔ HasByteForm (text.map fun c => UInt8.ofNat c.toNat) := by
  have hCode : ∀ c ∈ text, (UInt8.ofNat c.toNat).toNat = c.toNat := by
    intro c hMem
    have hPlain := h c hMem
    rw [UInt8.toNat_ofNat']
    omega
  have hLetter : ∀ c ∈ text, c.isUpper = true ↔ IsLetterByte (UInt8.ofNat c.toNat) := by
    intro c hMem
    rw [isUpper_iff, IsLetterByte, hCode c hMem]
  have hDigit : ∀ c ∈ text, isHexDigit c = true ↔ IsHexByte (UInt8.ofNat c.toNat) := by
    intro c hMem
    rw [isHexDigit_iff, IsHexByte, hCode c hMem]
  constructor
  · intro hForm
    refine ⟨by rw [List.length_map, hForm.length_eq], ?_, ?_⟩
    · rw [← List.map_take, List.forall_mem_map]
      exact fun c hMem => (hLetter c (List.mem_of_mem_take hMem)).1 (hForm.letters c hMem)
    · rw [← List.map_drop, List.forall_mem_map]
      exact fun c hMem => (hDigit c (List.mem_of_mem_drop hMem)).1 (hForm.digits c hMem)
  · rintro ⟨hLength, hLetters, hDigits⟩
    rw [← List.map_take, List.forall_mem_map] at hLetters
    rw [← List.map_drop, List.forall_mem_map] at hDigits
    refine ⟨by rw [← hLength, List.length_map], ?_, ?_⟩
    · exact fun c hMem => (hLetter c (List.mem_of_mem_take hMem)).2 (hLetters c hMem)
    · exact fun c hMem => (hDigit c (List.mem_of_mem_drop hMem)).2 (hDigits c hMem)

/-- Whether a text has the form of an identifier can be told from its bytes. -/
theorem hasForm_toList_iff (text : String) :
    HasForm text.toList ↔ HasByteForm (PlainText.bytes text) := by
  constructor
  · intro h
    rw [PlainText.bytes_of_plain h.plain]
    exact (hasForm_iff_of_plain h.plain).1 h
  · intro h
    have hPlain := PlainText.plain_of_bytes h.plain
    rw [PlainText.bytes_of_plain hPlain] at h
    exact (hasForm_iff_of_plain hPlain).2 h

/-! ## Reversed numbers -/

theorem reverseBytes_decode {bytes : List UInt8} (h : bytes.length = 4) :
    reverseBytes (LittleEndian.decode bytes) = LittleEndian.decode bytes.reverse := by
  rw [reverseBytes, ← h, LittleEndian.encode_decode]

theorem reverseBytes_lt (n : Nat) : reverseBytes n < 0x100000000 := by
  have hLt := LittleEndian.decode_lt (LittleEndian.encode 4 n).reverse
  rwa [List.length_reverse, LittleEndian.length_encode] at hLt

/-- Reversing the bytes a second time gives the number back. -/
theorem reverseBytes_reverseBytes {n : Nat} (h : n < 0x100000000) :
    reverseBytes (reverseBytes n) = n := by
  have hLength : (LittleEndian.encode 4 n).reverse.length = 4 := by
    rw [List.length_reverse, LittleEndian.length_encode]
  have hTwice := reverseBytes_decode hLength
  rwa [List.reverse_reverse, LittleEndian.decode_encode_of_lt h] at hTwice

/-- The lowest byte of a number is the highest of the reversed one. -/
theorem reverseBytes_eq (n : Nat) :
    reverseBytes n = n / 256 / 256 / 256 % 256 + 256 * (n / 256 / 256 % 256) +
      0x10000 * (n / 256 % 256) + 0x1000000 * (n % 256) := by
  simp only [reverseBytes, LittleEndian.encode, List.reverse_cons, List.reverse_nil,
    List.nil_append, List.cons_append, LittleEndian.decode, UInt8.toNat_ofNat']
  omega

theorem toNat_ofNat_reverseBytes (n : Nat) :
    (UInt32.ofNat (reverseBytes n)).toNat = reverseBytes n :=
  UInt32.toNat_ofNat_of_lt' (reverseBytes_lt n)

/-- The number that an identifier holds with its bytes reversed: a clear bit, three letter codes of
five bits each and four digits. -/
def reversed (id : EisaId) : Nat := reverseBytes id.raw.toNat

theorem reversed_lt (id : EisaId) : id.reversed < 0x100000000 := reverseBytes_lt _

theorem eq_of_reversed_eq {id id' : EisaId} (h : id.reversed = id'.reversed) : id = id' := by
  have hRaw : id.raw.toNat = id'.raw.toNat := by
    rw [← reverseBytes_reverseBytes id.raw.toNat_lt, ← reverseBytes_reverseBytes id'.raw.toNat_lt]
    exact congrArg reverseBytes h
  cases id
  cases id'
  exact congrArg EisaId.mk (UInt32.toNat.inj hRaw)

theorem reversed_packed {text : List Char} (h : number text < 0x100000000) :
    reversed ⟨packed text⟩ = number text := by
  show reverseBytes (UInt32.ofNat (reverseBytes (number text))).toNat = number text
  rw [toNat_ofNat_reverseBytes, reverseBytes_reverseBytes h]

/-! ## From texts to numbers and back -/

/-- An identifier with its digits in capitals. -/
def upperDigits (text : List Char) : List Char := text.take 3 ++ (text.drop 3).map Char.toUpper

theorem letter_eq {c : Char} (h : c.isUpper = true) {code : Nat}
    (hCode : code % 32 = c.toNat - 0x40) : letter code = c := by
  have hRange := (isUpper_iff c).1 h
  have hBase : '@'.toNat = 0x40 := rfl
  rw [letter, hCode, hBase, Nat.add_sub_of_le (by omega), Char.ofNat_toNat]

theorem digitValue_lt {c : Char} (h : isHexDigit c = true) : digitValue c < 16 := by
  have hRange := (isHexDigit_iff c).1 h
  unfold digitValue
  split
  · omega
  · split <;> omega

theorem hexDigit_digitValue {c : Char} (h : isHexDigit c = true) :
    hexDigit (digitValue c) = c.toUpper :=
  PlainText.of_plain (P := fun c => isHexDigit c = true → hexDigit (digitValue c) = c.toUpper)
    (by decide) (plain_of_isHexDigit h) h

theorem digitValue_toUpper {c : Char} (h : isHexDigit c = true) :
    digitValue c.toUpper = digitValue c :=
  PlainText.of_plain (P := fun c => isHexDigit c = true → digitValue c.toUpper = digitValue c)
    (by decide) (plain_of_isHexDigit h) h

/-- What a text of the form consists of. -/
theorem HasForm.exists_chars {text : List Char} (h : HasForm text) :
    ∃ a b c d e f g, text = [a, b, c, d, e, f, g] ∧
      (a.isUpper = true ∧ b.isUpper = true ∧ c.isUpper = true) ∧
      isHexDigit d = true ∧ isHexDigit e = true ∧ isHexDigit f = true ∧ isHexDigit g = true := by
  have hLength := h.length_eq
  match text, hLength with
  | [a, b, c, d, e, f, g], _ =>
      exact ⟨a, b, c, d, e, f, g, rfl, by simpa using h.letters, by simpa using h.digits⟩

theorem number_seven (a b c d e f g : Char) :
    number [a, b, c, d, e, f, g] =
      (((a.toNat - 0x40) * 32 + (b.toNat - 0x40)) * 32 + (c.toNat - 0x40)) * 0x10000 +
        (((digitValue d * 16 + digitValue e) * 16 + digitValue f) * 16 + digitValue g) := by
  simp [number]

/-- The number of a text takes 31 bits, and each letter and digit has its own bits in it. -/
theorem number_positions {a b c d e f g : Char}
    (hLetters : a.isUpper = true ∧ b.isUpper = true ∧ c.isUpper = true)
    (hDigits : isHexDigit d = true ∧ isHexDigit e = true ∧ isHexDigit f = true ∧
      isHexDigit g = true) :
    let n := number [a, b, c, d, e, f, g]
    n < 0x80000000 ∧
      (n / 0x4000000 % 32 = a.toNat - 0x40 ∧ n / 0x200000 % 32 = b.toNat - 0x40 ∧
        n / 0x10000 % 32 = c.toNat - 0x40) ∧
      n / 4096 % 16 = digitValue d ∧ n / 256 % 16 = digitValue e ∧ n / 16 % 16 = digitValue f ∧
        n % 16 = digitValue g := by
  obtain ⟨ha, hb, hc⟩ := hLetters
  obtain ⟨hd, he, hf, hg⟩ := hDigits
  rw [isUpper_iff] at ha hb hc
  have hD := digitValue_lt hd
  have hE := digitValue_lt he
  have hF := digitValue_lt hf
  have hG := digitValue_lt hg
  have hNumber := number_seven a b c d e f g
  omega

/-- A text that was packed is read back with its digits in capitals. -/
theorem chars_packed {text : List Char} (h : HasForm text) :
    chars ⟨packed text⟩ = upperDigits text := by
  obtain ⟨a, b, c, d, e, f, g, rfl, hLetters, hDigits⟩ := h.exists_chars
  obtain ⟨hLt, ⟨hA, hB, hC⟩, hD, hE, hF, hG⟩ := number_positions hLetters hDigits
  have hReversed := reversed_packed (Nat.lt_trans hLt (by decide))
  unfold reversed at hReversed
  obtain ⟨ha, hb, hc⟩ := hLetters
  obtain ⟨hd, he, hf, hg⟩ := hDigits
  simp only [chars, hReversed]
  rw [letter_eq ha hA, letter_eq hb hB, letter_eq hc hC, hD, hE, hF, hG, hexDigit_digitValue hd,
    hexDigit_digitValue he, hexDigit_digitValue hf, hexDigit_digitValue hg]
  rfl

theorem number_upperDigits {text : List Char} (h : HasForm text) :
    number (upperDigits text) = number text := by
  obtain ⟨a, b, c, d, e, f, g, rfl, -, hd, he, hf, hg⟩ := h.exists_chars
  show number [a, b, c, d.toUpper, e.toUpper, f.toUpper, g.toUpper] = _
  rw [number_seven, number_seven, digitValue_toUpper hd, digitValue_toUpper he,
    digitValue_toUpper hf, digitValue_toUpper hg]

/-- Two texts are packed alike exactly if they differ in the case of their digits only. -/
theorem packed_eq_iff {text other : List Char} (h : HasForm text) (h' : HasForm other) :
    packed text = packed other ↔ upperDigits text = upperDigits other := by
  constructor
  · intro hPacked
    rw [← chars_packed h, ← chars_packed h', hPacked]
  · intro hUpper
    rw [packed, packed, ← number_upperDigits h, ← number_upperDigits h', hUpper]

/-! ## From numbers to texts and back -/

/-- The five-bit codes of the letters. -/
def letterCodes (id : EisaId) : List Nat :=
  [id.reversed / 0x4000000 % 32, id.reversed / 0x200000 % 32, id.reversed / 0x10000 % 32]

/-- Every letter code stands for a letter. -/
def HasLetters (id : EisaId) : Prop := ∀ code ∈ id.letterCodes, 1 ≤ code ∧ code ≤ 26

/-- The topmost bit of the reversed number. -/
def topBit (id : EisaId) : Nat := id.reversed / 0x80000000

theorem toNat_letter (code : Nat) : (letter code).toNat = 0x40 + code % 32 := by
  have hEach : ∀ k < 32, (Char.ofNat ('@'.toNat + k)).toNat = 0x40 + k := by decide
  exact hEach _ (Nat.mod_lt _ (by decide))

theorem isUpper_letter_iff (code : Nat) :
    (letter code).isUpper = true ↔ 1 ≤ code % 32 ∧ code % 32 ≤ 26 := by
  rw [isUpper_iff, toNat_letter]
  omega

theorem isHexDigit_hexDigit : ∀ value < 16, isHexDigit (hexDigit value) = true := by decide

theorem digitValue_hexDigit : ∀ value < 16, digitValue (hexDigit value) = value := by decide

theorem mod_sixteen_lt (n : Nat) : n % 16 < 16 := Nat.mod_lt n (by decide)

/-- The characters of a number are an identifier if its codes are those of letters. -/
theorem hasForm_chars_iff (id : EisaId) : HasForm id.chars ↔ id.HasLetters := by
  rw [← hasForm_iff]
  simp only [chars, HasLetters, letterCodes, reversed, List.length_cons, List.length_nil,
    List.take_succ_cons, List.take_zero, List.drop_succ_cons, List.drop_zero, List.all_cons,
    List.all_nil, Bool.and_true, Bool.and_eq_true, isUpper_letter_iff, List.forall_mem_cons,
    isHexDigit_hexDigit _ (mod_sixteen_lt _), and_true, true_and]
  simp

theorem number_chars (id : EisaId) : number id.chars = id.reversed % 0x80000000 := by
  simp only [chars, number_seven, toNat_letter, digitValue_hexDigit _ (mod_sixteen_lt _), reversed]
  omega

theorem plain_chars (id : EisaId) : ∀ c ∈ id.chars, c.toNat < 128 := by
  have hLetter : ∀ code, (letter code).toNat < 128 := by
    intro code
    rw [toNat_letter]
    omega
  have hDigit : ∀ n, (hexDigit (n % 16)).toNat < 128 := fun n =>
    plain_of_isHexDigit (isHexDigit_hexDigit _ (mod_sixteen_lt n))
  simp [chars, hLetter, hDigit]

/-- The same number with the topmost bit of the reversed number clear, which is the topmost bit of
the lowest byte. -/
def clearTop (id : EisaId) : EisaId := ⟨id.raw &&& 0xFFFFFF7F⟩

/-- The mask keeps the upper three bytes and the low seven bits. -/
theorem and_mask {n : Nat} (h : n < 0x100000000) :
    n &&& 0xFFFFFF7F = n / 256 * 256 + n % 128 := by
  have hHigh := Nat.and_div_two_pow (a := n) (b := 0xFFFFFF7F) (n := 8)
  have hLow := Nat.and_mod_two_pow (a := n) (b := 0xFFFFFF7F) (n := 8)
  have hUpper := Nat.and_two_pow_sub_one_eq_mod (n / 256) 24
  have hBits := Nat.and_two_pow_sub_one_eq_mod (n % 256) 7
  simp only [Nat.reducePow, Nat.reduceDiv, Nat.reduceMod, Nat.reduceSub] at hHigh hLow hUpper hBits
  rw [hUpper] at hHigh
  rw [hBits] at hLow
  omega

theorem reversed_clearTop (id : EisaId) : id.clearTop.reversed = id.reversed % 0x80000000 := by
  have hMask := and_mask id.raw.toNat_lt
  have hUpper : (id.raw.toNat &&& 0xFFFFFF7F) / 256 = id.raw.toNat / 256 := by omega
  have hLow : (id.raw.toNat &&& 0xFFFFFF7F) % 256 = id.raw.toNat % 128 := by omega
  have hWord : id.clearTop.raw.toNat = id.raw.toNat &&& 0xFFFFFF7F := UInt32.toNat_and ..
  rw [reversed, reversed, hWord, reverseBytes_eq, reverseBytes_eq id.raw.toNat, hUpper, hLow]
  omega

theorem reversed_packed_chars (id : EisaId) :
    reversed ⟨packed id.chars⟩ = id.reversed % 0x80000000 := by
  have hNumber := number_chars id
  rw [reversed_packed (by omega), hNumber]

/-- What is read from a number is packed again, but for the topmost bit. -/
theorem parse_text {id : EisaId} (h : id.HasLetters) : parse id.text = .ok id.clearTop := by
  have hForm := (hasForm_chars_iff id).2 h
  have hSame : (⟨packed id.chars⟩ : EisaId) = id.clearTop :=
    eq_of_reversed_eq (by rw [reversed_packed_chars, reversed_clearTop])
  rw [parse_eq, text, String.toList_ofList, if_pos hForm, hSame]

theorem parse_text_of_not {id : EisaId} (h : ¬ id.HasLetters) :
    parse id.text = .error .invalidEisaId := by
  rw [parse_eq, text, String.toList_ofList, if_neg (mt (hasForm_chars_iff id).1 h)]

theorem clearTop_eq_self_iff (id : EisaId) : id.clearTop = id ↔ id.topBit = 0 := by
  have hLt := id.reversed_lt
  have hTop := id.reversed_clearTop
  unfold topBit
  constructor
  · intro hSame
    rw [hSame] at hTop
    omega
  · intro hClear
    exact eq_of_reversed_eq (by omega)

/-! ## Both directions -/

theorem parse_eq_ok_iff {text : String} {id : EisaId} :
    parse text = .ok id ↔ HasForm text.toList ∧ id = ⟨packed text.toList⟩ := by
  rw [parse_eq]
  by_cases hForm : HasForm text.toList
  · rw [if_pos hForm]
    constructor
    · rintro ⟨⟩
      exact ⟨hForm, rfl⟩
    · rintro ⟨-, rfl⟩
      rfl
  · rw [if_neg hForm]
    constructor
    · rintro ⟨⟩
    · intro h
      exact absurd h.1 hForm

/-- What becomes of a text: it is packed if its bytes have the form of an identifier, and what is
read back tells it up to the case of its digits. -/
structure TextFate (text : String) : Prop where
  accepted_iff : (∃ id, parse text = .ok id) ↔ HasByteForm (PlainText.bytes text)
  refused : ¬ HasByteForm (PlainText.bytes text) → parse text = .error .invalidEisaId
  text_eq : ∀ id, parse text = .ok id → id.text = String.ofList (upperDigits text.toList)
  raw_eq_iff : ∀ other id id', parse text = .ok id → parse other = .ok id' →
    (id.raw = id'.raw ↔ upperDigits text.toList = upperDigits other.toList)

/-- What becomes of a number: it is read as seven plain bytes, and these are packed into the same
number, into the number without its topmost bit, or refused. -/
structure NumberFate (id : EisaId) : Prop where
  length_eq : (PlainText.bytes id.text).length = 7
  plain : ∀ byte ∈ PlainText.bytes id.text, byte.toNat < 128
  parse_eq_self_iff : parse id.text = .ok id ↔ id.topBit = 0 ∧ id.HasLetters
  parse_of_topBit : id.HasLetters → id.topBit = 1 → ∃ id', parse id.text = .ok id' ∧
    id'.raw = id.raw &&& 0xFFFFFF7F ∧ id'.reversed = id.reversed - 0x80000000
  refused : ¬ id.HasLetters → parse id.text = .error .invalidEisaId

theorem textFate (text : String) : TextFate text where
  accepted_iff := by
    rw [← hasForm_toList_iff]
    constructor
    · rintro ⟨id, hParse⟩
      exact (parse_eq_ok_iff.1 hParse).1
    · intro hForm
      exact ⟨_, parse_eq_ok_iff.2 ⟨hForm, rfl⟩⟩
  refused := by
    intro hForm
    rw [parse_eq, if_neg (mt (hasForm_toList_iff text).1 hForm)]
  text_eq := by
    intro id hParse
    obtain ⟨hForm, rfl⟩ := parse_eq_ok_iff.1 hParse
    rw [EisaId.text, chars_packed hForm]
  raw_eq_iff := by
    intro other id id' hParse hParse'
    obtain ⟨hForm, rfl⟩ := parse_eq_ok_iff.1 hParse
    obtain ⟨hForm', rfl⟩ := parse_eq_ok_iff.1 hParse'
    exact packed_eq_iff hForm hForm'

theorem numberFate (id : EisaId) : NumberFate id := by
  have hChars : id.text.toList = id.chars := String.toList_ofList
  have hPlain := id.plain_chars
  rw [← hChars] at hPlain
  have hBytes := PlainText.bytes_of_plain hPlain
  exact {
    length_eq := by
      rw [hBytes, List.length_map, hChars]
      rfl
    plain := by
      intro byte hMem
      rw [hBytes] at hMem
      obtain ⟨c, hChar, rfl⟩ := List.mem_map.1 hMem
      have hCode := hPlain c hChar
      rw [UInt8.toNat_ofNat']
      omega
    parse_eq_self_iff := by
      rw [← clearTop_eq_self_iff]
      by_cases hLetters : id.HasLetters
      · rw [parse_text hLetters]
        constructor
        · intro hSame
          injection hSame with hSame
          exact ⟨hSame, hLetters⟩
        · rintro ⟨hSame, -⟩
          rw [hSame]
      · rw [parse_text_of_not hLetters]
        constructor
        · rintro ⟨⟩
        · intro h
          exact absurd h.2 hLetters
    parse_of_topBit := by
      intro hLetters hTop
      have hLt := id.reversed_lt
      unfold topBit at hTop
      refine ⟨id.clearTop, parse_text hLetters, rfl, ?_⟩
      rw [reversed_clearTop]
      omega
    refused := parse_text_of_not }

/-- **Identifiers go there and back.**  Texts go by their bytes and come back with their digits in
capitals; numbers go by their letter codes and come back without the topmost bit. -/
theorem texts_and_numbers_round_trip :
    (∀ text : String, TextFate text) ∧ ∀ id : EisaId, NumberFate id := by
  constructor
  · intro text
    exact textFate text
  · intro id
    exact numberFate id

/-- A number whose topmost bit is set, and what its text is packed into. -/
example : text ⟨0x0105D0C1⟩ = "PNP0501" ∧ parse "PNP0501" = .ok ⟨0x0105D041⟩ :=
  ⟨rfl, rfl⟩

end Acpi.EisaId
