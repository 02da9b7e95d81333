/-!
# Plain text

Names and identifiers are texts of plain characters, those with codes below 128.  A plain character
is written as one byte, its code, and every other character as several bytes above 127.  So a
condition on the bytes of a text that asks for plain bytes is a condition on its characters.

Main statements: `bytes_of_plain` and `plain_of_bytes`.
-/

namespace Acpi.PlainText

/-- What is claimed of all plain characters can be tried out. -/
theorem of_plain {P : Char → Prop} (h : ∀ n : Fin 128, P (Char.ofNat n)) {c : Char}
    (hPlain : c.toNat < 128) : P c := by
  have hChar := h ⟨c.toNat, hPlain⟩
  rwa [Char.ofNat_toNat] at hChar

/-- The bytes of a text. -/
def bytes (text : String) : List UInt8 := text.toByteArray.data.toList

theorem bytes_eq (text : String) : bytes text = text.toList.flatMap String.utf8EncodeChar := by
  have hText : text.toByteArray = (text.toList.flatMap String.utf8EncodeChar).toByteArray := by
    conv => lhs; rw [← String.ofList_toList (s := text)]
    rfl
  rw [bytes, hText, List.data_toByteArray]

/-- A plain text is written as the codes of its characters. -/
theorem bytes_of_plain {text : String} (h : ∀ c ∈ text.toList, c.toNat < 128) :
    bytes text = text.toList.map fun c => UInt8.ofNat c.toNat := by
  have hEach : text.toList.map String.utf8EncodeChar =
      text.toList.map fun c => [UInt8.ofNat c.toNat] := by
    apply List.map_congr_left
    intro c hMem
    have hCode : c.val.toNat ≤ 127 := Nat.le_of_lt_succ (h c hMem)
    exact if_pos hCode
  rw [bytes_eq, List.flatMap_def, hEach, ← List.flatMap_def, ← List.map_eq_flatMap]

/-- The first byte of a character that is not plain is above 127. -/
theorem plain_of_utf8EncodeChar {c : Char}
    (h : ∀ byte ∈ String.utf8EncodeChar c, byte.toNat < 128) : c.toNat < 128 := by
  by_cases hPlain : c.val.toNat ≤ 127
  · exact Nat.lt_succ_of_le hPlain
  · simp only [String.utf8EncodeChar, if_neg hPlain] at h
    -- Two, three or four bytes: each time the first has its top bit set.
    repeat' split at h
    all_goals
      have hLead := h _ List.mem_cons_self
      rw [UInt8.toNat_ofNat'] at hLead
      omega

/-- A text whose bytes are plain is a text of plain characters. -/
theorem plain_of_bytes {text : String} (h : ∀ byte ∈ bytes text, byte.toNat < 128) :
    ∀ c ∈ text.toList, c.toNat < 128 := by
  intro c hMem
  apply plain_of_utf8EncodeChar
  intro byte hByte
  apply h
  rw [bytes_eq]
  exact List.mem_flatMap.2 ⟨c, hMem, hByte⟩

end Acpi.PlainText
