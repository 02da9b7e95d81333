import Acpi.Proofs.DataObject
import Acpi.Proofs.Serialize

/-!
# Integer constants

An integer can be written in several forms: 0, 1 and all ones have a byte of their own, and every
number stands as a little-endian word behind a lead byte, in one, two, four or eight bytes, as long
as the word holds it.  `IntegerConstant.Denotes` lists the forms and the numbers they stand for, and
reading takes exactly these forms off the front (`readInteger_eq_some_iff`).

`Term.integer` has to choose.  Two facts make its choice the shortest one: a number has at most one
form of each length (`Denotes.eq_of_length_eq`), and the word that is chosen has the least width
that holds the number (`integer_cases`).

Main result: `integer_shortest`.
-/

namespace Acpi.IntegerConstant

open DataObject (readInteger readWord takes_readInteger)
open Node (encode Encodable)

/-! ## The forms of a number -/

/-- The numbers that have a byte of their own. -/
def singles : List (UInt8 × Nat) := [(0x00, 0), (0x01, 1), (0xFF, 0xFFFFFFFFFFFFFFFF)]

/-- The lead bytes that have a word behind them, each with the bytes of its word. -/
def wordLeads : List (UInt8 × Nat) := [(0x0A, 1), (0x0B, 2), (0x0C, 4), (0x0E, 8)]

/-- The byte strings that are integer constants, and the numbers that they stand for. -/
inductive Denotes : List UInt8 → Nat → Prop
  | single {byte : UInt8} {number : Nat} (mem : (byte, number) ∈ singles) : Denotes [byte] number
  | word {lead : UInt8} {word : List UInt8} {number : Nat} (mem : (lead, word.length) ∈ wordLeads)
      (decode_eq : LittleEndian.decode word = number) : Denotes (lead :: word) number

theorem mem_singles_iff {byte : UInt8} {number : Nat} :
    (byte, number) ∈ singles ↔
      byte = 0x00 ∧ number = 0 ∨ byte = 0x01 ∧ number = 1 ∨
        byte = 0xFF ∧ number = 0xFFFFFFFFFFFFFFFF := by
  simp [singles]

theorem mem_wordLeads_iff {lead : UInt8} {width : Nat} :
    (lead, width) ∈ wordLeads ↔
      lead = 0x0A ∧ width = 1 ∨ lead = 0x0B ∧ width = 2 ∨ lead = 0x0C ∧ width = 4 ∨
        lead = 0x0E ∧ width = 8 := by
  simp [wordLeads]

/-- Every word has at least one byte and fits 64 bits. -/
theorem bounds_of_mem_wordLeads {lead : UInt8} {width : Nat} (h : (lead, width) ∈ wordLeads) :
    1 ≤ width ∧ width ≤ 8 ∧ LittleEndian.span width ≤ UInt64.size := by
  rcases mem_wordLeads_iff.1 h with ⟨-, rfl⟩ | ⟨-, rfl⟩ | ⟨-, rfl⟩ | ⟨-, rfl⟩ <;> decide

namespace Denotes

variable {constant other : List UInt8} {number : Nat}

theorem length_pos (h : Denotes constant number) : 1 ≤ constant.length := by
  cases h <;> simp

theorem length_le (h : Denotes constant number) : constant.length ≤ 9 := by
  cases h with
  | single _ => simp
  | word hLead _ =>
      have hWidth := (bounds_of_mem_wordLeads hLead).2.1
      rw [List.length_cons]
      omega

/-- A number has at most one form of each length. -/
theorem eq_of_length_eq (h : Denotes constant number) (hOther : Denotes other number)
    (hLength : constant.length = other.length) : constant = other := by
  cases h with
  | single hByte =>
      cases hOther with
      | single hByte' =>
          rw [mem_singles_iff] at hByte hByte'
          grind
      | word hLead' _ =>
          have hBounds := bounds_of_mem_wordLeads hLead'
          simp only [List.length_cons, List.length_nil] at hLength
          omega
  | @word lead word _ hLead hNumber =>
      cases hOther with
      | single hByte' =>
          have hBounds := bounds_of_mem_wordLeads hLead
          simp only [List.length_cons, List.length_nil] at hLength
          omega
      | @word lead' word' _ hLead' hNumber' =>
          -- The width tells the lead byte, and width and number together tell the word.
          have hWidth : word.length = word'.length := Nat.succ.inj hLength
          have hLeads : lead = lead' := by
            rw [mem_wordLeads_iff] at hLead hLead'
            grind
          have hWords : word = word' := by
            rw [← LittleEndian.encode_decode word, ← LittleEndian.encode_decode word', hNumber,
              hNumber', hWidth]
          rw [hLeads, hWords]

end Denotes

/-! ## Reading takes the forms -/

theorem readWord_eq_some_iff {count : Nat} {bytes rest : List UInt8} {value : UInt64} :
    readWord count bytes = some (value, rest) ↔
      ∃ word, word.length = count ∧ UInt64.ofNat (LittleEndian.decode word) = value ∧
        bytes = word ++ rest := by
  unfold readWord
  constructor
  · intro h
    split at h
    next hRoom =>
      cases h
      exact ⟨bytes.take count, List.length_take_of_le hRoom, rfl,
        (List.take_append_drop count bytes).symm⟩
    next => cases h
  · rintro ⟨word, rfl, rfl, rfl⟩
    rw [if_pos (by simp), List.take_left, List.drop_left]

/-- The first byte decides how a constant is read. -/
theorem readInteger_cons (lead : UInt8) (tail : List UInt8) :
    (∃ value : UInt64, (lead, value.toNat) ∈ singles ∧
        readInteger (lead :: tail) = some (value, tail)) ∨
      (∃ width, (lead, width) ∈ wordLeads ∧ readInteger (lead :: tail) = readWord width tail) ∨
      readInteger (lead :: tail) = none := by
  rw [readInteger]
  split
  next h => subst h; exact Or.inl ⟨0, by decide, rfl⟩
  split
  next h => subst h; exact Or.inl ⟨1, by decide, rfl⟩
  split
  next h => subst h; exact Or.inl ⟨0xFFFFFFFFFFFFFFFF, by decide, rfl⟩
  split
  next h => subst h; exact Or.inr (Or.inl ⟨1, by decide, rfl⟩)
  split
  next h => subst h; exact Or.inr (Or.inl ⟨2, by decide, rfl⟩)
  split
  next h => subst h; exact Or.inr (Or.inl ⟨4, by decide, rfl⟩)
  split
  next h => subst h; exact Or.inr (Or.inl ⟨8, by decide, rfl⟩)
  next => exact Or.inr (Or.inr rfl)

theorem readInteger_of_mem_singles {byte : UInt8} {value : UInt64}
    (h : (byte, value.toNat) ∈ singles) (tail : List UInt8) :
    readInteger (byte :: tail) = some (value, tail) := by
  rcases mem_singles_iff.1 h with ⟨rfl, hValue⟩ | ⟨rfl, hValue⟩ | ⟨rfl, hValue⟩
  · obtain rfl : value = 0 := UInt64.toNat.inj hValue
    rfl
  · obtain rfl : value = 1 := UInt64.toNat.inj hValue
    rfl
  · obtain rfl : value = 0xFFFFFFFFFFFFFFFF := UInt64.toNat.inj hValue
    rfl

theorem readInteger_of_mem_wordLeads {lead : UInt8} {width : Nat}
    (h : (lead, width) ∈ wordLeads) (tail : List UInt8) :
    readInteger (lead :: tail) = readWord width tail := by
  rcases mem_wordLeads_iff.1 h with ⟨rfl, rfl⟩ | ⟨rfl, rfl⟩ | ⟨rfl, rfl⟩ | ⟨rfl, rfl⟩ <;> rfl

/-- **The reader and the forms.**  Reading takes a constant off the front exactly if one stands
there. -/
theorem readInteger_eq_some_iff {bytes rest : List UInt8} {value : UInt64} :
    readInteger bytes = some (value, rest) ↔
      ∃ constant, Denotes constant value.toNat ∧ bytes = constant ++ rest := by
  constructor
  · intro h
    cases bytes with
    | nil => cases h
    | cons lead tail =>
        rcases readInteger_cons lead tail with ⟨_, hByte, hRead⟩ | ⟨width, hLead, hRead⟩ | hRead
        · rw [hRead] at h
          cases h
          exact ⟨[lead], .single hByte, rfl⟩
        · rw [hRead] at h
          obtain ⟨word, rfl, rfl, rfl⟩ := readWord_eq_some_iff.1 h
          have hSpan := (bounds_of_mem_wordLeads hLead).2.2
          have hLt := LittleEndian.decode_lt word
          refine ⟨lead :: word, .word hLead ?_, rfl⟩
          rw [UInt64.toNat_ofNat_of_lt' (by omega)]
        · rw [hRead] at h
          cases h
  · rintro ⟨constant, hDenotes, rfl⟩
    cases hDenotes with
    | single hByte => exact readInteger_of_mem_singles hByte rest
    | @word lead word _ hLead hNumber =>
        rw [List.cons_append, readInteger_of_mem_wordLeads hLead, readWord_eq_some_iff]
        refine ⟨word, rfl, ?_, rfl⟩
        rw [hNumber, UInt64.ofNat_toNat]

/-! ## The form that is chosen -/

/-- How wide a word must be at least to hold a number. -/
theorem width_of_lt_span {lead : UInt8} {width number : Nat} (hLead : (lead, width) ∈ wordLeads)
    (hFits : number < LittleEndian.span width) :
    1 ≤ width ∧ (0x100 ≤ number → 2 ≤ width) ∧ (0x10000 ≤ number → 4 ≤ width) ∧
      (0x100000000 ≤ number → 8 ≤ width) := by
  rcases mem_wordLeads_iff.1 hLead with ⟨-, rfl⟩ | ⟨-, rfl⟩ | ⟨-, rfl⟩ | ⟨-, rfl⟩ <;>
    simp only [LittleEndian.span] at hFits <;> omega

/-- **The choice.**  A number that has a byte of its own is an object with that byte and nothing
else; any other number is a word of the least width that holds it. -/
theorem integer_cases (value : UInt64) :
    (∃ byte, (byte, value.toNat) ∈ singles ∧ Term.integer value = Term.object byte [] []) ∨
      ∃ lead width, (lead, width) ∈ wordLeads ∧
        Term.integer value = Term.raw (lead :: LittleEndian.encode width value.toNat) ∧
        value.toNat < LittleEndian.span width ∧ (∀ byte, (byte, value.toNat) ∉ singles) ∧
        ∀ other width', (other, width') ∈ wordLeads →
          value.toNat < LittleEndian.span width' → width ≤ width' := by
  unfold Term.integer
  split
  next h => subst h; exact Or.inl ⟨_, by decide, rfl⟩
  next hZero =>
  split
  next h => subst h; exact Or.inl ⟨_, by decide, rfl⟩
  next hOne =>
  split
  next h => subst h; exact Or.inl ⟨_, by decide, rfl⟩
  next hOnes =>
  have hSingles : ∀ byte, (byte, value.toNat) ∉ singles := by
    intro byte hByte
    rcases mem_singles_iff.1 hByte with ⟨-, h⟩ | ⟨-, h⟩ | ⟨-, h⟩
    · exact hZero (UInt64.toNat.inj h)
    · exact hOne (UInt64.toNat.inj h)
    · exact hOnes (UInt64.toNat.inj h)
  refine Or.inr ?_
  -- Each of the four words is reached only by numbers that are too large for the words before.
  split
  next hFits =>
    refine ⟨_, 1, by decide, rfl, hFits, hSingles, fun other width' hMem hOther => ?_⟩
    exact (width_of_lt_span hMem hOther).1
  split
  next hFits =>
    refine ⟨_, 2, by decide, rfl, hFits, hSingles, fun other width' hMem hOther => ?_⟩
    exact (width_of_lt_span hMem hOther).2.1 (by omega)
  split
  next hFits =>
    refine ⟨_, 4, by decide, rfl, hFits, hSingles, fun other width' hMem hOther => ?_⟩
    exact (width_of_lt_span hMem hOther).2.2.1 (by omega)
  next =>
    refine ⟨_, 8, by decide, rfl, value.toNat_lt, hSingles, fun other width' hMem hOther => ?_⟩
    exact (width_of_lt_span hMem hOther).2.2.2 (by omega)

theorem encode_single {byte : UInt8} {number : Nat} (h : (byte, number) ∈ singles) :
    encode (Term.object byte [] []) = [byte] := by
  rcases mem_singles_iff.1 h with ⟨rfl, -⟩ | ⟨rfl, -⟩ | ⟨rfl, -⟩ <;> rfl

theorem encodable_single {byte : UInt8} {number : Nat} (h : (byte, number) ∈ singles) :
    Encodable (Term.object byte [] []) := by
  refine .object _ [] [] (fun node hMem => absurd hMem List.not_mem_nil) ?_ fun _ => rfl
  rcases mem_singles_iff.1 h with ⟨rfl, -⟩ | ⟨rfl, -⟩ | ⟨rfl, -⟩ <;> decide

/-- The encoding of an integer is a constant that stands for it. -/
theorem denotes_integer (value : UInt64) : Denotes (encode (Term.integer value)) value.toNat := by
  rcases integer_cases value with ⟨byte, hByte, hTree⟩ | ⟨lead, width, hLead, hTree, hFits, -⟩
  · rw [hTree, encode_single hByte]
    exact .single hByte
  · rw [hTree, Term.encode_raw]
    refine .word ?_ (LittleEndian.decode_encode_of_lt hFits)
    rw [LittleEndian.length_encode]
    exact hLead

/-- No form of a number is shorter than its encoding. -/
theorem length_integer_le {value : UInt64} {constant : List UInt8}
    (h : Denotes constant value.toNat) :
    (encode (Term.integer value)).length ≤ constant.length := by
  rcases integer_cases value with ⟨byte, hByte, hTree⟩ |
    ⟨lead, width, -, hTree, -, hSingles, hLeast⟩
  · rw [hTree, encode_single hByte]
    exact h.length_pos
  · cases h with
    | single hByte => exact absurd hByte (hSingles _)
    | @word other word _ hOther hNumber =>
        have hFits := LittleEndian.decode_lt word
        rw [hNumber] at hFits
        have hWidth := hLeast other word.length hOther hFits
        rw [hTree, Term.encode_raw, List.length_cons, List.length_cons,
          LittleEndian.length_encode]
        omega

/-- Any other form of a number is longer than its encoding. -/
theorem eq_integer_or_longer {value : UInt64} {constant : List UInt8}
    (h : Denotes constant value.toNat) :
    constant = encode (Term.integer value) ∨
      (encode (Term.integer value)).length < constant.length := by
  have hLe := length_integer_le h
  by_cases hSame : constant.length = (encode (Term.integer value)).length
  · exact Or.inl (h.eq_of_length_eq (denotes_integer value) hSame)
  · exact Or.inr (by omega)

/-! ## Measuring -/

theorem encodable_integer (value : UInt64) : Encodable (Term.integer value) := by
  rcases integer_cases value with ⟨byte, hByte, hTree⟩ | ⟨lead, width, -, hTree, -⟩
  · rw [hTree]
    exact encodable_single hByte
  · rw [hTree]
    exact .data _

theorem size_integer (value : UInt64) :
    (Term.integer value).size = .ok (encode (Term.integer value)).length := by
  have hEncodable := encodable_integer value
  have hLength := (denotes_integer value).length_le
  refine hEncodable.size_eq ?_
  rw [← hEncodable.length_encode]
  unfold maxSize
  omega

/-! ## All integers -/

/-- What holds of the bytes that are chosen for an integer. -/
structure Shortest (value : UInt64) (bytes : List UInt8) : Prop where
  /-- They are a constant, and it stands for the integer. -/
  denotes : Denotes bytes value.toNat
  /-- They are read as the integer, and what follows is left over. -/
  reads : ∀ rest, readInteger (bytes ++ rest) = some (value, rest)
  /-- Whatever else is read as the integer takes more bytes. -/
  shortest : ∀ other rest, readInteger other = some (value, rest) →
    other = bytes ++ rest ∨ bytes.length + rest.length < other.length
  size_eq : (Term.integer value).size = .ok bytes.length
  /-- Measuring and writing put them on every forward stream that has room for them. -/
  written : ∀ stream : Stream, stream.direction = .forward → bytes.length ≤ stream.remaining →
    (Term.integer value).write stream = Stream.write bytes.toByteArray stream

/-- **Integer constants are exact and shortest.**  The encoding of an integer is a constant that
stands for it; it is read back with exactly what follows left over; it is as long as measuring says;
any other bytes that are read as the integer are longer; and different integers have different
encodings.  What counts as a constant is what `Denotes` lists, and reading takes nothing else. -/
theorem integer_shortest :
    (∀ value, Shortest value (encode (Term.integer value))) ∧
      (∀ value value', encode (Term.integer value) = encode (Term.integer value') →
        value = value') ∧
      ∀ bytes rest value, readInteger bytes = some (value, rest) ↔
        ∃ constant, Denotes constant value.toNat ∧ bytes = constant ++ rest := by
  refine ⟨fun value => ?_, fun value value' h => ?_, fun _ _ _ => readInteger_eq_some_iff⟩
  · have hSize := size_integer value
    refine ⟨denotes_integer value, takes_readInteger value, fun other rest hRead => ?_, hSize,
      fun stream hForward hRoom => Node.write_of_size hSize hForward hRoom⟩
    obtain ⟨constant, hDenotes, rfl⟩ := readInteger_eq_some_iff.1 hRead
    rcases eq_integer_or_longer hDenotes with rfl | hLonger
    · exact Or.inl rfl
    · refine Or.inr ?_
      rw [List.length_append]
      omega
  · have hRead := (takes_readInteger value).whole
    rw [h, (takes_readInteger value').whole] at hRead
    cases hRead
    rfl

example : encode (Term.integer 0xFF) = [0x0A, 0xFF] ∧
    encode (Term.integer 0x100) = [0x0B, 0x00, 0x01] ∧
    encode (Term.integer 0xFFFFFFFFFFFFFFFF) = [0xFF] := by decide +kernel

end Acpi.IntegerConstant
