/-!
# Little-endian words

Every multi-byte number of a table is stored least significant byte first.  One pair of functions
over natural numbers serves all widths: `encode count n` keeps the `count` low bytes of `n`, and
`decode` reads any byte list back.  Fixed-width fields are thin uses of this pair.

Main statements:

* `decode_encode`: reading back gives the number modulo `span count`, which is 256 to that power;
* `encode_decode`: every byte list is the encoding of the number that it denotes.
-/

namespace Acpi.LittleEndian

/-- The `count` low bytes of `n`, least significant first. -/
def encode : Nat → Nat → List UInt8
  | 0, _ => []
  | count + 1, n => UInt8.ofNat n :: encode count (n / 256)

/-- The number that a little-endian byte list denotes. -/
def decode : List UInt8 → Nat
  | [] => 0
  | byte :: rest => byte.toNat + 256 * decode rest

/-- How many numbers `count` bytes can tell apart. -/
def span : Nat → Nat
  | 0 => 1
  | count + 1 => 256 * span count

@[simp] theorem length_encode (count n : Nat) : (encode count n).length = count := by
  induction count generalizing n with
  | zero => rfl
  | succ count ih => simp [encode, ih]

theorem decode_lt (bytes : List UInt8) : decode bytes < span bytes.length := by
  induction bytes with
  | nil => exact Nat.zero_lt_one
  | cons byte rest ih =>
      have hByte : byte.toNat < 256 := byte.toNat_lt
      simp only [decode, List.length_cons, span]
      omega

/-- Reading back an encoding gives the number, cut to the width that was kept. -/
theorem decode_encode (count n : Nat) : decode (encode count n) = n % span count := by
  induction count generalizing n with
  | zero => simp [encode, decode, span, Nat.mod_one]
  | succ count ih =>
      have hByte : (UInt8.ofNat n).toNat = n % 256 := UInt8.toNat_ofNat'
      rw [encode, decode, ih, hByte, span, Nat.mod_mul]

theorem decode_encode_of_lt {count n : Nat} (h : n < span count) :
    decode (encode count n) = n := by
  rw [decode_encode, Nat.mod_eq_of_lt h]

/-- A byte list is the encoding, at its own length, of the number that it denotes. -/
theorem encode_decode (bytes : List UInt8) : encode bytes.length (decode bytes) = bytes := by
  induction bytes with
  | nil => rfl
  | cons byte rest ih =>
      have hByte : byte.toNat < 256 := byte.toNat_lt
      have hLow : UInt8.ofNat (byte.toNat + 256 * decode rest) = byte := by
        apply UInt8.toNat.inj
        simp only [UInt8.toNat_ofNat']
        omega
      have hHigh : (byte.toNat + 256 * decode rest) / 256 = decode rest := by omega
      simp only [decode, List.length_cons, encode, hLow, hHigh, ih]

end Acpi.LittleEndian
