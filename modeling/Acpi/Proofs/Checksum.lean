import Acpi.Table.Checksum
import Mathlib.Algebra.GroupWithZero.Nat

/-!
# Sums of bytes

A checksum is one byte among the others, so what matters is how the sum of some bytes depends on a
single one of them: it moves by as much as that byte does (`listSum_middle`).  Hence at each
position there is exactly one byte that brings the sum to zero (`listSum_eq_zero_iff`).
-/

namespace Acpi.Checksum

/-- The sum of a list of bytes modulo 256. -/
def listSum (bytes : List UInt8) : UInt8 := bytes.foldl (· + ·) 0

theorem sum_eq_listSum (bytes : ByteArray) : sum bytes = listSum bytes.data.toList := by
  unfold sum listSum
  rw [Array.foldl_toList]

private theorem foldl_add (bytes : List UInt8) (start : UInt8) :
    bytes.foldl (· + ·) start = start + listSum bytes := by
  unfold listSum
  induction bytes generalizing start with
  | nil => simp
  | cons byte bytes ih =>
      rw [List.foldl_cons, List.foldl_cons, ih, ih (0 + byte), UInt8.zero_add, UInt8.add_assoc]

theorem listSum_append (bytes more : List UInt8) :
    listSum (bytes ++ more) = listSum bytes + listSum more := by
  rw [listSum, List.foldl_append, foldl_add]
  rfl

theorem listSum_cons (byte : UInt8) (bytes : List UInt8) :
    listSum (byte :: bytes) = byte + listSum bytes := by
  rw [listSum, List.foldl_cons, foldl_add, UInt8.zero_add]

/-- The sum of some bytes is that of their values modulo 256. -/
theorem toNat_listSum (bytes : List UInt8) :
    (listSum bytes).toNat = (bytes.map UInt8.toNat).sum % 256 := by
  induction bytes with
  | nil => rfl
  | cons byte bytes ih =>
      rw [listSum_cons, UInt8.toNat_add, ih, List.map_cons, List.sum_cons, Nat.add_mod_mod]

theorem sum_eq_iff {bytes : List UInt8} :
    (bytes.map UInt8.toNat).sum % 256 = 0 ↔ listSum bytes = 0 := by
  rw [← toNat_listSum, ← UInt8.toNat_inj]
  rfl

/-- The sum of some bytes, seen from one of them. -/
theorem listSum_middle (front : List UInt8) (byte : UInt8) (back : List UInt8) :
    listSum (front ++ byte :: back) = byte + (listSum front + listSum back) := by
  rw [listSum_append, listSum_cons, ← UInt8.add_assoc, UInt8.add_comm (listSum front),
    UInt8.add_assoc]

/-- Only the negated sum of the others, taken with a zero in its place, brings the sum to zero. -/
theorem listSum_eq_zero_iff (front : List UInt8) (byte : UInt8) (back : List UInt8) :
    listSum (front ++ byte :: back) = 0 ↔ byte = -listSum (front ++ 0 :: back) := by
  rw [listSum_middle, listSum_middle, UInt8.zero_add]
  constructor
  · intro h
    grind
  · rintro rfl
    exact UInt8.add_left_neg _

end Acpi.Checksum
