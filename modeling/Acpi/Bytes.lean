/-!
# Runs of one byte

Buffers start out as runs of one byte.  `Bytes.fill` builds them in one packed array, so that a run
of many megabytes stays cheap; `toList_fill` says what it holds.
-/

namespace Acpi.Bytes

/-- Appends `count` copies of a byte. -/
def pushMany (byte : UInt8) : Nat → ByteArray → ByteArray
  | 0, bytes => bytes
  | count + 1, bytes => pushMany byte count (bytes.push byte)

/-- A run of `count` copies of a byte. -/
def fill (count : Nat) (byte : UInt8) : ByteArray :=
  pushMany byte count (ByteArray.emptyWithCapacity count)

theorem toList_pushMany (byte : UInt8) (count : Nat) (bytes : ByteArray) :
    (pushMany byte count bytes).data.toList = bytes.data.toList ++ List.replicate count byte := by
  induction count generalizing bytes with
  | zero => simp [pushMany]
  | succ count ih =>
      have hPush : (bytes.push byte).data.toList = bytes.data.toList ++ [byte] := Array.toList_push
      rw [pushMany, ih, hPush, List.replicate_succ, List.append_assoc, List.singleton_append]

theorem toList_fill (count : Nat) (byte : UInt8) :
    (fill count byte).data.toList = List.replicate count byte := by
  rw [fill, toList_pushMany]
  exact List.nil_append _

theorem size_fill (count : Nat) (byte : UInt8) : (fill count byte).size = count := by
  show (fill count byte).data.toList.length = count
  rw [toList_fill, List.length_replicate]

end Acpi.Bytes
