/-!
# Checksums

The bytes of a table add up to zero modulo 256.  The checksum of a table is the byte that makes it
so when it stands where a zero stood.
-/

namespace Acpi.Checksum

/-- The sum of all bytes modulo 256. -/
def sum (bytes : ByteArray) : UInt8 := bytes.data.foldl (· + ·) 0

/-- The byte that brings the sum to zero. -/
def compute (bytes : ByteArray) : UInt8 := -sum bytes

/-- Whether the bytes add up to zero. -/
def isValid (bytes : ByteArray) : Bool := compute bytes == 0

end Acpi.Checksum
