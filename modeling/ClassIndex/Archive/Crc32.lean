/-
The CRC-32 checksum of archives: the reflected polynomial `EDB88320`, with all
bits set at the start and inverted at the end.
-/

namespace ClassIndex
namespace Crc32

/-- Shifts one bit out. -/
def shift (crc : UInt32) : UInt32 :=
  if crc &&& 1 = 1 then (crc >>> 1) ^^^ 0xEDB88320 else crc >>> 1

/-- Takes one byte in. -/
def feed (crc : UInt32) (b : UInt8) : UInt32 :=
  Nat.repeat shift 8 (crc ^^^ b.toUInt32)

def checksum (bs : List UInt8) : UInt32 :=
  bs.foldl feed 0xFFFFFFFF ^^^ 0xFFFFFFFF

end Crc32
end ClassIndex
