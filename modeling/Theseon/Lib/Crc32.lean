import Theseon.Lib.Bytes

/-!
# CRC-32

The checksum `crc32.ChecksumIEEE`: the reflected polynomial `0xEDB88320`, one
bit at a time, with the register inverted before and after.
-/

namespace Theseon.Lib

/-- The shift register after one bit. -/
def crcBit (crc : UInt32) : UInt32 :=
  if crc &&& 1 = 1 then (crc >>> 1) ^^^ 0xEDB88320 else crc >>> 1

/-- The shift register after one byte. -/
def crcByte (crc : UInt32) (byte : UInt8) : UInt32 :=
  (List.range 8).foldl (fun crc _ => crcBit crc) (crc ^^^ byte.toUInt32)

/-- The checksum of a byte string. -/
def crc32 (bytes : Bytes) : UInt32 :=
  bytes.foldl crcByte 0xFFFFFFFF ^^^ 0xFFFFFFFF

-- the check value of the algorithm, for the digits 1 to 9
example : crc32 [49, 50, 51, 52, 53, 54, 55, 56, 57] = 0xCBF43926 := by
  decide +kernel

end Theseon.Lib
