/-!
# The checksum of zip files

The cyclic redundancy check with 32 bits, as zip files use it: the polynomial `0xEDB88320` with the
lowest bit first.
-/

namespace Flipbook.Zip

/-- Shifts out one bit. -/
def shiftBit (crc : UInt32) : UInt32 :=
  if crc % 2 = 1 then (crc / 2) ^^^ 0xEDB88320 else crc / 2

/-- Shifts out the bits of a byte. -/
def shiftByte (crc : UInt32) (byte : UInt8) : UInt32 :=
  (List.range 8).foldl (fun crc _ => shiftBit crc) (crc ^^^ byte.toUInt32)

/-- The checksum of some bytes. -/
def checksum (bytes : List UInt8) : UInt32 :=
  bytes.foldl shiftByte 0xFFFFFFFF ^^^ 0xFFFFFFFF

end Flipbook.Zip
