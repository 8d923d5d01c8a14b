/-!
The CRC-32 checksum with the reflected polynomial 0xEDB88320, starting from all ones and inverted
at the end.
-/

namespace FlashBasic.Crc32

set_option autoImplicit false

def polynomial : UInt32 := 0xEDB88320

/-- Divides out one bit. -/
def shift (crc : UInt32) : UInt32 :=
  if crc &&& 1 = 1 then (crc >>> 1) ^^^ polynomial else crc >>> 1

def shifts : Nat → UInt32 → UInt32
  | 0, crc => crc
  | n + 1, crc => shifts n (shift crc)

/-- Takes in one byte, lowest bit first. -/
def feed (crc : UInt32) (b : UInt8) : UInt32 := shifts 8 (crc ^^^ b.toUInt32)

def checksum (bytes : List UInt8) : UInt32 :=
  bytes.foldl feed 0xFFFFFFFF ^^^ 0xFFFFFFFF

end FlashBasic.Crc32
