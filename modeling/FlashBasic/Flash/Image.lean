import FlashBasic.Flash
import FlashBasic.Flash.Crc32
import FlashBasic.Text.LittleEndian

/-!
Flash kept in a file: the image followed by its CRC-32. Every change of the flash is saved;
opening only reads it, and starts from blank flash unless the file holds an intact image of the
right size.
-/

namespace FlashBasic

set_option autoImplicit false

namespace Image

def encode (image : List UInt8) : List UInt8 :=
  image ++ LittleEndian.ofUInt32 (Crc32.checksum image)

/-- The image of `size` bytes in a file, if it is one. -/
def decode? (file : List UInt8) (size : Nat) : Option (List UInt8) :=
  if file.length = size + 4 ∧
      Crc32.checksum (file.take size) = LittleEndian.toUInt32 (file.drop size) then
    some (file.take size)
  else none

end Image

/-- Flash and the file behind it; `none` when there is no file yet. -/
structure FileFlash where
  file : Option (List UInt8)
  flash : Flash
deriving DecidableEq, Repr

namespace FileFlash

def openFile (file : Option (List UInt8)) (size : Nat) : FileFlash where
  file := file
  flash :=
    match file.bind (Image.decode? · size) with
    | some image => ⟨image.toArray⟩
    | none => .blank size

def apply (f : FileFlash) (op : Flash.Op) : FileFlash :=
  let flash := f.flash.apply op
  { file := some (Image.encode flash.bytes.toList), flash }

end FileFlash

end FlashBasic
