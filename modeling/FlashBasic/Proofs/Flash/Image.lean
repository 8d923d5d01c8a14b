import FlashBasic.Flash.Image
import Mathlib.Logic.Function.Basic

/-!
Images of flash in files. The shift of the checksum can be undone, since the bit that comes in at the
top tells which bit went out at the bottom. So two images that differ in one byte have different
checksums, and a file with one changed byte is refused (`Image.decode?_changed_byte`).

Reading accepts exactly the files that writing produces (`Image.decode?_eq_some_iff`). Flash that is
saved after every change is therefore found again as it was (`FileFlash.saved_after_each_change`).
-/

namespace FlashBasic

set_option autoImplicit false

/-! ## The checksum -/

namespace Crc32

theorem low_bit (crc : UInt32) : crc &&& 1 = 1 ↔ crc.toBitVec[0] = true := by
  have hand : (crc &&& 1).toBitVec = (BitVec.ofBool crc.toBitVec[0]).setWidth 32 :=
    (UInt32.toBitVec_and ..).trans BitVec.and_one_eq_setWidth_ofBool_getLsbD
  rw [← UInt32.toBitVec_inj, hand]
  cases crc.toBitVec[0] <;> decide

/-- The polynomial has its top bit set, so the bit that went out comes in there. -/
theorem top_bit_shift (crc : UInt32) : (shift crc).toBitVec[31] = crc.toBitVec[0] := by
  have hpolynomial : polynomial.toBitVec[31] = true := by decide
  unfold shift
  split
  next h => simp [(low_bit crc).mp h, hpolynomial]
  next h => simp [Bool.eq_false_iff.mpr (mt (low_bit crc).mpr h)]

theorem shift_injective : Function.Injective shift := by
  intro a b h
  have hlow : a.toBitVec[0] = b.toBitVec[0] := by
    rw [← top_bit_shift, ← top_bit_shift, h]
  have hrest : a >>> 1 = b >>> 1 := by
    simp only [shift, low_bit, hlow] at h
    split at h
    · exact (UInt32.xor_left_inj _).mp h
    · exact h
  apply UInt32.toBitVec_inj.mp
  apply BitVec.eq_of_getLsbD_eq
  intro i _
  cases i with
  | zero => exact hlow
  | succ i =>
    have hbit := congrArg (·.toBitVec.getLsbD i) hrest
    simpa [Nat.add_comm 1 i] using hbit

theorem shifts_injective (n : Nat) : Function.Injective (shifts n) := by
  induction n with
  | zero => exact fun _ _ h => h
  | succ n ih => exact ih.comp shift_injective

theorem feed_left_injective (b : UInt8) : Function.Injective (feed · b) := fun _ _ h =>
  (UInt32.xor_left_inj _).mp (shifts_injective 8 h)

theorem feed_right_injective (crc : UInt32) : Function.Injective (feed crc) := fun _ _ h =>
  UInt8.toUInt32_inj.mp ((UInt32.xor_right_inj _).mp (shifts_injective 8 h))

theorem foldl_feed_injective (bytes : List UInt8) :
    Function.Injective fun crc => bytes.foldl feed crc := by
  induction bytes with
  | nil => exact fun _ _ h => h
  | cons b bytes ih => exact ih.comp (feed_left_injective b)

/-- What follows a byte cannot make up for a change of it. -/
theorem checksum_append_cons_inj {before after : List UInt8} {b b' : UInt8} :
    checksum (before ++ b :: after) = checksum (before ++ b' :: after) ↔ b = b' := by
  refine ⟨fun h => ?_, fun h => by rw [h]⟩
  have hfold := (UInt32.xor_left_inj _).mp h
  rw [List.foldl_append, List.foldl_append, List.foldl_cons, List.foldl_cons] at hfold
  exact feed_right_injective _ (foldl_feed_injective after hfold)

theorem checksum_set_eq_iff {bytes : List UInt8} {i : Nat} (hi : i < bytes.length) {b : UInt8} :
    checksum (bytes.set i b) = checksum bytes ↔ b = bytes[i] := by
  have hsplit (b : UInt8) : bytes.set i b = bytes.take i ++ b :: bytes.drop (i + 1) := by
    rw [List.set_eq_take_append_cons_drop, if_pos hi]
  rw [← checksum_append_cons_inj, ← hsplit, ← hsplit, List.set_getElem_self]

end Crc32

/-! ## Images and files -/

namespace Image

variable {image file : List UInt8} {size : Nat}

theorem length_encode (image : List UInt8) : (encode image).length = image.length + 4 := by
  rw [encode, List.length_append, LittleEndian.length_ofUInt32]

theorem decode?_encode (image : List UInt8) : decode? (encode image) image.length = some image := by
  have hfooter := LittleEndian.toUInt32_ofUInt32 (Crc32.checksum image) []
  rw [List.append_nil] at hfooter
  rw [decode?, encode, List.take_left, List.drop_left, hfooter, if_pos ⟨length_encode image, rfl⟩]

theorem eq_encode_of_decode? (h : decode? file size = some image) :
    image.length = size ∧ file = encode image := by
  unfold decode? at h
  split at h
  next hfile =>
    obtain ⟨hlength, hchecksum⟩ := hfile
    obtain rfl := Option.some.inj h
    refine ⟨by rw [List.length_take]; omega, ?_⟩
    have hfooter : (file.drop size).length = 4 := by rw [List.length_drop]; omega
    rw [encode, hchecksum, LittleEndian.ofUInt32_toUInt32_of_length hfooter, List.take_append_drop]
  next => cases h

/-- Reading accepts exactly what writing produces. -/
theorem decode?_eq_some_iff :
    decode? file size = some image ↔ image.length = size ∧ file = encode image := by
  refine ⟨eq_encode_of_decode?, ?_⟩
  rintro ⟨rfl, rfl⟩
  exact decode?_encode image

/-- Every change of one byte of a file shows, be it in the image or in the checksum. -/
theorem decode?_changed_byte {i : Nat} {b : UInt8} (hi : i < (encode image).length)
    (hb : (encode image)[i] ≠ b) : decode? ((encode image).set i b) image.length = none := by
  rw [Option.eq_none_iff_forall_ne_some]
  intro image' h
  obtain ⟨hlength, hfile⟩ := eq_encode_of_decode? h
  obtain hinside | hfooter := Nat.lt_or_ge i image.length
  · -- The checksum in the file is still that of the old image.
    rw [encode, List.set_append_left _ _ hinside] at hfile
    obtain ⟨rfl, hchecksum⟩ := List.append_inj hfile (by rw [List.length_set, hlength])
    have hsame := (LittleEndian.ofUInt32_inj.mp hchecksum).symm
    refine hb (.trans ?_ ((Crc32.checksum_set_eq_iff hinside).mp hsame).symm)
    exact List.getElem_append_left hinside
  · -- The image is still the old one, so the whole file would be.
    have hsplit := hfile
    rw [encode, List.set_append_right _ _ hfooter] at hsplit
    obtain ⟨rfl, -⟩ := List.append_inj hsplit hlength.symm
    have hbyte := List.getElem_set_self (by rwa [List.length_set]) (a := b) (l := encode image) (i := i)
    simp only [hfile] at hbyte
    exact hb hbyte

/-- In a file with the image of four written and four erased bytes, a byte of the image and a byte of
the checksum are changed. -/
theorem decode?_changed_byte_twice :
    let file := encode [1, 2, 3, 4, 0xFF, 0xFF, 0xFF, 0xFF]
    ∃ (h : 2 < file.length) (h' : 10 < file.length), file[2] ≠ 2 ∧ file[10] ≠ 0 ∧
      decode? (file.set 2 2) 8 = none ∧ decode? (file.set 10 0) 8 = none := by
  intro file
  have h : 2 < file.length := by decide
  have h' : 10 < file.length := by decide
  have hb : file[2] ≠ 2 := by decide +revert
  have hb' : file[10] ≠ 0 := by decide +revert +kernel
  exact ⟨h, h', hb, hb', decode?_changed_byte h hb, decode?_changed_byte h' hb'⟩

end Image

/-! ## Flash kept in a file -/

namespace FileFlash

/-- Changes flash step by step, and saves it after each. -/
def applyAll (f : FileFlash) (ops : List Flash.Op) : FileFlash := ops.foldl apply f

/-- The file has no part in what becomes of flash. -/
theorem flash_applyAll (f : FileFlash) (ops : List Flash.Op) :
    (f.applyAll ops).flash = f.flash.applyAll ops := by
  induction ops generalizing f with
  | nil => rfl
  | cons op ops ih => exact ih (f.apply op)

theorem flash_openFile_of_decode? {file image : List UInt8} {size : Nat}
    (h : Image.decode? file size = some image) :
    (openFile (some file) size).flash = ⟨image.toArray⟩ := by
  rw [openFile, Option.bind_some, h]

theorem flash_openFile_of_forall_ne {file : Option (List UInt8)} {size : Nat}
    (h : ∀ image, image.length = size → file ≠ some (Image.encode image)) :
    (openFile file size).flash = .blank size := by
  have hnone : file.bind (Image.decode? · size) = none := by
    rw [Option.bind_eq_none_iff]
    rintro file rfl
    rw [Option.eq_none_iff_forall_ne_some]
    intro image hdecode
    obtain ⟨hlength, rfl⟩ := Image.eq_encode_of_decode? hdecode
    exact h image hlength rfl
  rw [openFile, hnone]

theorem size_openFile (file : Option (List UInt8)) (size : Nat) :
    (openFile file size).flash.size = size := by
  unfold openFile
  dsimp only
  split
  next image h =>
    obtain ⟨bytes, -, hdecode⟩ := Option.bind_eq_some_iff.mp h
    exact (Image.eq_encode_of_decode? hdecode).1
  next => exact Array.size_replicate

/-- What was saved last is found again. -/
theorem openFile_apply (f : FileFlash) (op : Flash.Op) :
    openFile (f.apply op).file f.flash.size = f.apply op := by
  have hlength : (f.flash.apply op).bytes.toList.length = f.flash.size := by
    rw [Array.length_toList]
    exact Flash.size_apply f.flash op
  have hdecode := Image.decode?_encode (f.flash.apply op).bytes.toList
  rw [hlength] at hdecode
  have hflash := flash_openFile_of_decode? hdecode
  rw [Array.toArray_toList] at hflash
  exact congrArg (FileFlash.mk _) hflash

/-- After every change the file holds the image of flash, whose bytes are those that the changes make
of it in memory, and opening the file leads back to it. A file is accepted only if it is written so;
flash starts out erased from all others, and where there is no file. -/
theorem saved_after_each_change (file : Option (List UInt8)) (size : Nat) :
    (∀ (ops : List Flash.Op) (op : Flash.Op),
      let f := ((openFile file size).applyAll ops).apply op
      f.flash = ((openFile file size).flash.applyAll ops).apply op ∧
        f.file = some (Image.encode f.flash.bytes.toList) ∧ openFile f.file size = f) ∧
    (∀ bytes image, Image.decode? bytes size = some image ↔
      image.length = size ∧ bytes = Image.encode image) ∧
    ((∀ image, image.length = size → file ≠ some (Image.encode image)) →
      (openFile file size).flash.bytes.toList = List.replicate size 0xFF) := by
  refine ⟨fun ops op => ?_, fun bytes image => Image.decode?_eq_some_iff, fun h => ?_⟩
  · have hflash := flash_applyAll (openFile file size) ops
    have hsize : ((openFile file size).applyAll ops).flash.size = size := by
      rw [hflash, Flash.size_applyAll, size_openFile]
    refine ⟨congrArg (Flash.apply · op) hflash, rfl, ?_⟩
    have hfound := openFile_apply ((openFile file size).applyAll ops) op
    rwa [hsize] at hfound
  · rw [flash_openFile_of_forall_ne h]
    exact Array.toList_replicate

end FileFlash

end FlashBasic
