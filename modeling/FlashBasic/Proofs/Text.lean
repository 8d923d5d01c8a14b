import FlashBasic.Cursor
import FlashBasic.Text.Utf8
import Mathlib.Tactic.Common

/-!
Strings of ASCII characters and their bytes. Bytes below 0x80 are decoded to a string that has those
bytes, and the decimal digits of a line number are read back as that number.
-/

namespace FlashBasic

set_option autoImplicit false

section

variable {p : UInt8 → Bool} {text : List UInt8}

theorem dropWhile_of_head (h : ∀ a ∈ text.head?, p a = false) : text.dropWhile p = text := by
  cases text with
  | nil => rfl
  | cons a text => rw [List.dropWhile_cons_of_neg (by simp [h a rfl])]

theorem takeWhile_run {run rest : List UInt8} (hrun : ∀ a ∈ run, p a = true)
    (hrest : ∀ a ∈ rest.head?, p a = false) : (run ++ rest).takeWhile p = run := by
  rw [List.takeWhile_append_of_pos hrun]
  cases rest with
  | nil => simp
  | cons a rest => rw [List.takeWhile_cons_of_neg (by simp [hrest a rfl]), List.append_nil]

theorem dropWhile_run {run rest : List UInt8} (hrun : ∀ a ∈ run, p a = true)
    (hrest : ∀ a ∈ rest.head?, p a = false) : (run ++ rest).dropWhile p = rest := by
  rw [List.dropWhile_append_of_pos hrun, dropWhile_of_head hrest]

theorem head_dropWhile (p : UInt8 → Bool) (text : List UInt8) :
    ∀ a ∈ (text.dropWhile p).head?, p a = false := by
  intro a ha
  have hhead := List.head?_dropWhile_not p text
  rwa [Option.mem_def.mp ha] at hhead

end

namespace Ascii

theorem bytes_append (s t : String) : bytes (s ++ t) = bytes s ++ bytes t := by
  simp [bytes, String.toUTF8]

theorem bytes_ofList {cs : List Char} (h : ∀ c ∈ cs, c.toNat < 0x80) :
    bytes (String.ofList cs) = cs.map code := by
  simp only [bytes, String.toUTF8_eq_toByteArray, String.toByteArray_ofList]
  induction cs with
  | nil => rfl
  | cons c cs ih =>
    obtain ⟨hc, hcs⟩ := List.forall_mem_cons.mp h
    have hsize : c.utf8Size = 1 := by
      rw [Char.utf8Size_eq_one_iff, UInt32.le_iff_toNat_le]
      exact Nat.le_of_lt_succ hc
    have hcode : c.val.toUInt8 = code c := rfl
    rw [List.utf8Encode_cons, List.utf8Encode_singleton, String.utf8EncodeChar_eq_singleton hsize,
      List.map_cons, ← ih hcs, ← hcode]
    simp

end Ascii

namespace Utf8

theorem decodeFrom_ascii {bytes : List UInt8} (h : ∀ b ∈ bytes, b < 0x80) :
    decodeFrom bytes.length bytes = bytes.map fun b => Char.ofNat b.toNat := by
  induction bytes with
  | nil => rfl
  | cons b bytes ih =>
    obtain ⟨hb, hbytes⟩ := List.forall_mem_cons.mp h
    have hlead : lead? b = some { bits := b.toNat, following := 0 } := if_pos hb
    rw [List.length_cons, decodeFrom, hlead]
    simp [continuation, ih hbytes]

theorem toNat_ofNat_byte {b : UInt8} (h : b < 0x80) : (Char.ofNat b.toNat).toNat = b.toNat := by
  have hvalid : b.toNat.isValidChar := .inl (Nat.lt_trans (UInt8.lt_iff_toNat_lt.mp h) (by decide))
  rw [Char.ofNat, dif_pos hvalid]
  rfl

theorem bytes_decodeLossy {bytes : List UInt8} (h : ∀ b ∈ bytes, b < 0x80) :
    Ascii.bytes (decodeLossy bytes) = bytes := by
  have hlow : ∀ c ∈ bytes.map fun b => Char.ofNat b.toNat, c.toNat < 0x80 := by
    rintro c hc
    obtain ⟨b, hb, rfl⟩ := List.mem_map.mp hc
    rw [toNat_ofNat_byte (h b hb)]
    exact UInt8.lt_iff_toNat_lt.mp (h b hb)
  rw [decodeLossy, decodeFrom_ascii h, Ascii.bytes_ofList hlow, List.map_map]
  conv_rhs => rw [← List.map_id bytes]
  refine List.map_congr_left fun b hb => ?_
  simp [Ascii.code, toNat_ofNat_byte (h b hb)]

end Utf8

namespace Cursor

/-- The digits of a line number, as they are listed. -/
def decimal (n : Nat) : List UInt8 := (Nat.toDigits 10 n).map Ascii.code

theorem isDigit_toDigits {n : Nat} {c : Char} (hc : c ∈ Nat.toDigits 10 n) :
    48 ≤ c.toNat ∧ c.toNat ≤ 57 := by
  have hdigit := Nat.isDigit_of_mem_toDigits (by decide) (by decide) hc
  simpa [Char.isDigit, UInt32.le_iff_toNat_le] using hdigit

theorem bytes_toString (n : Nat) : Ascii.bytes (toString n) = decimal n := by
  rw [Nat.toString_eq_repr, Nat.repr_eq_ofList_toDigits, Ascii.bytes_ofList, decimal]
  intro c hc
  have hc := isDigit_toDigits hc
  omega

theorem isDigit_of_mem_decimal {n : Nat} : ∀ b ∈ decimal n, Ascii.isDigit b = true := by
  intro b hb
  obtain ⟨c, hc, rfl⟩ := List.mem_map.mp hb
  obtain ⟨hle, hge⟩ := isDigit_toDigits hc
  have hbyte : (Ascii.code c).toNat = c.toNat := Nat.mod_eq_of_lt (by omega)
  simp only [Ascii.isDigit, UInt8.le_iff_toNat_le, hbyte, Bool.and_eq_true, decide_eq_true_eq]
  exact ⟨hle, hge⟩

theorem decimal_ne_nil (n : Nat) : decimal n ≠ [] := by
  simp [decimal]

theorem addDigit_digitChar {n d : Nat} (hn : n < 0x10000) (hd : d < 10) :
    addDigit (.ofNat n) (Ascii.code d.digitChar) = .ofNat (n * 10 + d) := by
  have hdigits : ∀ d : Fin 10,
      (Ascii.code (Nat.digitChar d) - Ascii.code '0').toUInt32 = .ofNat d := by decide
  have hlt : UInt32.ofNat n < 0x10000 := by
    rw [UInt32.lt_iff_toNat_lt, UInt32.toNat_ofNat_of_lt' (Nat.lt_trans hn (by decide))]
    exact hn
  rw [addDigit, if_pos hlt, hdigits ⟨d, hd⟩, UInt32.ofNat_add, UInt32.ofNat_mul]
  rfl

/-- The digits of a number give the number. -/
theorem foldl_decimal {n : Nat} (h : n < 0x10000) :
    (decimal n).foldl addDigit 0 = .ofNat n := by
  induction n using Nat.strongRecOn with
  | ind n ih =>
    rw [decimal, Nat.toDigits_eq_if (by decide)]
    split
    next hn => simpa using addDigit_digitChar (n := 0) (by decide) hn
    next hn =>
      rw [List.map_append, List.foldl_append, ← decimal, ih (n / 10) (by omega) (by omega),
        List.map_singleton, List.foldl_cons, List.foldl_nil,
        addDigit_digitChar (by omega) (Nat.mod_lt _ (by decide)), Nat.div_add_mod']

theorem lineNumber_decimal {n : UInt16} (hn : n ≤ 0xFFFD) {rest : Cursor}
    (hrest : ∀ a ∈ rest.head?, Ascii.isDigit a = false) :
    lineNumber (decimal n.toNat ++ rest) = (n, rest) := by
  have hle : n.toNat ≤ maxLineNumber := UInt16.le_iff_toNat_le.mp hn
  have hnumber : (UInt32.ofNat n.toNat).toNat = n.toNat :=
    UInt32.toNat_ofNat_of_lt' (Nat.lt_trans n.toNat_lt (by decide))
  rw [lineNumber, takeWhile_run isDigit_of_mem_decimal hrest,
    dropWhile_run isDigit_of_mem_decimal hrest, foldl_decimal n.toNat_lt, hnumber, if_pos hle]
  simp

end Cursor

end FlashBasic
