import FlashBasic.Host.Recorder
import FlashBasic.Machine.Run
import FlashBasic.Proofs.Line.Typed
import FlashBasic.Proofs.Text
import Mathlib.Data.List.Induction
import Mathlib.Data.Nat.Digits.Defs

/-!
Line numbers. The digits of a line number are counted up in a word that stops growing once it has
left 16 bits, while the digits that follow are still read. What is read is the number written,
whatever its length, or that it is higher than the number of any stored line.

The numbers above that one stand for other things in flash. `Machine.enterWith` takes the way in
which a line is put into the store, and lets a theorem say with which numbers that is done.
-/

namespace FlashBasic

set_option autoImplicit false

/-! ## Digits -/

namespace Cursor

def digitValue (b : UInt8) : Nat := b.toNat - (Ascii.code '0').toNat

/-- The number that decimal digits write. -/
def written (digits : List UInt8) : Nat := Nat.ofDigits 10 (digits.reverse.map digitValue)

/-- `addDigit` on numbers of any size. -/
def countDigit (number : Nat) (b : UInt8) : Nat :=
  if number < 0x10000 then number * 10 + digitValue b else number

theorem written_concat (digits : List UInt8) (b : UInt8) :
    written (digits ++ [b]) = digitValue b + 10 * written digits := by
  rw [written, List.reverse_append, List.reverse_singleton, List.singleton_append, List.map_cons,
    Nat.ofDigits_cons, written]

theorem digitValue_le {b : UInt8} (h : Ascii.isDigit b) : digitValue b ≤ 9 := by
  rw [Ascii.isDigit, Bool.and_eq_true, decide_eq_true_eq, decide_eq_true_eq,
    UInt8.le_iff_toNat_le, UInt8.le_iff_toNat_le] at h
  have hnine : (Ascii.code '9').toNat = 57 := rfl
  have hzero : (Ascii.code '0').toNat = 48 := rfl
  rw [digitValue]
  omega

/-- Adding a digit does not wrap around. -/
theorem toNat_addDigit {number : UInt32} {b : UInt8} (hb : Ascii.isDigit b) :
    (addDigit number b).toNat = countDigit number.toNat b := by
  have hdigit : (b - Ascii.code '0').toUInt32.toNat = digitValue b := by
    rw [Ascii.isDigit, Bool.and_eq_true, decide_eq_true_eq] at hb
    rw [UInt8.toNat_toUInt32, UInt8.toNat_sub_of_le _ _ hb.1, digitValue]
  have hle := digitValue_le hb
  rw [addDigit, countDigit]
  split
  next hlt =>
    have hlt : number.toNat < 0x10000 := UInt32.lt_iff_toNat_lt.mp hlt
    rw [if_pos hlt, UInt32.toNat_add, UInt32.toNat_mul, hdigit]
    have hten : (10 : UInt32).toNat = 10 := rfl
    rw [hten]
    omega
  next hlt =>
    have hlt : ¬ number.toNat < 0x10000 := fun h => hlt (UInt32.lt_iff_toNat_lt.mpr h)
    rw [if_neg hlt]

/-- The word holds at every moment what is counted without a limit. -/
theorem toNat_foldl_addDigit {digits : List UInt8} (h : ∀ b ∈ digits, Ascii.isDigit b) :
    (digits.foldl addDigit 0).toNat = digits.foldl countDigit 0 := by
  induction digits using List.reverseRecOn with
  | nil => rfl
  | append_singleton digits b ih =>
    obtain ⟨hdigits, hb⟩ := List.forall_mem_append.mp h
    rw [List.foldl_append, List.foldl_cons, List.foldl_nil,
      toNat_addDigit (hb b (List.mem_singleton.mpr rfl)), ih hdigits, List.foldl_append]
    rfl

/-- The count is the number written until it has left 16 bits; from then on it stays, and the number
written is no smaller. -/
theorem foldl_countDigit (digits : List UInt8) :
    digits.foldl countDigit 0 = written digits ∨
      0x10000 ≤ digits.foldl countDigit 0 ∧ digits.foldl countDigit 0 ≤ written digits := by
  induction digits using List.reverseRecOn with
  | nil => exact .inl rfl
  | append_singleton digits b ih =>
    rw [List.foldl_append, List.foldl_cons, List.foldl_nil, written_concat, countDigit]
    split <;> omega

theorem lineNumber_run {digits rest : Cursor} (hdigits : ∀ b ∈ digits, Ascii.isDigit b)
    (hrest : ∀ b ∈ rest.head?, Ascii.isDigit b = false) :
    lineNumber (digits ++ rest) =
      (if written digits ≤ 65533 then .ofNat (written digits) else 65535, rest) := by
  have hcount := toNat_foldl_addDigit hdigits
  have hmax : maxLineNumber = 65533 := rfl
  rw [lineNumber, takeWhile_run hdigits hrest, dropWhile_run hdigits hrest, hcount, hmax]
  obtain heq | ⟨hhigh, hle⟩ := foldl_countDigit digits
  · rw [heq] at hcount ⊢
    have hword : (digits.foldl addDigit 0).toUInt16 = .ofNat (written digits) := by
      rw [← hcount]
      rfl
    rw [hword]
    rfl
  · rw [if_neg (by omega), if_neg (by omega)]
    rfl

end Cursor

/-! ## Putting lines into the store -/

namespace Machine

variable {σ : Type} [Host σ] (put? : Store → UInt16 → List UInt8 → Option Store)

/-- Editing puts a line only under its own number. -/
theorem editWith_congr {put?' : Store → UInt16 → List UInt8 → Option Store} {line : Line}
    (h : ∀ s, put? s line.number line.text = put?' s line.number line.text) (m : Machine σ) :
    m.editWith put? line = m.editWith put?' line := by
  have hput : (put? · line.number line.text) = (put?' · line.number line.text) := funext h
  rw [editWith, editWith, hput]

/-- A typed line that has a number is put under a number from 1 to 65533. -/
theorem enterWith_eq
    (h : ∀ s n text, 1 ≤ n → n ≤ 65533 → put? s n text = Store.putLine? s n text) (fuel : Nat)
    (m : Machine σ) (typed : String) : m.enterWith put? fuel typed = m.enter? fuel typed := by
  rw [enter?, enterWith, enterWith]
  cases hparse : Line.parse typed with
  | error e => rfl
  | ok line =>
    dsimp only
    cases hdirect : line.isDirect with
    | true => rfl
    | false =>
      have hone := Line.one_le_of_not_isDirect hdirect
      have hmax := Line.number_le_of_parse hparse
      exact congrArg some (editWith_congr put? (fun s => h s _ _ hone hmax) m)

/-- A run of digits of any length is read whole, and exactly: it gives the number written, or 65535
if that is above 65533. So no line has the number 65534 or 65535, and no line is put into the store
under one of them: it makes no difference what putting it there would do. -/
theorem line_numbers_read :
    (∀ digits rest : Cursor, (∀ b ∈ digits, Ascii.isDigit b) →
      (∀ b ∈ rest.head?, Ascii.isDigit b = false) →
      Cursor.lineNumber (digits ++ rest) =
          (if Cursor.written digits ≤ 65533 then .ofNat (Cursor.written digits) else 65535, rest) ∧
        ∀ first, first <+: digits →
          (first.foldl Cursor.addDigit 0).toNat = first.foldl Cursor.countDigit 0) ∧
    (∀ typed line, Line.parse typed = .ok line → line.number.toNat ≤ 65533) ∧
    ∀ put? : Store → UInt16 → List UInt8 → Option Store,
      (∀ s n text, 1 ≤ n → n ≤ 65533 → put? s n text = Store.putLine? s n text) →
      ∀ (fuel : Nat) (m : Machine σ) (typed : String),
        m.enterWith put? fuel typed = m.enter? fuel typed := by
  refine ⟨?_, ?_, fun put? h => enterWith_eq put? h⟩
  · intro digits rest hdigits hrest
    refine ⟨Cursor.lineNumber_run hdigits hrest, ?_⟩
    intro first hfirst
    exact Cursor.toNat_foldl_addDigit fun b hb => hdigits b (hfirst.subset hb)
  · intro typed line hparse
    exact UInt16.le_iff_toNat_le.mp (Line.number_le_of_parse hparse)

/-- The highest number, written with leading zeros, and a store that refuses the numbers it must not
be given. -/
theorem line_numbers_read_leading_zeros :
    let digits : Cursor := [48, 48, 54, 53, 53, 51, 51]
    let rest : Cursor := [65, 10]
    let put? (s : Store) (n : UInt16) (text : List UInt8) : Option Store :=
      if 1 ≤ n ∧ n ≤ 65533 then s.putLine? n text else none
    let m : Machine Recorder := boot { pages := 1, pageSize := 36, arenaSize := 128 } (.blank 36) {}
    (∀ b ∈ digits, Ascii.isDigit b) ∧ (∀ b ∈ rest.head?, Ascii.isDigit b = false) ∧
      Cursor.lineNumber (digits ++ rest) = (65533, rest) ∧
      (∀ s n text, 1 ≤ n → n ≤ 65533 → put? s n text = Store.putLine? s n text) ∧
      m.enterWith put? 0 "0065533A=1" = m.enter? 0 "0065533A=1" ∧
      (m.enter? 0 "0065533A=1").map (·.2.store.ids) = some [65533] := by
  intro digits rest put? m
  obtain ⟨hread, -, hput⟩ := line_numbers_read (σ := Recorder)
  have hdigits : ∀ b ∈ digits, Ascii.isDigit b := by decide +kernel
  have hrest : ∀ b ∈ rest.head?, Ascii.isDigit b = false := by decide +kernel
  have hagree : ∀ s n text, 1 ≤ n → n ≤ 65533 → put? s n text = Store.putLine? s n text :=
    fun s n text hone hmax => if_pos ⟨hone, hmax⟩
  exact ⟨hdigits, hrest, (hread digits rest hdigits hrest).1, hagree, hput put? hagree 0 m _,
    by decide +kernel⟩

end Machine

end FlashBasic
