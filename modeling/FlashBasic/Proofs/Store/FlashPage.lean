import FlashBasic.Store.Basic
import Mathlib.Data.List.GetD

/-!
What erasing and writing do to the pages of flash. A write that stays within one page combines the
bytes it covers and leaves every other page alone; the statements give the page as a list cut where
the write begins and ends.
-/

namespace FlashBasic

set_option autoImplicit false

/-! ## Runs of bytes -/

theorem Memory.getElem?_slice (mem : Array UInt8) (addr length i : Nat) :
    (Memory.slice mem addr length)[i]? = if i < length then mem[addr + i]? else none := by
  rw [Memory.slice, Array.getElem?_toList, Array.getElem?_extract]
  by_cases hi : i < length
  · rw [if_pos hi]
    split
    · rfl
    · rename_i hlt
      rw [Array.getElem?_eq_none (by omega)]
  · rw [if_neg hi, if_neg (by omega)]

theorem Memory.length_slice (mem : Array UInt8) (addr length : Nat) (h : addr + length ≤ mem.size) :
    (Memory.slice mem addr length).length = length := by
  rw [Memory.slice, Array.length_toList, Array.size_extract]
  omega

namespace Flash

theorem getElem?_slice (f : Flash) (addr length i : Nat) :
    (f.slice addr length)[i]? = if i < length then f.bytes[addr + i]? else none :=
  Memory.getElem?_slice f.bytes addr length i

/-- A run of bytes within a run of bytes. -/
theorem slice_slice (f : Flash) (addr total offset length : Nat) (h : offset + length ≤ total) :
    f.slice (addr + offset) length = ((f.slice addr total).drop offset).take length := by
  apply List.ext_getElem?
  intro k
  rw [getElem?_slice, List.getElem?_take, List.getElem?_drop, getElem?_slice]
  by_cases hk : k < length
  · rw [if_pos hk, if_pos hk, if_pos (by omega), Nat.add_assoc]
  · rw [if_neg hk, if_neg hk]

theorem slice_add (f : Flash) (addr m n : Nat) :
    f.slice addr (m + n) = f.slice addr m ++ f.slice (addr + m) n := by
  have hfirst := f.slice_slice addr (m + n) 0 m (by omega)
  have hsecond := f.slice_slice addr (m + n) m n (Nat.le_refl _)
  rw [Nat.add_zero, List.drop_zero] at hfirst
  have hlen : ((f.slice addr (m + n)).drop m).length ≤ n := by
    rw [List.length_drop, slice, Memory.slice, Array.length_toList, Array.size_extract]
    omega
  rw [hfirst, hsecond, List.take_of_length_le hlen, List.take_append_drop]

/-- A run of bytes outside of what is written stays. -/
theorem slice_write_of_disjoint (f : Flash) (addr at' length : Nat) (bytes : List UInt8)
    (h : at' + length ≤ addr ∨ addr + bytes.length ≤ at') :
    (f.write addr bytes).slice at' length = f.slice at' length := by
  apply List.ext_getElem?
  intro i
  rw [getElem?_slice, getElem?_slice, write, Memory.getElem?_combine]
  by_cases hi : i < length
  · rw [if_pos hi, if_pos hi, if_neg (by omega)]
  · rw [if_neg hi, if_neg hi]

theorem getElem?_slice_write (f : Flash) (addr offset length i : Nat) (bytes : List UInt8) :
    ((f.write (addr + offset) bytes).slice addr length)[i]? =
      if offset ≤ i ∧ i < offset + bytes.length then
        ((f.slice addr length)[i]?).map (· &&& bytes.getD (i - offset) 0)
      else (f.slice addr length)[i]? := by
  rw [getElem?_slice, getElem?_slice, write, Memory.getElem?_combine]
  by_cases hi : i < length
  · rw [if_pos hi, if_pos hi]
    by_cases hin : offset ≤ i ∧ i < offset + bytes.length
    · rw [if_pos hin, if_pos (by omega), show addr + i - (addr + offset) = i - offset by omega]
    · rw [if_neg hin, if_neg (by omega)]
  · rw [if_neg hi, if_neg hi]
    simp

/-- A write within a run of bytes combines what it covers. -/
theorem slice_write (f : Flash) (addr length : Nat) (before covered after bytes : List UInt8)
    (h : f.slice addr length = before ++ covered ++ after) (hlen : covered.length = bytes.length) :
    (f.write (addr + before.length) bytes).slice addr length =
      before ++ List.zipWith (· &&& ·) covered bytes ++ after := by
  apply List.ext_getElem?
  intro i
  rw [getElem?_slice_write, h]
  have hzip : (List.zipWith (· &&& ·) covered bytes).length = bytes.length := by
    rw [List.length_zipWith, hlen, Nat.min_self]
  rcases Nat.lt_or_ge i before.length with hi | hi
  · rw [if_neg (by omega), List.append_assoc, List.append_assoc, List.getElem?_append_left hi,
      List.getElem?_append_left hi]
  · rw [List.append_assoc, List.append_assoc, List.getElem?_append_right hi,
      List.getElem?_append_right hi]
    rcases Nat.lt_or_ge (i - before.length) bytes.length with hc | hc
    · rw [if_pos (by omega), List.getElem?_append_left (by omega),
        List.getElem?_append_left (by omega), List.getElem?_zipWith,
        List.getElem?_eq_getElem (show i - before.length < covered.length by omega),
        List.getElem?_eq_getElem hc, List.getD_eq_getElem _ _ hc]
      rfl
    · rw [if_neg (by omega), List.getElem?_append_right (by omega),
        List.getElem?_append_right (by omega), hzip, hlen]

theorem getElem?_slice_erase (f : Flash) (pageSize p addr length i : Nat) :
    ((f.erase p pageSize).slice addr length)[i]? =
      if p * pageSize ≤ addr + i ∧ addr + i < p * pageSize + pageSize then
        ((f.slice addr length)[i]?).map fun _ => erased
      else (f.slice addr length)[i]? := by
  rw [getElem?_slice, getElem?_slice, erase, Memory.overwrite, Memory.getElem?_combine,
    List.length_replicate]
  by_cases hi : i < length
  · rw [if_pos hi, if_pos hi]
    split
    · rename_i hin
      congr 1
      funext old
      rw [List.getD_eq_getElem _ _ (by rw [List.length_replicate]; omega), List.getElem_replicate]
    · rfl
  · rw [if_neg hi, if_neg hi]
    simp

/-! ## Pages -/

/-- The number of whole pages. -/
def pageCount (f : Flash) (pageSize : Nat) : Nat := f.size / pageSize

theorem pageCount_congr {f f' : Flash} (h : f'.size = f.size) (pageSize : Nat) :
    f'.pageCount pageSize = f.pageCount pageSize := by
  rw [pageCount, h, pageCount]

theorem page_end_le (f : Flash) {pageSize p : Nat} (hp : p < f.pageCount pageSize) :
    p * pageSize + pageSize ≤ f.size := by
  have hle : (p + 1) * pageSize ≤ f.size :=
    Nat.le_trans (Nat.mul_le_mul_right pageSize hp) (Nat.div_mul_le_self f.size pageSize)
  rwa [Nat.succ_mul] at hle

theorem length_page (f : Flash) {pageSize p : Nat} (hp : p < f.pageCount pageSize) :
    (f.page pageSize p).length = pageSize :=
  Memory.length_slice f.bytes _ _ (f.page_end_le hp)

/-- A run of bytes within a page. -/
theorem slice_page (f : Flash) (pageSize p offset length : Nat)
    (h : offset + length ≤ pageSize) :
    f.slice (p * pageSize + offset) length = ((f.page pageSize p).drop offset).take length :=
  f.slice_slice _ pageSize offset length h

/-- The page and the offset of an address. -/
theorem address_div_mod {pageSize o : Nat} (p : Nat) (ho : o < pageSize) :
    (p * pageSize + o) / pageSize = p ∧ (p * pageSize + o) % pageSize = o := by
  constructor
  · rw [Nat.mul_comm, Nat.mul_add_div (by omega), Nat.div_eq_of_lt ho, Nat.add_zero]
  · rw [Nat.mul_comm, Nat.mul_add_mod, Nat.mod_eq_of_lt ho]

/-- Different pages do not overlap. -/
theorem page_disjoint (pageSize : Nat) {p q : Nat} (h : p ≠ q) :
    p * pageSize + pageSize ≤ q * pageSize ∨ q * pageSize + pageSize ≤ p * pageSize := by
  rcases Nat.lt_or_gt_of_ne h with hlt | hlt
  · left
    rw [← Nat.succ_mul]
    exact Nat.mul_le_mul_right pageSize hlt
  · right
    rw [← Nat.succ_mul]
    exact Nat.mul_le_mul_right pageSize hlt

theorem page_write_other (f : Flash) (pageSize p q offset : Nat) (bytes : List UInt8) (h : p ≠ q)
    (hin : offset + bytes.length ≤ pageSize) :
    (f.write (q * pageSize + offset) bytes).page pageSize p = f.page pageSize p := by
  have hdis := page_disjoint pageSize h
  exact slice_write_of_disjoint f _ _ _ _ (by omega)

theorem page_write (f : Flash) (pageSize p : Nat) (before covered after bytes : List UInt8)
    (h : f.page pageSize p = before ++ covered ++ after) (hlen : covered.length = bytes.length) :
    (f.write (p * pageSize + before.length) bytes).page pageSize p =
      before ++ List.zipWith (· &&& ·) covered bytes ++ after :=
  slice_write f _ _ before covered after bytes h hlen

theorem page_erase_other (f : Flash) (pageSize p q : Nat) (h : p ≠ q) :
    (f.erase q pageSize).page pageSize p = f.page pageSize p := by
  apply List.ext_getElem?
  intro i
  have hdis := page_disjoint pageSize h
  rw [page, page, getElem?_slice_erase]
  split
  · rw [getElem?_slice, if_neg (by omega)]
    rfl
  · rfl

theorem page_erase (f : Flash) (pageSize p : Nat) (hp : p < f.pageCount pageSize) :
    (f.erase p pageSize).page pageSize p = List.replicate pageSize erased := by
  have hend := f.page_end_le hp
  apply List.ext_getElem?
  intro i
  rw [page, getElem?_slice_erase, getElem?_slice, List.getElem?_replicate]
  by_cases hi : i < pageSize
  · have hsize : p * pageSize + i < f.bytes.size := by
      have : f.bytes.size = f.size := rfl
      omega
    rw [if_pos (by omega), if_pos hi, if_pos hi, Array.getElem?_eq_getElem hsize]
    rfl
  · rw [if_neg (by omega), if_neg hi, if_neg hi]

/-! ## What flash takes -/

/-- Every bit of the bytes is still set in flash from `addr` on. -/
def Takes (f : Flash) (addr : Nat) (bytes : List UInt8) : Prop :=
  List.zipWith (· &&& ·) (f.slice addr bytes.length) bytes = bytes

instance (f : Flash) (addr : Nat) (bytes : List UInt8) : Decidable (f.Takes addr bytes) :=
  inferInstanceAs (Decidable (List.zipWith (· &&& ·) (f.slice addr bytes.length) bytes = bytes))

/-- Where something was written, flash shows the bits that it had before as well. -/
theorem slice_write_self (f : Flash) (addr n : Nat) (bytes : List UInt8) (hn : n ≤ bytes.length) :
    (f.write addr bytes).slice addr n =
      List.zipWith (· &&& ·) (f.slice addr n) (bytes.take n) := by
  apply List.ext_getElem?
  intro k
  have hwrite := f.getElem?_slice_write addr 0 n k bytes
  rw [Nat.add_zero] at hwrite
  rw [hwrite, List.getElem?_zipWith, List.getElem?_take, getElem?_slice]
  by_cases hk : k < n
  · rw [if_pos (by omega), if_pos hk, if_pos hk, List.getElem?_eq_getElem (by omega),
      List.getD_eq_getElem _ _ (by omega)]
    cases f.bytes[addr + k]? <;> rfl
  · rw [if_neg hk, if_neg hk]
    simp

theorem zipWith_and_erased (bytes : List UInt8) :
    List.zipWith (· &&& ·) (List.replicate bytes.length erased) bytes = bytes := by
  induction bytes with
  | nil => rfl
  | cons b bytes ih =>
    rw [List.length_cons, List.replicate_succ, List.zipWith_cons_cons, ih]
    have hb : erased &&& b = b := UInt8.toBitVec_inj.mp (BitVec.allOnes_and (x := b.toBitVec))
    rw [hb]

end Flash

end FlashBasic
