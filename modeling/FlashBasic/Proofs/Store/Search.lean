import FlashBasic.Store.Search
import Mathlib.Tactic.Common

/-!
Binary search finds the turning point: on a list in which no element that passes comes after one
that fails, `boundary` is the number of elements that pass.
-/

namespace FlashBasic.Search

set_option autoImplicit false

variable {α : Type} (test : α → Bool)

/-- Where those that pass come first, an element passes exactly when its position is below their
number. -/
theorem passes_iff_lt_countP (xs : List α) (h : xs.Pairwise fun x y => test y → test x) (i : Nat)
    (hi : i < xs.length) : test xs[i] = true ↔ i < xs.countP test := by
  induction xs generalizing i with
  | nil => simp at hi
  | cons x xs ih =>
    obtain ⟨hx, hxs⟩ := List.pairwise_cons.mp h
    by_cases hpass : test x = true
    · rw [List.countP_cons_of_pos hpass]
      cases i with
      | zero => simp [hpass]
      | succ i =>
        rw [List.getElem_cons_succ, ih hxs i (by simpa using hi)]
        omega
    · have hnone : xs.countP test = 0 := by
        rw [List.countP_eq_zero]
        intro y hy hyp
        exact hpass (hx y hy hyp)
      rw [List.countP_cons_of_neg hpass, hnone]
      cases i with
      | zero => simp [hpass]
      | succ i =>
        have hi' : i < xs.length := by simpa using hi
        rw [List.getElem_cons_succ, ih hxs i hi', hnone]
        omega

theorem any_iff_lt_countP (xs : List α) (h : xs.Pairwise fun x y => test y → test x) (i : Nat) :
    (xs[i]?).any test = true ↔ i < xs.countP test := by
  by_cases hi : i < xs.length
  · rw [List.getElem?_eq_getElem hi, Option.any_some]
    exact passes_iff_lt_countP test xs h i hi
  · have hle := List.countP_le_length (p := test) (l := xs)
    rw [List.getElem?_eq_none (by omega)]
    simp only [Option.any_none, Bool.false_eq_true, false_iff]
    omega

/-- Whatever the test says, the search stays in the list. -/
theorem narrow_lt_length (xs : List α) (fuel base size : Nat) (hsize : 0 < size)
    (hfuel : size ≤ fuel + 1) (hin : base + size ≤ xs.length) :
    narrow test xs fuel base size < xs.length := by
  induction fuel generalizing base size with
  | zero =>
    rw [narrow]
    omega
  | succ fuel ih =>
    rw [narrow]
    split
    · omega
    · refine ih _ _ (by omega) (by omega) ?_
      split <;> omega

theorem boundary_le_length (xs : List α) : boundary test xs ≤ xs.length := by
  rw [boundary]
  by_cases hempty : xs = []
  · subst hempty
    exact Nat.le_refl 0
  · have hpos := List.length_pos_iff.mpr hempty
    have hlt := narrow_lt_length test xs xs.length 0 xs.length hpos (by omega) (by omega)
    split <;> omega

/-- The turning point stays within the positions that are left. -/
theorem narrow_bounds (xs : List α) (h : xs.Pairwise fun x y => test y → test x)
    (fuel base size : Nat) (hfuel : size ≤ fuel + 1) (hlow : base ≤ xs.countP test)
    (hhigh : xs.countP test ≤ base + size) :
    narrow test xs fuel base size ≤ xs.countP test ∧
      xs.countP test ≤ narrow test xs fuel base size + 1 := by
  induction fuel generalizing base size with
  | zero =>
    rw [narrow]
    omega
  | succ fuel ih =>
    rw [narrow]
    split
    · omega
    · rename_i hsize
      dsimp only
      have hmid := any_iff_lt_countP test xs h (base + size / 2)
      by_cases hpass : base + size / 2 < xs.countP test
      · rw [if_pos (hmid.mpr hpass)]
        exact ih _ _ (by omega) (by omega) (by omega)
      · rw [if_neg (fun e => hpass (hmid.mp e))]
        exact ih _ _ (by omega) (by omega) (by omega)

theorem boundary_eq_countP (xs : List α) (h : xs.Pairwise fun x y => test y → test x) :
    boundary test xs = xs.countP test := by
  obtain ⟨hlow, hhigh⟩ := narrow_bounds test xs h xs.length 0 xs.length (by omega)
    (Nat.zero_le _) (by simpa using List.countP_le_length)
  have hbase := any_iff_lt_countP test xs h (narrow test xs xs.length 0 xs.length)
  rw [boundary]
  split
  · rename_i hpass
    have := hbase.mp hpass
    omega
  · rename_i hfail
    have := mt hbase.mpr hfail
    omega

end FlashBasic.Search
