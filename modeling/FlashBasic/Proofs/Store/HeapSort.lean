import FlashBasic.Store.HeapSort
import Mathlib.Tactic.Common

/-!
Heap sort sorts. The order is given by a rank in the natural numbers, so that every comparison of
elements becomes a comparison of ranks of positions.

* `Heap r lo n`: from position `lo` on, no child among the first `n` positions outranks its parent.
* `siftDown_heap`: sinking one element repairs a heap that is in order except below that element.
* `sort_perm` and `sort_ranks`: the result is a rearrangement in which ranks never fall.
-/

namespace FlashBasic.HeapSort

set_option autoImplicit false

/-! ## Heaps of ranks -/

/-- `c` is one of the two positions below `i`. -/
def IsChild (c i : Nat) : Prop := c = 2 * i + 1 ∨ c = 2 * i + 2

def Heap (r : Nat → Nat) (lo n : Nat) : Prop :=
  ∀ i c, lo ≤ i → IsChild c i → c < n → r c ≤ r i

/-- In order except that the children of `hole` may outrank it; they do not outrank the parent of
`hole`. -/
structure HeapExcept (r : Nat → Nat) (lo n hole : Nat) : Prop where
  other : ∀ i c, lo ≤ i → i ≠ hole → IsChild c i → c < n → r c ≤ r i
  grand : ∀ i c, lo ≤ i → IsChild hole i → IsChild c hole → c < n → r c ≤ r i

theorem IsChild.lt {c i : Nat} (h : IsChild c i) : i < c := by
  unfold IsChild at h; omega

theorem IsChild.parent_eq {c i j : Nat} (hi : IsChild c i) (hj : IsChild c j) : i = j := by
  unfold IsChild at hi hj; omega

theorem Heap.root_max {r : Nat → Nat} {n : Nat} (h : Heap r 0 n) (i : Nat) (hi : i < n) :
    r i ≤ r 0 := by
  induction i using Nat.strongRecOn with
  | ind i ih =>
    by_cases h0 : i = 0
    · exact Nat.le_of_eq (congrArg r h0)
    · have hchild : IsChild i ((i - 1) / 2) := by unfold IsChild; omega
      have hup := h _ i (Nat.zero_le _) hchild hi
      exact Nat.le_trans hup (ih _ hchild.lt (by omega))

/-- Ranks after the elements at `i` and `j` have changed places. -/
def swapped (r : Nat → Nat) (i j : Nat) : Nat → Nat :=
  fun k => if k = i then r j else if k = j then r i else r k

theorem HeapExcept.sink {r : Nat → Nat} {lo n hole child : Nat} (h : HeapExcept r lo n hole)
    (hlo : lo ≤ hole) (hc : IsChild child hole) (hn : child < n)
    (hbest : ∀ c, IsChild c hole → c < n → r c ≤ r child) (hlt : r hole < r child) :
    HeapExcept (swapped r hole child) lo n child := by
  have hdown := hc.lt
  constructor
  · intro i c hi hne hic hcn
    have hgt := hic.lt
    by_cases hih : i = hole
    · subst hih
      by_cases hcc : c = child
      · simp only [swapped, hcc, if_neg (show child ≠ i by omega), if_true]
        omega
      · simp only [swapped, if_neg (show c ≠ i by omega), if_neg hcc, if_true]
        exact hbest c hic hcn
    · have hcc : c ≠ child := fun e => hih (IsChild.parent_eq (e ▸ hic) hc)
      simp only [swapped, if_neg hih, if_neg hne, if_neg hcc]
      by_cases hch : c = hole
      · rw [if_pos hch]
        exact h.grand i child hi (hch ▸ hic) hc hn
      · rw [if_neg hch]
        exact h.other i c hi hih hic hcn
  · intro i c hi hci hcc hcn
    have hih : i = hole := hci.parent_eq hc
    have hgt := hcc.lt
    simp only [swapped, hih, if_true, if_neg (show c ≠ hole by omega),
      if_neg (show c ≠ child by omega)]
    exact h.other child c (by omega) (by omega) hcc hcn

theorem HeapExcept.heap {r : Nat → Nat} {lo n hole : Nat} (h : HeapExcept r lo n hole)
    (hstop : ∀ c, IsChild c hole → c < n → r c ≤ r hole) : Heap r lo n := by
  intro i c hi hic hcn
  by_cases hih : i = hole
  · subst hih
    exact hstop c hic hcn
  · exact h.other i c hi hih hic hcn

theorem Heap.except {r : Nat → Nat} {lo n : Nat} (h : Heap r (lo + 1) n) :
    HeapExcept r lo n lo := by
  constructor
  · intro i c hi hne hic hcn
    exact h i c (by omega) hic hcn
  · intro i c hi hchild
    have := hchild.lt
    omega

/-! ## Sifting -/

variable {α : Type} (lt : α → α → Bool) (key : α → Nat)

/-- The rank of the element at a position; there is nothing past the end. -/
def rank (a : Array α) (i : Nat) : Nat := (a[i]?.map key).getD 0

theorem before_eq (hlt : ∀ x y, lt x y = decide (key x < key y)) (a : Array α) (i j : Nat)
    (hi : i < a.size) (hj : j < a.size) :
    before lt a i j = decide (rank key a i < rank key a j) := by
  simp [before, rank, hi, hj, hlt]

theorem rank_swap (a : Array α) (i j : Nat) (hi : i < a.size) (hj : j < a.size) :
    rank key (a.swapIfInBounds i j) = swapped (rank key a) i j := by
  funext k
  rw [Array.swapIfInBounds_def, dif_pos hi, dif_pos hj]
  simp only [rank, swapped, Array.getElem?_swap]
  by_cases hki : k = i
  · by_cases hkj : k = j
    · subst hki; subst hkj
      simp [hi]
    · subst hki
      simp [Ne.symm hkj, hj]
  · by_cases hkj : k = j
    · subst hkj
      simp [hki, hi]
    · simp [hki, hkj, Ne.symm hki, Ne.symm hkj]

theorem swapIfInBounds_perm (a : Array α) (i j : Nat) :
    (a.swapIfInBounds i j).toList.Perm a.toList := by
  rw [Array.swapIfInBounds_def]
  split
  · split
    · exact (Array.swap_perm _ _).toList
    · exact List.Perm.refl _
  · exact List.Perm.refl _

/-- The greater of the two children of `root`, of which at least the first is within `limit`. -/
def greaterChild (limit : Nat) (a : Array α) (root : Nat) : Nat :=
  if 2 * root + 1 + 1 < limit && before lt a (2 * root + 1) (2 * root + 1 + 1) then
    2 * root + 1 + 1
  else 2 * root + 1

theorem siftDown_succ (fuel root limit : Nat) (a : Array α) :
    siftDown lt (fuel + 1) root limit a =
      if limit ≤ 2 * root + 1 then a
      else if before lt a root (greaterChild lt limit a root) then
        siftDown lt fuel (greaterChild lt limit a root) limit
          (a.swapIfInBounds root (greaterChild lt limit a root))
      else a := rfl

theorem greaterChild_isChild (limit : Nat) (a : Array α) (root : Nat) :
    IsChild (greaterChild lt limit a root) root := by
  unfold greaterChild IsChild
  split
  · exact Or.inr rfl
  · exact Or.inl rfl

theorem greaterChild_lt (limit : Nat) (a : Array α) (root : Nat) (h : 2 * root + 1 < limit) :
    greaterChild lt limit a root < limit := by
  unfold greaterChild
  split
  · rename_i hboth
    simp only [Bool.and_eq_true, decide_eq_true_eq] at hboth
    exact hboth.1
  · exact h

theorem rank_le_greaterChild (hlt : ∀ x y, lt x y = decide (key x < key y)) (limit : Nat)
    (a : Array α) (root c : Nat) (hlim : limit ≤ a.size) (hc : IsChild c root) (hcl : c < limit) :
    rank key a c ≤ rank key a (greaterChild lt limit a root) := by
  have hleft : 2 * root + 1 < a.size := by unfold IsChild at hc; omega
  unfold greaterChild
  by_cases hright : 2 * root + 1 + 1 < limit
  · have hb := before_eq lt key hlt a (2 * root + 1) (2 * root + 1 + 1) hleft (by omega)
    by_cases hr : rank key a (2 * root + 1) < rank key a (2 * root + 1 + 1)
    · rw [hb, if_pos (by simp [hright, hr])]
      obtain rfl | rfl := hc
      · omega
      · exact Nat.le_refl _
    · rw [hb, if_neg (by simp [hr])]
      obtain rfl | rfl := hc
      · exact Nat.le_refl _
      · exact Nat.le_of_not_lt hr
  · rw [if_neg (by simp [hright])]
    obtain rfl | rfl := hc
    · exact Nat.le_refl _
    · omega

theorem siftDown_perm (fuel root limit : Nat) (a : Array α) :
    (siftDown lt fuel root limit a).toList.Perm a.toList := by
  induction fuel generalizing root a with
  | zero => exact List.Perm.refl _
  | succ fuel ih =>
    rw [siftDown_succ]
    split
    · exact List.Perm.refl _
    · split
      · exact (ih _ _).trans (swapIfInBounds_perm a root _)
      · exact List.Perm.refl _

@[simp] theorem siftDown_size (fuel root limit : Nat) (a : Array α) :
    (siftDown lt fuel root limit a).size = a.size := by
  have h := (siftDown_perm lt fuel root limit a).length_eq
  simpa using h

/-- A property of arrays that survives the exchange of two positions within `limit` survives
sifting within `limit`. -/
theorem siftDown_induct {P : Array α → Prop} {limit : Nat}
    (hswap : ∀ a i j, i < limit → j < limit → P a → P (a.swapIfInBounds i j))
    (fuel root : Nat) (a : Array α) (h : P a) : P (siftDown lt fuel root limit a) := by
  induction fuel generalizing root a with
  | zero => exact h
  | succ fuel ih =>
    rw [siftDown_succ]
    split
    · exact h
    · rename_i hleft
      have hchild := greaterChild_lt lt limit a root (by omega)
      have hdown := (greaterChild_isChild lt limit a root).lt
      split
      · exact ih _ _ (hswap a _ _ (by omega) hchild h)
      · exact h

/-- Sifting rearranges the ranks below `limit` and leaves the others. -/
theorem siftDown_ranks (fuel root : Nat) {limit : Nat} {a : Array α} (hlimit : limit ≤ a.size) :
    (∀ j, limit ≤ j → rank key (siftDown lt fuel root limit a) j = rank key a j) ∧
    (∀ i, i < limit →
      ∃ i' < limit, rank key (siftDown lt fuel root limit a) i = rank key a i') := by
  refine (siftDown_induct lt (P := fun b => limit ≤ b.size ∧
    (∀ j, limit ≤ j → rank key b j = rank key a j) ∧
    (∀ i, i < limit → ∃ i' < limit, rank key b i = rank key a i')) ?_ fuel root a ?_).2
  · rintro b i j hi hj ⟨hsize, hhigh, hlow⟩
    refine ⟨by simpa using hsize, ?_, ?_⟩
    · intro k hk
      rw [rank_swap key b i j (by omega) (by omega), swapped, if_neg (by omega), if_neg (by omega)]
      exact hhigh k hk
    · intro k hk
      rw [rank_swap key b i j (by omega) (by omega), swapped]
      split
      · exact hlow j hj
      · split
        · exact hlow i hi
        · exact hlow k hk
  · exact ⟨hlimit, fun _ _ => rfl, fun i hi => ⟨i, hi, rfl⟩⟩

theorem siftDown_heap (hlt : ∀ x y, lt x y = decide (key x < key y)) (fuel root limit lo : Nat)
    (a : Array α) (hfuel : limit ≤ fuel + root) (hlim : limit ≤ a.size) (hlo : lo ≤ root)
    (h : HeapExcept (rank key a) lo limit root) :
    Heap (rank key (siftDown lt fuel root limit a)) lo limit := by
  induction fuel generalizing root a with
  | zero =>
    refine h.heap ?_
    intro c hc hcl
    have := hc.lt
    omega
  | succ fuel ih =>
    rw [siftDown_succ]
    split
    · rename_i hleft
      refine h.heap ?_
      intro c hc hcl
      unfold IsChild at hc
      omega
    · rename_i hleft
      have hbest := rank_le_greaterChild lt key hlt limit a root
      have hc := greaterChild_isChild lt limit a root
      have hcl := greaterChild_lt lt limit a root (by omega)
      generalize greaterChild lt limit a root = child at hbest hc hcl
      have hdown := hc.lt
      rw [before_eq lt key hlt a root child (by omega) (by omega)]
      split
      · rename_i hless
        simp only [decide_eq_true_eq] at hless
        refine ih child _ (by omega) (by simpa using hlim) (by omega) ?_
        rw [rank_swap key a root child (by omega) (by omega)]
        exact h.sink hlo hc hcl (fun c hc' hcl' => hbest c hlim hc' hcl') hless
      · rename_i hnot
        simp only [decide_eq_true_eq] at hnot
        refine h.heap ?_
        intro c hc' hcl'
        have := hbest c hlim hc' hcl'
        omega

/-! ## The whole sort -/

theorem heapify_perm (a : Array α) : (heapify lt a).toList.Perm a.toList := by
  unfold heapify
  generalize (List.range (a.size / 2)).reverse = roots
  induction roots generalizing a with
  | nil => exact List.Perm.refl _
  | cons root roots ih =>
    rw [List.foldl_cons]
    exact (ih _).trans (siftDown_perm lt _ root _ a)

theorem heapify_heap (hlt : ∀ x y, lt x y = decide (key x < key y)) (a : Array α) :
    Heap (rank key (heapify lt a)) 0 a.size := by
  have hloop : ∀ n (b : Array α), b.size = a.size → Heap (rank key b) n a.size →
      Heap (rank key ((List.range n).reverse.foldl
        (fun b root => siftDown lt b.size root b.size b) b)) 0 a.size := by
    intro n
    induction n with
    | zero => intro b _ h; exact h
    | succ n ih =>
      intro b hsize h
      rw [List.range_succ, List.reverse_append, List.reverse_singleton, List.singleton_append,
        List.foldl_cons]
      refine ih _ (by rw [siftDown_size, hsize]) ?_
      rw [hsize]
      exact siftDown_heap lt key hlt a.size n a.size n b (by omega) (by omega) (Nat.le_refl n)
        h.except
  refine hloop (a.size / 2) a rfl ?_
  intro i c hi hc hcl
  unfold IsChild at hc
  omega

/-- The first `m` elements are a heap, and none outranks what stands at or after position `m`. -/
structure Extracting (r : Nat → Nat) (m size : Nat) : Prop where
  heap : Heap r 0 m
  above : ∀ i j, i < j → m ≤ j → j < size → r i ≤ r j

namespace Extracting

variable {r : Nat → Nat} {m size : Nat}

/-- Exchanging the root with the last element of the heap disturbs the heap at its root only. -/
theorem except_swapped (h : Extracting r (m + 1) size) : HeapExcept (swapped r 0 m) 0 m 0 := by
  refine Heap.except ?_
  intro i c hi hc hcm
  have hgt := hc.lt
  have hle := h.heap i c (Nat.zero_le i) hc (by omega)
  simp only [swapped, if_neg (show c ≠ 0 by omega), if_neg (show c ≠ m by omega),
    if_neg (show i ≠ 0 by omega), if_neg (show i ≠ m by omega)]
  exact hle

theorem swapped_le (h : Extracting r (m + 1) size) {i j : Nat} (hij : i < j) (hj : m ≤ j)
    (hjs : j < size) : swapped r 0 m i ≤ swapped r 0 m j := by
  rcases Nat.eq_or_lt_of_le hj with rfl | hmj
  · -- Position `m` now has the root, the greatest of the heap.
    have hm := h.heap.root_max m (Nat.lt_succ_self m)
    have hi := h.heap.root_max i (Nat.lt_succ_of_lt hij)
    simp only [swapped, if_neg (show m ≠ 0 by omega), if_neg (show i ≠ m by omega), if_true]
    split
    · exact hm
    · exact hi
  · simp only [swapped, if_neg (show j ≠ 0 by omega), if_neg (show j ≠ m by omega)]
    split
    · exact h.above m j hmj hmj hjs
    · split
      · exact h.above 0 j (by omega) hmj hjs
      · exact h.above i j hij hmj hjs

end Extracting

theorem extract_perm (a : Array α) (last : Nat) : (extract lt a last).toList.Perm a.toList :=
  (siftDown_perm lt last 0 last _).trans (swapIfInBounds_perm a 0 last)

theorem extract_extracting (hlt : ∀ x y, lt x y = decide (key x < key y)) (a : Array α) (m : Nat)
    (hsize : m < a.size) (h : Extracting (rank key a) (m + 1) a.size) :
    Extracting (rank key (extract lt a m)) m a.size := by
  have hswap := rank_swap key a 0 m (Nat.zero_lt_of_lt hsize) hsize
  have hle : m ≤ (a.swapIfInBounds 0 m).size := by
    rw [Array.size_swapIfInBounds]
    exact Nat.le_of_lt hsize
  obtain ⟨hhigh, hlow⟩ := siftDown_ranks lt key m 0 hle
  rw [hswap] at hhigh hlow
  constructor
  · refine siftDown_heap lt key hlt m 0 m 0 _ (Nat.le_refl m) hle (Nat.le_refl 0) ?_
    rw [hswap]
    exact h.except_swapped
  · intro i j hij hj hjs
    rw [extract, hhigh j hj]
    by_cases him : i < m
    · obtain ⟨i', hi', heq⟩ := hlow i him
      rw [heq]
      exact h.swapped_le (Nat.lt_of_lt_of_le hi' hj) hj hjs
    · rw [hhigh i (Nat.le_of_not_lt him)]
      exact h.swapped_le hij hj hjs

theorem sort_perm (a : Array α) : (sort lt a).toList.Perm a.toList := by
  have hloop : ∀ (lasts : List Nat) (b : Array α),
      (lasts.foldl (extract lt) b).toList.Perm b.toList := by
    intro lasts
    induction lasts with
    | nil => intro b; exact List.Perm.refl _
    | cons last lasts ih =>
      intro b
      rw [List.foldl_cons]
      exact (ih _).trans (extract_perm lt b last)
  exact (hloop _ _).trans (heapify_perm lt a)

theorem sort_size (a : Array α) : (sort lt a).size = a.size := by
  simpa using (sort_perm lt a).length_eq

theorem sort_ranks (hlt : ∀ x y, lt x y = decide (key x < key y)) (a : Array α) (i j : Nat)
    (hij : i < j) (hj : j < a.size) : rank key (sort lt a) i ≤ rank key (sort lt a) j := by
  have hloop : ∀ n (b : Array α), n < b.size → Extracting (rank key b) (n + 1) b.size →
      Extracting (rank key ((List.range' 1 n).reverse.foldl (extract lt) b)) 1 b.size := by
    intro n
    induction n with
    | zero => intro b _ h; exact h
    | succ n ih =>
      intro b hn h
      have hsize : (extract lt b (n + 1)).size = b.size := by
        simpa using (extract_perm lt b (n + 1)).length_eq
      have hstep := extract_extracting lt key hlt b (n + 1) hn h
      have hrest := ih (extract lt b (n + 1)) (by omega) (by rw [hsize]; exact hstep)
      rw [hsize] at hrest
      rw [List.range'_1_concat, List.reverse_append, List.reverse_singleton,
        List.singleton_append, List.foldl_cons, Nat.add_comm 1 n]
      exact hrest
  have hheap : (heapify lt a).size = a.size := by simpa using (heapify_perm lt a).length_eq
  have hdone := hloop (a.size - 1) (heapify lt a) (by omega) (by
    constructor
    · rw [show a.size - 1 + 1 = a.size by omega]
      exact heapify_heap lt key hlt a
    · intro i j _ hge hlt'
      omega)
  rw [hheap] at hdone
  exact hdone.above i j hij (by omega) hj

/-- The sorted elements, in order of rank. -/
theorem sort_pairwise (hlt : ∀ x y, lt x y = decide (key x < key y)) (a : Array α) :
    (sort lt a).toList.Pairwise fun x y => key x ≤ key y := by
  rw [List.pairwise_iff_getElem]
  intro i j hi hj hij
  simp only [Array.length_toList] at hi hj
  have h := sort_ranks lt key hlt a i j hij (by rwa [sort_size] at hj)
  simpa [rank, hi, hj] using h

end FlashBasic.HeapSort
