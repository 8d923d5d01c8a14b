import FlashBasic.Store.Basic
import Mathlib.Tactic.Common

/-!
Choosing a page. Both searches of the store go through the pages that pass a test and keep the one
that is preferred (`Store.choose?`): the page for an item is one of lowest age, and the page to
compact is one that ends up with the most free bytes. What is chosen is the first of those to which
none is preferred.

* `Store.pageFor?_eq_none_iff` and `Store.compactionTarget?_eq_none_iff` say when no page is found.
* `Store.pageFor?_lowest` and `Store.precedes_compactionTarget?` say which one is.
-/

namespace FlashBasic

set_option autoImplicit false

namespace Store

/-! ## Preferences -/

/-- Takes the candidate if it is preferred to the best so far. -/
def prefer (R : Nat → Nat → Prop) [∀ p q, Decidable (R p q)] (best : Option Nat) (c : Nat) :
    Option Nat :=
  best.elim (some c) fun b => if R c b then some c else some b

/-- The preference ranks the pages. -/
structure Ranks (R : Nat → Nat → Prop) : Prop where
  asymm : ∀ p q, R p q → ¬ R q p
  trans : ∀ p q r, ¬ R p q → ¬ R q r → ¬ R p r

/-- `p` is preferred to `q`, or neither is preferred and `p` comes first. -/
def Precedes (R : Nat → Nat → Prop) (p q : Nat) : Prop := ¬ R q p ∧ (R p q ∨ p ≤ q)

namespace Ranks

variable {R : Nat → Nat → Prop} (h : Ranks R)
include h

theorem precedes_self (p : Nat) : Precedes R p p :=
  ⟨fun hp => h.asymm p p hp hp, Or.inr (Nat.le_refl p)⟩

theorem precedes_trans {p q r : Nat} (hpq : Precedes R p q) (hqr : Precedes R q r) :
    Precedes R p r := by
  obtain ⟨hnotq, hq⟩ := hpq
  obtain ⟨hnotr, hr⟩ := hqr
  refine ⟨h.trans r q p hnotr hnotq, ?_⟩
  by_contra hc
  obtain ⟨hnotp, hlt⟩ := not_or.mp hc
  rcases hr with hr | hr
  · exact h.trans q p r hnotq hnotp hr
  · rcases hq with hq | hq
    · exact h.trans p r q hnotp hnotr hq
    · omega

/-- Going through rising candidates ends with one that precedes them all. -/
theorem exists_foldl_prefer [∀ p q, Decidable (R p q)] (candidates : List Nat) (b : Nat)
    (hsorted : (b :: candidates).Pairwise (· < ·)) :
    ∃ p ∈ b :: candidates, candidates.foldl (prefer R) (some b) = some p ∧
      ∀ q ∈ b :: candidates, Precedes R p q := by
  induction candidates generalizing b with
  | nil =>
    refine ⟨b, List.mem_cons_self, rfl, ?_⟩
    intro q hq
    rw [List.mem_singleton.mp hq]
    exact h.precedes_self b
  | cons c candidates ih =>
    obtain ⟨hb, hrest⟩ := List.pairwise_cons.mp hsorted
    by_cases hcb : R c b
    · have hstep : prefer R (some b) c = some c := if_pos hcb
      rw [List.foldl_cons, hstep]
      obtain ⟨p, hp, hfold, hall⟩ := ih c hrest
      refine ⟨p, List.mem_cons_of_mem b hp, hfold, List.forall_mem_cons.mpr ⟨?_, hall⟩⟩
      exact h.precedes_trans (hall c List.mem_cons_self) ⟨h.asymm c b hcb, Or.inl hcb⟩
    · have hstep : prefer R (some b) c = some b := if_neg hcb
      rw [List.foldl_cons, hstep]
      obtain ⟨hbc, hbrest⟩ := List.forall_mem_cons.mp hb
      obtain ⟨p, hp, hfold, hall⟩ :=
        ih b (List.pairwise_cons.mpr ⟨hbrest, (List.pairwise_cons.mp hrest).2⟩)
      obtain ⟨hpb, hprest⟩ := List.forall_mem_cons.mp hall
      have hpc := h.precedes_trans hpb ⟨hcb, Or.inr (Nat.le_of_lt hbc)⟩
      refine ⟨p, ?_, hfold, List.forall_mem_cons.mpr
        ⟨hpb, List.forall_mem_cons.mpr ⟨hpc, hprest⟩⟩⟩
      rcases List.mem_cons.mp hp with rfl | hp
      · exact List.mem_cons_self
      · exact List.mem_cons_of_mem _ (List.mem_cons_of_mem _ hp)

end Ranks

/-! ## Pages that pass a test -/

def candidates (pages : List Page.Info) (t : Page.Info → Bool) : List Nat :=
  (List.range pages.length).filter fun p => (pages[p]?).any t

theorem mem_candidates {pages : List Page.Info} {t : Page.Info → Bool} {p : Nat} :
    p ∈ candidates pages t ↔ ∃ info, pages[p]? = some info ∧ t info = true := by
  rw [candidates, List.mem_filter, List.mem_range]
  constructor
  · rintro ⟨hp, htest⟩
    rw [List.getElem?_eq_getElem hp, Option.any_some] at htest
    exact ⟨pages[p], List.getElem?_eq_getElem hp, htest⟩
  · rintro ⟨info, hinfo, htest⟩
    refine ⟨(List.getElem?_eq_some_iff.mp hinfo).1, ?_⟩
    rw [hinfo, Option.any_some]
    exact htest

theorem candidates_eq_nil {pages : List Page.Info} {t : Page.Info → Bool} :
    candidates pages t = [] ↔ ∀ info ∈ pages, t info = false := by
  rw [List.eq_nil_iff_forall_not_mem]
  simp only [mem_candidates]
  constructor
  · intro h info hinfo
    obtain ⟨p, hp⟩ := List.mem_iff_getElem?.mp hinfo
    by_contra htest
    exact h p ⟨info, hp, by simpa using htest⟩
  · rintro h p ⟨info, hinfo, htest⟩
    rw [h info (List.mem_of_getElem? hinfo)] at htest
    cases htest

/-- The first page among those that pass the test to which none of them is preferred. -/
def choose? (R : Nat → Nat → Prop) [∀ p q, Decidable (R p q)] (pages : List Page.Info)
    (t : Page.Info → Bool) : Option Nat :=
  (candidates pages t).foldl (prefer R) none

namespace Ranks

variable {R : Nat → Nat → Prop} [∀ p q, Decidable (R p q)] (h : Ranks R) {pages : List Page.Info}
  {t : Page.Info → Bool}
include h

theorem choose?_eq_some {p : Nat} (hp : choose? R pages t = some p) :
    (∃ info, pages[p]? = some info ∧ t info = true) ∧
      ∀ q info, pages[q]? = some info → t info = true → Precedes R p q := by
  have hsorted : (candidates pages t).Pairwise (· < ·) := List.pairwise_lt_range.filter _
  have hchosen : p ∈ candidates pages t ∧ ∀ q ∈ candidates pages t, Precedes R p q := by
    rw [choose?] at hp
    cases hc : candidates pages t with
    | nil =>
      rw [hc] at hp
      cases hp
    | cons b rest =>
      obtain ⟨p', hmem, hfold, hall⟩ := h.exists_foldl_prefer rest b (hc ▸ hsorted)
      rw [hc] at hp
      cases hfold.symm.trans hp
      exact ⟨hmem, hall⟩
  exact ⟨mem_candidates.mp hchosen.1,
    fun q info hinfo htest => hchosen.2 q (mem_candidates.mpr ⟨info, hinfo, htest⟩)⟩

theorem choose?_eq_none_iff : choose? R pages t = none ↔ ∀ info ∈ pages, t info = false := by
  have hsorted : (candidates pages t).Pairwise (· < ·) := List.pairwise_lt_range.filter _
  rw [← candidates_eq_nil, choose?]
  cases hc : candidates pages t with
  | nil => exact iff_of_true rfl rfl
  | cons b rest =>
    obtain ⟨p, -, hfold, -⟩ := h.exists_foldl_prefer rest b (hc ▸ hsorted)
    refine iff_of_false ?_ (List.cons_ne_nil b rest)
    intro hnone
    cases hfold.symm.trans hnone

end Ranks

/-! ## The page for an item -/

variable {s : Store} {length p : Nat}

theorem ranks_age (s : Store) : Ranks fun p q => s.age p < s.age q where
  asymm _ _ := UInt32.lt_asymm
  trans _ _ _ hpq hqr :=
    UInt32.not_lt.mpr (UInt32.le_trans (UInt32.not_lt.mp hqr) (UInt32.not_lt.mp hpq))

theorem pageFor?_eq (s : Store) (length : Nat) :
    s.pageFor? length = choose? (fun p q => s.age p < s.age q) s.pages (length ≤ ·.free) := by
  rw [pageFor?, choose?]
  congr 1
  funext best c
  cases best <;> rfl

theorem pageFor?_eq_some (h : s.pageFor? length = some p) :
    ∃ info, s.pages[p]? = some info ∧ length ≤ info.free := by
  rw [pageFor?_eq] at h
  obtain ⟨info, hinfo, htest⟩ := (s.ranks_age.choose?_eq_some h).1
  exact ⟨info, hinfo, of_decide_eq_true htest⟩

/-- No page with room has a lower age. -/
theorem pageFor?_lowest (h : s.pageFor? length = some p) {q : Nat} {info : Page.Info}
    (hinfo : s.pages[q]? = some info) (hfree : length ≤ info.free) : ¬ s.age q < s.age p := by
  rw [pageFor?_eq] at h
  exact ((s.ranks_age.choose?_eq_some h).2 q info hinfo (decide_eq_true hfree)).1

theorem pageFor?_eq_none_iff :
    s.pageFor? length = none ↔ ∀ info ∈ s.pages, info.free < length := by
  rw [pageFor?_eq, s.ranks_age.choose?_eq_none_iff]
  simp only [decide_eq_false_iff_not, Nat.not_le]

/-- An item is refused when it is too long or no page has room for it. -/
theorem place?_eq_none_iff {data : List UInt8} :
    s.place? data = none ↔ Item.maxLength < Item.length data.length ∨
      ∀ info ∈ s.pages, info.free < Item.length data.length := by
  rw [place?]
  split
  · rename_i hle
    rw [Option.map_eq_none_iff, pageFor?_eq_none_iff]
    constructor
    · exact Or.inr
    · rintro (hlt | h)
      · omega
      · exact h
  · rename_i hnot
    simp only [true_iff]
    left
    omega

/-! ## The page to compact -/

/-- The free bytes of a page once it is compacted. -/
def gain (s : Store) (p : Nat) : Nat :=
  (s.pages.getD p default).waste + (s.pages.getD p default).free

theorem gain_eq {info : Page.Info} (h : s.pages[p]? = some info) :
    s.gain p = info.waste + info.free := by
  rw [gain, List.getD_eq_getElem?_getD, h, Option.getD_some]

theorem ranks_gain (s : Store) : Ranks fun p q => s.gain q < s.gain p where
  asymm _ _ hpq := by omega
  trans _ _ _ hpq hqr := by omega

theorem compactablePage?_eq (s : Store) (length : Nat) :
    s.compactablePage? length =
      choose? (fun p q => s.gain q < s.gain p) s.pages (worthCompacting length) := by
  rw [compactablePage?, choose?]
  congr 1
  funext best c
  cases best <;> rfl

variable {scratch : Nat}

theorem compactionTarget?_eq_some (h : s.compactionTarget? length scratch = some p) :
    s.pageSize ≤ scratch ∧
      ∃ info, s.pages[p]? = some info ∧ worthCompacting length info = true := by
  rw [compactionTarget?] at h
  split at h
  · rename_i hsize
    rw [compactablePage?_eq] at h
    exact ⟨hsize, (s.ranks_gain.choose?_eq_some h).1⟩
  · cases h

/-- The page that is compacted ends up with the most free bytes, and it is the first of those. -/
theorem precedes_compactionTarget? (h : s.compactionTarget? length scratch = some p) {q : Nat}
    {info : Page.Info} (hinfo : s.pages[q]? = some info)
    (hworth : worthCompacting length info = true) :
    s.gain q < s.gain p ∨ s.gain q = s.gain p ∧ p ≤ q := by
  obtain ⟨hsize, -⟩ := compactionTarget?_eq_some h
  rw [compactionTarget?, if_pos hsize, compactablePage?_eq] at h
  obtain ⟨hnot, hfirst⟩ := (s.ranks_gain.choose?_eq_some h).2 q info hinfo hworth
  omega

theorem compactionTarget?_eq_none_iff :
    s.compactionTarget? length scratch = none ↔
      scratch < s.pageSize ∨ ∀ info ∈ s.pages, worthCompacting length info = false := by
  rw [compactionTarget?]
  split
  · rename_i hsize
    rw [compactablePage?_eq, s.ranks_gain.choose?_eq_none_iff]
    simp [Nat.not_lt.mpr hsize]
  · rename_i hsize
    simp [Nat.lt_of_not_le hsize]

end Store

end FlashBasic
