import FlashBasic.Proofs.Store.Volume

/-!
Giving ages to pages. Two walks over the pages count up from the last age given: recovery stamps
the pages of erased age, and clearing renews the pages in use. Both are `stampWhere` on the volume
and `opsWhere` on flash, and `newestAge_stampWhere` says that the last age given is the newest one
as long as the count stays below the age of an erased page.
-/

namespace FlashBasic

set_option autoImplicit false

open Item (Stored)
open Page (Layout)

namespace Page.Layout

def ageNumber (L : Layout) : UInt32 := LittleEndian.toUInt32 L.age

@[simp] theorem ageNumber_stamp (L : Layout) (age : UInt32) : (L.stamp age).ageNumber = age := by
  have hage := LittleEndian.toUInt32_ofUInt32 age []
  rw [List.append_nil] at hage
  exact hage

theorem age_of_erased {L : Layout} (h : L.ageNumber = erasedAge) :
    L.age = List.replicate ageLength Flash.erased := by
  rw [← LittleEndian.ofUInt32_toUInt32_of_length L.age_length, ← ageNumber, h]
  decide

end Page.Layout

theorem map_ageNumber_congr {vol vol' : List Layout} (h : vol'.map (·.age) = vol.map (·.age)) :
    vol'.map (·.ageNumber) = vol.map (·.ageNumber) := by
  have hmap := congrArg (List.map LittleEndian.toUInt32) h
  rw [List.map_map, List.map_map] at hmap
  exact hmap

theorem Reads.age {f : Flash} {pageSize : Nat} {vol : List Layout} (h : Reads f pageSize vol)
    {p : Nat} {L : Layout} (hL : vol[p]? = some L) : f.age pageSize p = L.ageNumber := by
  have hstop := h.stop_le hL
  rw [Layout.stop] at hstop
  have hslice := f.slice_page pageSize p 0 Page.ageLength (by omega)
  rw [Nat.add_zero, h.page p L hL, List.drop_zero, Layout.bytes,
    List.take_append_of_le_length (Nat.le_of_eq L.age_length.symm), ← L.age_length,
    List.take_length, L.age_length] at hslice
  rw [Flash.age, hslice, Layout.ageNumber]

/-- Writing behind the age of a page leaves all ages alone. -/
theorem Flash.age_write (f : Flash) {pageSize addr : Nat} {bytes : List UInt8}
    (hbody : Page.ageLength ≤ addr % pageSize) (hwithin : addr % pageSize + bytes.length ≤ pageSize)
    (p : Nat) : (f.write addr bytes).age pageSize p = f.age pageSize p := by
  have haddr := Nat.div_add_mod addr pageSize
  rw [Nat.mul_comm] at haddr
  have hapart : p * pageSize + Page.ageLength ≤ addr ∨ addr + bytes.length ≤ p * pageSize := by
    by_cases hp : p = addr / pageSize
    · rw [hp]
      omega
    · have := Flash.page_disjoint pageSize hp
      omega
  rw [Flash.age, Flash.age, f.slice_write_of_disjoint _ _ _ _ hapart]

/-- Writes behind the age of a page. -/
def Behind (pageSize : Nat) : Flash.Op → Prop
  | .erase _ _ => False
  | .write addr bytes =>
    Page.ageLength ≤ addr % pageSize ∧ addr % pageSize + bytes.length ≤ pageSize

namespace Behind

variable {pageSize : Nat} {op : Flash.Op}

theorem age_apply (h : Behind pageSize op) (f : Flash) (p : Nat) :
    (f.apply op).age pageSize p = f.age pageSize p := by
  cases op with
  | erase q size => exact h.elim
  | write addr bytes => exact f.age_write h.1 h.2 p

/-- Something written at an offset of page `p`. -/
theorem of_offset {p o : Nat} {bytes : List UInt8} (hbody : Page.ageLength ≤ o)
    (hbytes : 0 < bytes.length) (hend : o + bytes.length ≤ pageSize) :
    Behind pageSize (.write (p * pageSize + o) bytes) := by
  obtain ⟨-, hmod⟩ := Flash.address_div_mod p (show o < pageSize by omega)
  rw [Behind, hmod]
  exact ⟨hbody, hend⟩

end Behind

namespace Reads

variable {f : Flash} {pageSize : Nat} {vol : List Layout} (h : Reads f pageSize vol)
include h

theorem behind_append {p : Nat} {L : Layout} {i : Stored} (hL : vol[p]? = some L)
    (hle : i.length ≤ L.tail.length) :
    Behind pageSize (.write (p * pageSize + L.stop) i.bytes) := by
  have hstop := h.stop_le hL
  have hlength : i.bytes.length = i.length := rfl
  exact .of_offset (Nat.le_add_right _ _) i.length_pos (by omega)

theorem behind_bury {a : Nat} {i : Stored} (hi : (a, i) ∈ entries pageSize vol) (g : Flash) :
    Behind pageSize (g.bury a) := by
  obtain ⟨L, hL, ho⟩ := h.exists_place hi
  have hstop := h.stop_le hL
  obtain ⟨hbody, hend⟩ := Page.places_bounds ho
  have hfour := i.four_le_length
  rw [Layout.stop] at hstop
  refine ⟨hbody, ?_⟩
  rw [Item.Header.length_encode, Item.headerLength]
  omega

end Reads

theorem toNat_nextAge {last : UInt32} (h : last.toNat + 1 < 2 ^ 32) :
    (last + 1).toNat = last.toNat + 1 := by
  rw [UInt32.toNat_add, UInt32.toNat_one, Nat.mod_eq_of_lt h]

theorem nextAge_ne_erased {last : UInt32} (h : last.toNat + 1 < 2 ^ 32 - 1) :
    last + 1 ≠ Page.erasedAge := by
  intro hc
  have hnext : (last + 1).toNat = last.toNat + 1 := toNat_nextAge (by omega)
  have herased : Page.erasedAge.toNat = 2 ^ 32 - 1 := rfl
  rw [hc] at hnext
  omega

/-! ## Walking over the pages -/

section Walk

variable (test : Layout → Bool) (renew : Layout → Layout) (ops : Nat → UInt32 → List Flash.Op)

/-- Renews the pages that pass the test and gives them the ages after `last`. -/
def stampWhere : List Layout → (last : UInt32) → List Layout
  | [], _ => []
  | L :: vol, last =>
    if test L then (renew L).stamp (last + 1) :: stampWhere vol (last + 1)
    else L :: stampWhere vol last

/-- The operations of such a walk that starts at page `p`. -/
def opsWhere : (p : Nat) → List Layout → (last : UInt32) → List Flash.Op
  | _, [], _ => []
  | p, L :: vol, last =>
    if test L then ops p (last + 1) ++ opsWhere (p + 1) vol (last + 1)
    else opsWhere (p + 1) vol last

/-- The last age given. -/
def lastStamp : List Layout → (last : UInt32) → UInt32
  | [], last => last
  | L :: vol, last => lastStamp vol (if test L then last + 1 else last)

theorem length_stampWhere (vol : List Layout) (last : UInt32) :
    (stampWhere test renew vol last).length = vol.length := by
  induction vol generalizing last with
  | nil => rfl
  | cons L vol ih =>
    rw [stampWhere]
    split <;> simp [ih]

theorem stampWhere_of_none {vol : List Layout} (h : ∀ L ∈ vol, test L = false) (last : UInt32) :
    stampWhere test renew vol last = vol ∧ lastStamp test vol last = last := by
  induction vol generalizing last with
  | nil => exact ⟨rfl, rfl⟩
  | cons L vol ih =>
    obtain ⟨hL, hvol⟩ := List.forall_mem_cons.mp h
    simp [stampWhere, lastStamp, hL, ih hvol]

theorem opsWhere_of_none {vol : List Layout} (h : ∀ L ∈ vol, test L = false) (p : Nat)
    (last : UInt32) : opsWhere test ops p vol last = [] := by
  induction vol generalizing p last with
  | nil => rfl
  | cons L vol ih =>
    obtain ⟨hL, hvol⟩ := List.forall_mem_cons.mp h
    simp [opsWhere, hL, ih hvol]

/-- What holds of the pages that stay and of the new ones holds of all pages. -/
theorem forall_stampWhere {P : Layout → Prop} {vol : List Layout}
    (hkeep : ∀ L ∈ vol, test L = false → P L)
    (hnew : ∀ L ∈ vol, test L = true → ∀ age, P ((renew L).stamp age)) (last : UInt32) :
    ∀ L ∈ stampWhere test renew vol last, P L := by
  induction vol generalizing last with
  | nil =>
    intro L hL
    cases hL
  | cons L vol ih =>
    obtain ⟨hkeepL, hkeep⟩ := List.forall_mem_cons.mp hkeep
    obtain ⟨hnewL, hnew⟩ := List.forall_mem_cons.mp hnew
    rw [stampWhere]
    split
    · rename_i htest
      exact List.forall_mem_cons.mpr ⟨hnewL htest _, ih hkeep hnew _⟩
    · rename_i htest
      exact List.forall_mem_cons.mpr ⟨hkeepL (by simpa using htest), ih hkeep hnew _⟩

/-- What renewing and stamping leave alone stays. -/
theorem map_stampWhere {α : Type} (g : Layout → α) (hg : ∀ L age, g ((renew L).stamp age) = g L)
    (vol : List Layout) (last : UInt32) : (stampWhere test renew vol last).map g = vol.map g := by
  induction vol generalizing last with
  | nil => rfl
  | cons L vol ih =>
    rw [stampWhere]
    split <;> simp [ih, hg]

/-- What the steps of a walk make of a volume, page by page. -/
theorem Rewrites.stampWhere {pageSize : Nat}
    (hstep : ∀ (vol : List Layout) (p : Nat) (L : Layout) (age : UInt32), vol[p]? = some L →
      test L = true → Rewrites pageSize vol (ops p age) (vol.set p ((renew L).stamp age)))
    (first vol : List Layout) (last : UInt32) :
    Rewrites pageSize (first ++ vol) (opsWhere test ops first.length vol last)
      (first ++ FlashBasic.stampWhere test renew vol last) := by
  induction vol generalizing first last with
  | nil => exact .nil _
  | cons L vol ih =>
    rw [opsWhere, FlashBasic.stampWhere]
    by_cases htest : test L = true
    · rw [if_pos htest, if_pos htest]
      have hL : (first ++ L :: vol)[first.length]? = some L := by simp
      have hnext := hstep _ _ _ (last + 1) hL htest
      have hset : (first ++ L :: vol).set first.length ((renew L).stamp (last + 1)) =
          (first ++ [(renew L).stamp (last + 1)]) ++ vol := by simp
      rw [hset] at hnext
      have hrest := ih (first ++ [(renew L).stamp (last + 1)]) (last + 1)
      rw [List.length_append, List.length_singleton] at hrest
      have hall := hnext.trans hrest
      rwa [List.append_assoc first [_] (FlashBasic.stampWhere ..)] at hall
    · rw [if_neg htest, if_neg htest]
      have hrest := ih (first ++ [L]) last
      rw [List.length_append, List.length_singleton, List.append_assoc, List.append_assoc] at hrest
      exact hrest

theorem toNat_lastStamp (vol : List Layout) (last : UInt32)
    (hbound : last.toNat + vol.countP test < 2 ^ 32) :
    (lastStamp test vol last).toNat = last.toNat + vol.countP test := by
  induction vol generalizing last with
  | nil => rfl
  | cons L vol ih =>
    rw [lastStamp]
    by_cases htest : test L = true
    · rw [List.countP_cons_of_pos htest] at hbound ⊢
      have hsucc : (last + 1).toNat = last.toNat + 1 := toNat_nextAge (by omega)
      rw [if_pos htest, ih _ (by omega), hsucc]
      omega
    · rw [List.countP_cons_of_neg htest] at hbound ⊢
      rw [if_neg htest, ih _ hbound]

/-- A page after the walk is one that stayed, or has one of the ages that were given. -/
theorem ages_stampWhere (vol : List Layout) (last : UInt32)
    (hbound : last.toNat + vol.countP test < 2 ^ 32) :
    ∀ L ∈ stampWhere test renew vol last, (L ∈ vol ∧ test L = false) ∨
      (last.toNat < L.ageNumber.toNat ∧
        L.ageNumber.toNat ≤ last.toNat + vol.countP test) := by
  induction vol generalizing last with
  | nil =>
    intro L hL
    cases hL
  | cons L vol ih =>
    rw [stampWhere]
    by_cases htest : test L = true
    · rw [List.countP_cons_of_pos htest] at hbound ⊢
      have hsucc : (last + 1).toNat = last.toNat + 1 := toNat_nextAge (by omega)
      rw [if_pos htest]
      refine List.forall_mem_cons.mpr ⟨Or.inr ?_, ?_⟩
      · rw [Layout.ageNumber_stamp, hsucc]
        omega
      · intro L' hL'
        rcases ih (last + 1) (by omega) L' hL' with ⟨hmem, hkeep⟩ | hage
        · exact Or.inl ⟨List.mem_cons_of_mem _ hmem, hkeep⟩
        · right
          omega
    · rw [List.countP_cons_of_neg htest] at hbound ⊢
      rw [if_neg htest]
      refine List.forall_mem_cons.mpr ⟨Or.inl ⟨List.mem_cons_self, by simpa using htest⟩, ?_⟩
      intro L' hL'
      rcases ih last hbound L' hL' with ⟨hmem, hkeep⟩ | hage
      · exact Or.inl ⟨List.mem_cons_of_mem _ hmem, hkeep⟩
      · exact Or.inr hage

theorem lastStamp_mem (vol : List Layout) (last : UInt32) (hsome : ∃ L ∈ vol, test L = true) :
    lastStamp test vol last ∈ (stampWhere test renew vol last).map (·.ageNumber) := by
  induction vol generalizing last with
  | nil =>
    obtain ⟨L, hL, -⟩ := hsome
    cases hL
  | cons L vol ih =>
    rw [stampWhere, lastStamp]
    by_cases hrest : ∃ L ∈ vol, test L = true
    · by_cases htest : test L = true
      · rw [if_pos htest, if_pos htest]
        exact List.mem_cons_of_mem _ (ih (last + 1) hrest)
      · rw [if_neg htest, if_neg htest]
        exact List.mem_cons_of_mem _ (ih last hrest)
    · have hnone : ∀ L ∈ vol, test L = false := by
        intro L' hL'
        by_contra hc
        exact hrest ⟨L', hL', by simpa using hc⟩
      have htest : test L = true := by
        obtain ⟨L', hL', htest'⟩ := hsome
        rcases List.mem_cons.mp hL' with rfl | hL'
        · exact htest'
        · exact absurd ⟨L', hL', htest'⟩ hrest
      rw [if_pos htest, if_pos htest, (stampWhere_of_none test renew hnone _).2]
      simp

/-- Where all pages are stamped they are numbered. -/
theorem ageNumber_stampWhere {vol : List Layout}
    (hall : ∀ L ∈ vol, test L = true) {last : UInt32} (hbound : last.toNat + vol.length < 2 ^ 32)
    {p : Nat} {L : Layout} (hL : (stampWhere test renew vol last)[p]? = some L) :
    L.ageNumber.toNat = last.toNat + p + 1 := by
  induction vol generalizing last p with
  | nil => cases hL
  | cons L' vol ih =>
    obtain ⟨hL', hall⟩ := List.forall_mem_cons.mp hall
    rw [List.length_cons] at hbound
    have hnext : (last + 1).toNat = last.toNat + 1 := toNat_nextAge (by omega)
    rw [stampWhere, if_pos hL'] at hL
    cases p with
    | zero =>
      cases hL
      rw [Layout.ageNumber_stamp, hnext, Nat.add_zero]
    | succ p =>
      rw [ih hall (by omega) hL, hnext]
      omega

end Walk

/-! ## The newest age -/

theorem toNat_max (a b : UInt32) : (max a b).toNat = max a.toNat b.toNat := by
  have hmax : max a b = if a ≤ b then b else a := rfl
  rw [hmax]
  split
  · rename_i hle
    rw [UInt32.le_iff_toNat_le] at hle
    omega
  · rename_i hle
    rw [UInt32.le_iff_toNat_le] at hle
    omega

theorem toNat_foldl_max (ages : List UInt32) (start : UInt32) :
    (ages.foldl max start).toNat = (ages.map (·.toNat)).foldl max start.toNat := by
  induction ages generalizing start with
  | nil => rfl
  | cons a ages ih => rw [List.foldl_cons, ih, toNat_max, List.map_cons, List.foldl_cons]

theorem le_foldl_max (xs : List Nat) (start : Nat) :
    start ≤ xs.foldl max start ∧ ∀ x ∈ xs, x ≤ xs.foldl max start := by
  induction xs generalizing start with
  | nil => exact ⟨Nat.le_refl _, fun x hx => by cases hx⟩
  | cons y xs ih =>
    obtain ⟨hstart, hxs⟩ := ih (max start y)
    refine ⟨?_, List.forall_mem_cons.mpr ⟨?_, hxs⟩⟩
    · rw [List.foldl_cons]
      omega
    · rw [List.foldl_cons]
      omega

theorem foldl_max_le {xs : List Nat} {start bound : Nat} (hstart : start ≤ bound)
    (h : ∀ x ∈ xs, x ≤ bound) : xs.foldl max start ≤ bound := by
  induction xs generalizing start with
  | nil => exact hstart
  | cons y xs ih =>
    obtain ⟨hy, hxs⟩ := List.forall_mem_cons.mp h
    rw [List.foldl_cons]
    exact ih (by omega) hxs

namespace Store

theorem le_newestAge {ages : List UInt32} {a : UInt32} (ha : a ∈ ages)
    (hstamped : a ≠ Page.erasedAge) : a.toNat ≤ (newestAge ages).toNat := by
  rw [newestAge, toNat_foldl_max]
  refine (le_foldl_max _ _).2 _ (List.mem_map.mpr ⟨a, ?_, rfl⟩)
  exact List.mem_filter.mpr ⟨ha, by simpa using hstamped⟩

/-- The newest age is the one that no other exceeds. -/
theorem newestAge_eq {ages : List UInt32} {x : UInt32} (hx : x ∈ ages)
    (hstamped : ∀ a ∈ ages, a ≠ Page.erasedAge) (hle : ∀ a ∈ ages, a.toNat ≤ x.toNat) :
    newestAge ages = x := by
  refine UInt32.toNat_inj.mp (Nat.le_antisymm ?_ (le_newestAge hx (hstamped x hx)))
  rw [newestAge, toNat_foldl_max]
  refine foldl_max_le (Nat.zero_le _) ?_
  intro n hn
  obtain ⟨a, ha, rfl⟩ := List.mem_map.mp hn
  exact hle a (List.mem_filter.mp ha).1

end Store

/-- While the count stays below the age of an erased page, no page is left without an age, and the
last age given is the newest. -/
theorem newestAge_stampWhere (test : Layout → Bool) (renew : Layout → Layout) {vol : List Layout}
    {last : UInt32} (hlast : Store.newestAge (vol.map (·.ageNumber)) = last)
    (hkept : ∀ L ∈ vol, test L = false → L.ageNumber ≠ Page.erasedAge)
    (hbound : last.toNat + vol.countP test < 2 ^ 32 - 1) :
    (∀ L ∈ stampWhere test renew vol last, L.ageNumber ≠ Page.erasedAge) ∧
      Store.newestAge ((stampWhere test renew vol last).map (·.ageNumber)) =
        lastStamp test vol last := by
  have hages := ages_stampWhere test renew vol last (by omega)
  have herased : Page.erasedAge.toNat = 2 ^ 32 - 1 := rfl
  have hstamped : ∀ L ∈ stampWhere test renew vol last, L.ageNumber ≠ Page.erasedAge := by
    intro L hL
    rcases hages L hL with ⟨hmem, hkeep⟩ | ⟨-, hle⟩
    · exact hkept L hmem hkeep
    · intro hc
      rw [hc, herased] at hle
      omega
  refine ⟨hstamped, ?_⟩
  by_cases hsome : ∃ L ∈ vol, test L = true
  · refine Store.newestAge_eq (lastStamp_mem test renew vol last hsome) ?_ ?_
    · intro a ha
      obtain ⟨L, hL, rfl⟩ := List.mem_map.mp ha
      exact hstamped L hL
    · intro a ha
      obtain ⟨L, hL, rfl⟩ := List.mem_map.mp ha
      rw [toNat_lastStamp test vol last (by omega)]
      rcases hages L hL with ⟨hmem, hkeep⟩ | ⟨-, hle⟩
      · have := Store.le_newestAge (List.mem_map.mpr ⟨L, hmem, rfl⟩) (hkept L hmem hkeep)
        rw [hlast] at this
        omega
      · exact hle
  · have hnone : ∀ L ∈ vol, test L = false := by
      intro L hL
      by_contra hc
      exact hsome ⟨L, hL, by simpa using hc⟩
    obtain ⟨hvol, hstamp⟩ := stampWhere_of_none test renew hnone last
    rw [hvol, hstamp, hlast]

/-- Giving one page the next age makes that the newest one. -/
theorem newestAge_set {vol : List Layout} {last : UInt32} {p : Nat} {L : Layout}
    (hlast : Store.newestAge (vol.map (·.ageNumber)) = last)
    (hstamped : ∀ a ∈ vol.map (·.ageNumber), a ≠ Page.erasedAge) (hp : p < vol.length)
    (hage : L.ageNumber = last + 1) (hbound : last.toNat + 1 < 2 ^ 32 - 1) :
    (∀ a ∈ (vol.set p L).map (·.ageNumber), a ≠ Page.erasedAge) ∧
      Store.newestAge ((vol.set p L).map (·.ageNumber)) = last + 1 := by
  have hsucc : (last + 1).toNat = last.toNat + 1 := toNat_nextAge (by omega)
  have herased : Page.erasedAge.toNat = 2 ^ 32 - 1 := rfl
  have hages : ∀ a ∈ (vol.set p L).map (·.ageNumber),
      a = last + 1 ∨ a ∈ vol.map (·.ageNumber) := by
    intro a ha
    obtain ⟨L', hL', rfl⟩ := List.mem_map.mp ha
    rcases List.mem_or_eq_of_mem_set hL' with hmem | rfl
    · exact Or.inr (List.mem_map.mpr ⟨L', hmem, rfl⟩)
    · exact Or.inl hage
  have hnext : ∀ a ∈ (vol.set p L).map (·.ageNumber), a ≠ Page.erasedAge := by
    intro a ha
    rcases hages a ha with rfl | hmem
    · intro hc
      rw [hc, herased] at hsucc
      omega
    · exact hstamped a hmem
  refine ⟨hnext, Store.newestAge_eq (List.mem_map.mpr ⟨L, List.mem_set hp _, hage⟩) hnext ?_⟩
  intro a ha
  rcases hages a ha with rfl | hmem
  · exact Nat.le_refl _
  · have hle := Store.le_newestAge hmem (hstamped a hmem)
    rw [hlast] at hle
    omega

end FlashBasic
