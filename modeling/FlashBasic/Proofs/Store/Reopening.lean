import FlashBasic.Proofs.Store.Contents

/-!
Reopening a store. As long as the count of ages stays below the age of an erased page, a store knows
exactly what can be read from its flash: `Store.Settled` says so of its pages, its index and its
last age, and `Store.Settled.mount_eq` that reading the flash again gives the same store and writes
nothing.

`Store.Sound.change?_cases` says once what the change of a request can be.
-/

namespace FlashBasic

set_option autoImplicit false

open Item (Stored)
open Page (Layout)

attribute [ext] Store

/-- Free space is erased on every page that is not damaged. -/
def CleanTailed (f : Flash) (pageSize : Nat) : Prop :=
  ∀ p < f.size / pageSize, (Page.scan (f.page pageSize p)).damaged = false →
    ∀ b ∈ (f.page pageSize p).drop (Page.scan (f.page pageSize p)).stop, b = Flash.erased

instance (f : Flash) (pageSize : Nat) : Decidable (CleanTailed f pageSize) :=
  inferInstanceAs (Decidable (∀ p < f.size / pageSize,
    (Page.scan (f.page pageSize p)).damaged = false →
    ∀ b ∈ (f.page pageSize p).drop (Page.scan (f.page pageSize p)).stop, b = Flash.erased))

theorem CleanTailed.isClean {f : Flash} {pageSize : Nat} {vol : List Layout}
    (h : CleanTailed f pageSize) (hreads : Reads f pageSize vol) : ∀ L ∈ vol, L.IsClean := by
  intro L hL hbroken
  obtain ⟨p, hp⟩ := List.mem_iff_getElem?.mp hL
  have hpage := h p (hreads.lt_pageCount hp)
  rw [hreads.page p L hp, L.scan_bytes] at hpage
  have hdrop : L.bytes.drop L.stop = L.tail := by
    rw [Layout.bytes, ← List.append_assoc, ← L.length_head, List.drop_left]
  rw [List.eq_replicate_iff]
  refine ⟨rfl, ?_⟩
  rw [← hdrop]
  exact hpage hbroken

/-- Recovery writes nothing where every page has an age and no line is there twice. -/
theorem Reads.ops_recovery {f : Flash} {pageSize : Nat} {vol : List Layout}
    (h : Reads f pageSize vol) (hnodup : (numbers vol).Nodup)
    (hnone : ∀ L ∈ vol, isErased L = false) : (Store.recovery f pageSize).ops = [] := by
  have hrecovers := Reads.recovers_nil (s := ⟨f, pageSize, [], [], 0⟩) h hnodup
  obtain ⟨f1, hf1⟩ := hrecovers.ops
  rw [hf1, stampErased_eq, opsWhere_of_none isErased _ hnone]
  rfl

namespace Store

/-! ## Settled stores -/

structure Settled (s : Store) (vol : List Layout) : Prop extends Sound s vol where
  stamped : ∀ a ∈ vol.map (·.ageNumber), a ≠ Page.erasedAge
  newest : newestAge (vol.map (·.ageNumber)) = s.lastAge

variable {s : Store} {vol : List Layout}

theorem Settled.not_isErased (h : s.Settled vol) : ∀ L ∈ vol, isErased L = false := by
  intro L hL
  have := h.stamped _ (List.mem_map.mpr ⟨L, hL, rfl⟩)
  simpa [isErased] using this

/-- A store that knows what its flash holds, with an age on every page, is found again as it is. -/
theorem Coherent.mount_eq (h : s.Coherent vol) (hnone : ∀ L ∈ vol, isErased L = false)
    (hnewest : newestAge (vol.map (·.ageNumber)) = s.lastAge) : mount s.flash s.pageSize = s := by
  have hrecovers := Reads.recovers_nil
    (s := { s with pages := [], index := [], lastAge := 0 }) h.reads h.nodup_numbers
  obtain ⟨hvol, hlast⟩ := stampWhere_of_none isErased id hnone
    (newestAge (vol.map (·.ageNumber)))
  have hops := opsWhere_of_none isErased
    (fun p age => [Flash.stamp s.pageSize p age]) hnone 0 (newestAge (vol.map (·.ageNumber)))
  have hstamps := stampErased_eq s.pageSize 0 vol (newestAge (vol.map (·.ageNumber)))
  rw [hops, hlast] at hstamps
  have hcoherent := hrecovers.coherent
  rw [recovered, List.foldl_nil, stampAll, hvol] at hcoherent
  refine Store.ext ?_ rfl ?_ ?_ ?_
  · show s.flash.applyAll (recovery s.flash s.pageSize).ops = s.flash
    rw [h.reads.ops_recovery h.nodup_numbers hnone]
    rfl
  · rw [h.pages]
    exact hcoherent.pages
  · exact hcoherent.indexes.eq_of_indexes h.indexes
  · have hage := hrecovers.lastAge
    rw [hstamps, hnewest] at hage
    exact hage

theorem Settled.mount_eq (h : s.Settled vol) : mount s.flash s.pageSize = s :=
  h.toCoherent.mount_eq h.not_isErased h.newest

theorem recover_eq_mount (s : Store) : s.recover = mount s.flash s.pageSize := rfl

/-! ## Counting stamps -/

/-- Only a stamp is written at the start of a page. -/
def isStamp (pageSize : Nat) : Flash.Op → Bool
  | .write addr _ => addr % pageSize = 0
  | .erase _ _ => false

/-- The number of ages given by a change. -/
def Change.stamps (pageSize : Nat) (c : Change) : Nat := c.ops.countP (isStamp pageSize)

@[simp] theorem isStamp_erase (pageSize p q : Nat) : isStamp pageSize (.erase p q) = false := rfl

@[simp] theorem isStamp_stamp (pageSize p : Nat) (age : UInt32) :
    isStamp pageSize (Flash.stamp pageSize p age) = true := by
  simp [isStamp, Flash.stamp]

theorem countP_opsWhere (pageSize : Nat) (test : Layout → Bool) (ops : Nat → UInt32 → List Flash.Op)
    (hops : ∀ p age, (ops p age).countP (isStamp pageSize) = 1) (vol : List Layout) (p : Nat)
    (last : UInt32) :
    (opsWhere test ops p vol last).countP (isStamp pageSize) = vol.countP test := by
  induction vol generalizing p last with
  | nil => rfl
  | cons L vol ih =>
    rw [opsWhere]
    by_cases htest : test L = true
    · rw [if_pos htest, List.countP_append, hops, ih, List.countP_cons_of_pos htest, Nat.add_comm]
    · rw [if_neg htest, ih, List.countP_cons_of_neg htest]

/-- The change of a request is an edit, it writes a page anew, it clears the store, or it is what
recovery does. -/
theorem Sound.change?_cases (h : s.Sound vol) {r : Request} (hr : r.Valid) {c : Change}
    (hc : s.change? r = some c) :
    (∃ vol', s.Edits c vol vol') ∨ (∃ p L, vol[p]? = some L ∧ c = s.compaction p) ∨
      c = s.clearChange ∨ c = recovery s.flash s.pageSize := by
  cases r with
  | putLine n text =>
    obtain ⟨vol', hedits, -⟩ := h.putLineChange? (ofId_eq_line hr) hc
    exact Or.inl ⟨vol', hedits⟩
  | deleteLine n =>
    obtain ⟨vol', hedits, -⟩ := h.deleteLineChange? hc
    exact Or.inl ⟨vol', hedits⟩
  | putRecord key data =>
    obtain ⟨vol', hedits, -⟩ := h.putRecordChange? hc
    exact Or.inl ⟨vol', hedits⟩
  | deleteRecord key =>
    obtain ⟨vol', hedits, -⟩ := h.deleteRecordChange? hc
    exact Or.inl ⟨vol', hedits⟩
  | compact length scratch =>
    obtain ⟨p, hp, rfl⟩ := Option.map_eq_some_iff.mp hc
    obtain ⟨L, hL⟩ := h.exists_target hp
    exact Or.inr (Or.inl ⟨p, L, hL, rfl⟩)
  | clear => exact Or.inr (Or.inr (Or.inl (Option.some.inj hc).symm))
  | recover => exact Or.inr (Or.inr (Or.inr (Option.some.inj hc).symm))

/-- The number of ages given by a request. -/
def stampsOf (s : Store) (r : Request) : Nat := ((s.change? r).map (·.stamps s.pageSize)).getD 0

theorem one_le_stamps_compaction (s : Store) (p : Nat) :
    1 ≤ (s.compaction p).stamps s.pageSize := by
  rw [Change.stamps, Store.compaction, compactionOn]
  simp

/-! ## What keeps a store settled -/

theorem countP_isErased_le {dropped : List Nat} (h : Recovers s vol dropped) :
    vol.countP isErased ≤ (recovery s.flash s.pageSize).stamps s.pageSize := by
  obtain ⟨f1, hf1⟩ := h.ops
  rw [Change.stamps, hf1, stampErased_eq, List.countP_append,
    countP_opsWhere s.pageSize _ _ fun p age => by simp]
  exact Nat.le_add_right _ _

/-- Recovery leaves an age on every page, and the last one it gave is the newest. -/
theorem ages_recover {dropped : List Nat} (h : Recovers s vol dropped)
    (hbound : (newestAge (vol.map (·.ageNumber))).toNat + vol.countP isErased < 2 ^ 32 - 1) :
    (∀ a ∈ (recovered s.pageSize vol dropped).map (·.ageNumber), a ≠ Page.erasedAge) ∧
      newestAge ((recovered s.pageSize vol dropped).map (·.ageNumber)) = s.recover.lastAge := by
  obtain ⟨hstamped, hnewest⟩ := newestAge_stampWhere isErased id rfl
    (fun L _ htest => by simpa [isErased] using htest) hbound
  have hages := map_ageNumber_congr (map_age_recovered s.pageSize vol dropped)
  rw [hages]
  constructor
  · intro a ha
    obtain ⟨L, hL, rfl⟩ := List.mem_map.mp ha
    exact hstamped L hL
  · rw [h.lastAge, stampErased_eq]
    exact hnewest

theorem Settled.of_recover (hreads : Reads s.flash s.pageSize vol) (hclean : ∀ L ∈ vol, L.IsClean)
    (hbound : (newestAge (vol.map (·.ageNumber))).toNat +
      (recovery s.flash s.pageSize).stamps s.pageSize < 2 ^ 32 - 1) :
    ∃ vol', s.recover.Settled vol' := by
  obtain ⟨dropped, hrecovers⟩ := hreads.exists_recover
  have hcount := countP_isErased_le hrecovers
  obtain ⟨hstamped, hnewest⟩ :=
    ages_recover hrecovers (Nat.lt_of_le_of_lt (Nat.add_le_add_left hcount _) hbound)
  exact ⟨_, ⟨hrecovers.coherent, isClean_recovered hclean dropped⟩, hstamped, hnewest⟩

theorem Settled.edit {c : Change} {vol' : List Layout} (h : s.Settled vol)
    (hedits : s.Edits c vol vol') : (s.commit c).Settled vol' := by
  have hages := map_ageNumber_congr hedits.age
  refine ⟨hedits.sound, ?_, ?_⟩
  · rw [hages]
    exact h.stamped
  · rw [hages, h.newest]
    exact hedits.lastAge.symm

theorem Settled.clear (h : s.Settled vol)
    (hbound : s.lastAge.toNat + s.clearChange.stamps s.pageSize < 2 ^ 32 - 1) :
    ∃ vol', s.clear.Settled vol' := by
  have hcount : s.clearChange.stamps s.pageSize = vol.countP (isUsed s.pageSize) := by
    rw [Change.stamps, clearChange, h.pages, eraseUsed_eq]
    exact countP_opsWhere s.pageSize _ _ (fun p age => by simp) vol 0 _
  rw [hcount] at hbound
  obtain ⟨hstamped, hnewest⟩ := newestAge_stampWhere (isUsed s.pageSize)
    (fun _ => Layout.blank s.pageSize) h.newest
    (fun L hL _ => h.stamped _ (List.mem_map.mpr ⟨L, hL, rfl⟩)) hbound
  refine ⟨_, h.toSound.clear.1, ?_, ?_⟩
  · intro a ha
    obtain ⟨L, hL, rfl⟩ := List.mem_map.mp ha
    exact hstamped L hL
  · have hlast : s.clear.lastAge = lastStamp (isUsed s.pageSize) vol s.lastAge := by
      rw [Store.clear, clearOn, commitOn, clearChange, h.pages, eraseUsed_eq]
    rw [hlast]
    exact hnewest

/-- The ages once one page was compacted. -/
theorem Settled.ages_compacted (h : s.Settled vol) {p : Nat} {L : Layout} (hL : vol[p]? = some L)
    (hbound : s.lastAge.toNat + 1 < 2 ^ 32 - 1) :
    (∀ a ∈ (vol.set p (L.compacted (s.lastAge + 1))).map (·.ageNumber), a ≠ Page.erasedAge) ∧
      newestAge ((vol.set p (L.compacted (s.lastAge + 1))).map (·.ageNumber)) = s.lastAge + 1 ∧
      ∀ L' ∈ vol.set p (L.compacted (s.lastAge + 1)), isErased L' = false := by
  have hp : p < vol.length := (List.getElem?_eq_some_iff.mp hL).1
  obtain ⟨hstamped, hnewest⟩ := newestAge_set h.newest h.stamped hp
    (L.ageNumber_compacted (s.lastAge + 1)) hbound
  refine ⟨hstamped, hnewest, ?_⟩
  intro L' hL'
  have := hstamped _ (List.mem_map.mpr ⟨L', hL', rfl⟩)
  simpa [isErased] using this

theorem Settled.compaction (h : s.Settled vol) {p : Nat} {L : Layout} (hL : vol[p]? = some L)
    (hbound : s.lastAge.toNat + (s.compaction p).stamps s.pageSize < 2 ^ 32 - 1) :
    ∃ vol', (s.commit (s.compaction p)).Settled vol' := by
  have hcount := one_le_stamps_compaction s p
  obtain ⟨hstamped, hnewest, hnone⟩ := h.ages_compacted hL (by omega)
  obtain ⟨hvol, hlast⟩ := stampWhere_of_none isErased id hnone (s.lastAge + 1)
  have hsound := (h.toSound.compaction hL).1
  rw [compactedVolume, hnewest, stampAll, hvol] at hsound
  refine ⟨_, hsound, hstamped, ?_⟩
  rw [h.lastAge_compaction hL, hnewest, hlast]

theorem Settled.perform (h : s.Settled vol) {r : Request} (hr : r.Valid)
    (hbound : s.lastAge.toNat + s.stampsOf r < 2 ^ 32 - 1) :
    ∃ vol', (s.perform r).Settled vol' := by
  rw [perform_eq]
  rw [stampsOf] at hbound
  cases hc : s.change? r with
  | none => exact ⟨vol, h⟩
  | some c =>
    rw [hc] at hbound
    simp only [Option.map_some, Option.getD_some] at hbound ⊢
    obtain ⟨vol', hedits⟩ | ⟨p, L, hL, rfl⟩ | rfl | rfl := h.change?_cases hr hc
    · exact ⟨vol', h.edit hedits⟩
    · exact h.compaction hL hbound
    · exact h.clear hbound
    · refine ⟨vol, ?_⟩
      show s.recover.Settled vol
      rw [recover_eq_mount, h.mount_eq]
      exact h

/-! ## Every run -/

/-- The stores that requests lead to from a flash image, the ages staying below that of an erased
page. -/
inductive Reached (image : Flash) (pageSize : Nat) : Store → Prop where
  | mount : (newestAge ((List.range (image.size / pageSize)).map (image.age pageSize))).toNat +
      (recovery image pageSize).stamps pageSize < 2 ^ 32 - 1 →
      Reached image pageSize (mount image pageSize)
  | perform {s : Store} {r : Request} : Reached image pageSize s → r.Valid →
      s.lastAge.toNat + s.stampsOf r < 2 ^ 32 - 1 → Reached image pageSize (s.perform r)

theorem Reached.exists_settled {image : Flash} {pageSize : Nat} {s : Store}
    (h : Reached image pageSize s) (hsize : Page.ageLength ≤ pageSize)
    (hclean : CleanTailed image pageSize) : s.pageSize = pageSize ∧ ∃ vol, s.Settled vol := by
  induction h with
  | mount hbound =>
    obtain ⟨vol, hreads⟩ := exists_volume image pageSize hsize
    rw [hreads.map_age] at hbound
    exact ⟨rfl, Settled.of_recover hreads (hclean.isClean hreads) hbound⟩
  | perform _ hr hbound ih =>
    obtain ⟨hpage, vol, hsettled⟩ := ih
    exact ⟨(pageSize_perform _ _).trans hpage, hsettled.perform hr hbound⟩

/-- Reopening a store gives back the same store, and its flash is not written. -/
theorem mount_reached (image : Flash) (pageSize : Nat) (hsize : Page.ageLength ≤ pageSize)
    (hclean : CleanTailed image pageSize) {s : Store} (h : Reached image pageSize s) :
    mount s.flash pageSize = s := by
  obtain ⟨rfl, vol, hsettled⟩ := h.exists_settled hsize hclean
  exact hsettled.mount_eq

/-- Two copies of line 10, the second on a damaged page. -/
theorem mount_reached_damaged :
    let image : Flash := ⟨#[1, 0, 0, 0, 10, 0, 8, 3, 65, 255, 255, 255, 255, 255, 255, 255,
      2, 0, 0, 0, 10, 0, 8, 3, 66, 255, 255, 255, 5, 0, 7, 0]⟩
    let s := ((mount image 16).perform (.compact 8 16)).perform (.putLine 20 [67])
    Page.ageLength ≤ 16 ∧ CleanTailed image 16 ∧ Reached image 16 s ∧ mount s.flash 16 = s := by
  intro image s
  have hclean : CleanTailed image 16 := by decide +kernel
  have hs : Reached image 16 s :=
    .perform (.perform (.mount (by decide +kernel)) (by decide) (by decide +kernel)) (by decide)
      (by decide +kernel)
  exact ⟨by decide, hclean, hs, mount_reached image 16 (by decide) hclean hs⟩

end Store

end FlashBasic
