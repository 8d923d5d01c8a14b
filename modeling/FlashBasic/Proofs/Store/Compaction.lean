import FlashBasic.Proofs.Store.RecordCopies

/-!
What compaction does. `Store.compact?` takes the page that ends up with the most free bytes, the
first of them if there are several, and writes it anew without its deleted items and whatever was
unreadable on it. `Store.Compacted` lists what is different afterwards and what is not, and
`Store.compact_reached` says when it happens.

The page gets an age above all others. That is the next age of the count, except when the next age
is that of an erased page: recovery then stamps the page once more (`Store.Settled.compactedVolume_eq`).
-/

namespace FlashBasic

set_option autoImplicit false

open Item (Stored)
open Page (Layout)

/-! ## The page that is taken -/

namespace Store

/-- Compacting page `p`, with the figures `info`, gives at least `length` free bytes, and none of the
pages of which this is true ends up with more free bytes; those that end up with as many come
later. -/
structure Best (pages : List Page.Info) (length p : Nat) (info : Page.Info) : Prop where
  figures : pages[p]? = some info
  wasteful : 0 < info.waste
  enough : length ≤ info.waste + info.free
  most : ∀ q other, pages[q]? = some other → 0 < other.waste → length ≤ other.waste + other.free →
    other.waste + other.free < info.waste + info.free ∨
      other.waste + other.free = info.waste + info.free ∧ p ≤ q

variable {s : Store} {vol : List Layout}

theorem worthCompacting_iff {length : Nat} {info : Page.Info} :
    worthCompacting length info = true ↔ 0 < info.waste ∧ length ≤ info.waste + info.free := by
  simp [worthCompacting]

theorem best_of_compactionTarget? {length scratch p : Nat}
    (h : s.compactionTarget? length scratch = some p) : ∃ info, Best s.pages length p info := by
  obtain ⟨hscratch, info, hinfo, hworth⟩ := compactionTarget?_eq_some h
  obtain ⟨hwaste, henough⟩ := worthCompacting_iff.mp hworth
  refine ⟨info, hinfo, hwaste, henough, ?_⟩
  intro q other hother hqwaste hqenough
  have hq := precedes_compactionTarget? h hother (worthCompacting_iff.mpr ⟨hqwaste, hqenough⟩)
  rwa [gain_eq hinfo, gain_eq hother] at hq

/-- Some page is compacted exactly when it can be copied and one has enough to gain. -/
theorem compact?_isSome_iff {length scratch : Nat} :
    (s.compact? length scratch).isSome = true ↔
      s.pageSize ≤ scratch ∧ ∃ info ∈ s.pages, 0 < info.waste ∧ length ≤ info.waste + info.free := by
  rw [compact?_eq, Option.isSome_map, ← not_iff_not, Bool.not_eq_true, Option.isSome_eq_false_iff,
    Option.isNone_iff_eq_none, compactionTarget?_eq_none_iff]
  simp only [← Bool.not_eq_true, worthCompacting_iff, not_and, not_exists, Nat.not_le]
  constructor
  · rintro (hlt | h) hle
    · omega
    · exact h
  · intro h
    rcases Nat.lt_or_ge scratch s.pageSize with hlt | hge
    · exact Or.inl hlt
    · exact Or.inr (h hge)

end Store

/-! ## The age of the page -/

/-- Stamping a volume in which one page has no age. -/
theorem stampAll_set {vol : List Layout} (hnone : ∀ L ∈ vol, isErased L = false) {p : Nat}
    (hp : p < vol.length) {L : Layout} (hL : isErased L = true) (last : UInt32) :
    stampAll (vol.set p L) last = vol.set p (L.stamp (last + 1)) := by
  induction vol generalizing p with
  | nil => cases hp
  | cons L' vol ih =>
    obtain ⟨hL', hrest⟩ := List.forall_mem_cons.mp hnone
    cases p with
    | zero =>
      rw [List.set_cons_zero, List.set_cons_zero, stampAll, stampWhere, if_pos hL,
        (stampWhere_of_none isErased id hrest _).1]
      rfl
    | succ p =>
      have hnot : ¬ isErased L' = true := by rw [hL']; exact Bool.false_ne_true
      rw [List.set_cons_succ, List.set_cons_succ, stampAll, stampWhere, if_neg hnot]
      exact congrArg _ (ih hrest (Nat.lt_of_succ_lt_succ hp))

namespace Store

variable {s : Store} {vol : List Layout}

/-- The newest age is never that of an erased page, so there is a next one. -/
theorem newestAge_succ_lt (ages : List UInt32) : (newestAge ages).toNat + 1 < 2 ^ 32 := by
  have hle : (newestAge ages).toNat ≤ 2 ^ 32 - 2 := by
    rw [newestAge, toNat_foldl_max]
    refine foldl_max_le (Nat.zero_le _) ?_
    intro n hn
    obtain ⟨a, ha, rfl⟩ := List.mem_map.mp hn
    have hne : a ≠ Page.erasedAge := by simpa using (List.mem_filter.mp ha).2
    have hne' : a.toNat ≠ 2 ^ 32 - 1 := fun hc => hne (UInt32.toNat_inj.mp hc)
    have := a.toNat_lt
    omega
  omega

/-- After compaction the page has an age above all others, and nothing else has changed. -/
theorem Settled.compactedVolume_eq (h : s.Settled vol) {p : Nat} {L : Layout}
    (hL : vol[p]? = some L) :
    ∃ age, compactedVolume vol p L (s.lastAge + 1) = vol.set p (L.compacted age) ∧
      ∀ q L', vol[q]? = some L' → q ≠ p → L'.ageNumber < age := by
  have hp : p < vol.length := (List.getElem?_eq_some_iff.mp hL).1
  have hle : ∀ L' ∈ vol, L'.ageNumber.toNat ≤ s.lastAge.toNat := by
    intro L' hL'
    have hmem : L'.ageNumber ∈ vol.map (·.ageNumber) := List.mem_map.mpr ⟨L', hL', rfl⟩
    rw [← h.newest]
    exact le_newestAge hmem (h.stamped _ hmem)
  have hlast : s.lastAge.toNat + 1 < 2 ^ 32 := h.newest ▸ newestAge_succ_lt _
  by_cases hbound : s.lastAge.toNat + 1 < 2 ^ 32 - 1
  · -- The next age is taken for an age.
    obtain ⟨-, -, hnone⟩ := h.ages_compacted hL hbound
    refine ⟨s.lastAge + 1, ?_, ?_⟩
    · rw [compactedVolume, stampAll, (stampWhere_of_none isErased id hnone _).1]
    · intro q L' hL' _
      have := hle L' (List.mem_of_getElem? hL')
      rw [UInt32.lt_iff_toNat_lt, UInt32.toNat_add, UInt32.toNat_one, Nat.mod_eq_of_lt hlast]
      omega
  · -- The next age is that of an erased page, so recovery counts on from the other pages.
    have hnext : s.lastAge + 1 = Page.erasedAge := by
      apply UInt32.toNat_inj.mp
      have herased : Page.erasedAge.toNat = 2 ^ 32 - 1 := rfl
      rw [UInt32.toNat_add, UInt32.toNat_one, Nat.mod_eq_of_lt hlast, herased]
      omega
    rw [hnext, compactedVolume]
    have herased : isErased (L.compacted Page.erasedAge) = true := by
      simp [isErased, Layout.ageNumber_compacted]
    generalize hnew : newestAge ((vol.set p (L.compacted Page.erasedAge)).map (·.ageNumber)) = newest
    have hnewest : newest.toNat + 1 < 2 ^ 32 := hnew ▸ newestAge_succ_lt _
    refine ⟨newest + 1, stampAll_set h.not_isErased hp herased newest, ?_⟩
    intro q L' hL' hq
    have hget : (vol.set p (L.compacted Page.erasedAge))[q]? = some L' := by
      rw [List.getElem?_set_ne (Ne.symm hq)]
      exact hL'
    have hmem : L'.ageNumber ∈ (vol.set p (L.compacted Page.erasedAge)).map (·.ageNumber) :=
      List.mem_map.mpr ⟨L', List.mem_of_getElem? hget, rfl⟩
    have hage := h.stamped _ (List.mem_map.mpr ⟨L', List.mem_of_getElem? hL', rfl⟩)
    have hbelow := le_newestAge hmem hage
    rw [hnew] at hbelow
    rw [UInt32.lt_iff_toNat_lt, UInt32.toNat_add, UInt32.toNat_one, Nat.mod_eq_of_lt hnewest]
    omega

/-! ## Records -/

/-- The data of an item that is a record of the key. -/
def recordData? (key : RecordKey) (i : Stored) : Option (List UInt8) := (copy? key (0, i)).map (·.2)

theorem Coherent.record?_eq_head?_contents (h : s.Coherent vol) (key : RecordKey) :
    s.record? key = ((contents vol).filterMap (recordData? key)).head? := by
  rw [h.record?_eq_head? key, ← List.head?_map, recordCopies, List.map_filterMap,
    ← map_snd_entries s.pageSize vol, List.filterMap_map]
  refine congrArg List.head? (List.filterMap_congr fun e _ => ?_)
  rw [Function.comp_apply, recordData?, copy?, copy?]
  split <;> rfl

theorem recordData?_of_not_isLive (key : RecordKey) (i : Stored) (hlive : i.isLive = false) :
    recordData? key i = none := by
  have hkind : i.kind = .tombstone := by simpa [Stored.isLive] using hlive
  simp [recordData?, copy?, hkind]

/-! ## Compaction -/

/-- `s'` is `s` once its page `p`, with the figures `info`, was compacted. -/
structure Compacted (s s' : Store) (p : Nat) (info : Page.Info) : Prop where
  /-- The waste of the page has become free, and no other figure has changed. -/
  figures : s'.pages = s.pages.set p { free := info.free + info.waste, waste := 0 }
  newest : ∀ q < s.pages.length, q ≠ p → s'.age q < s'.age p
  /-- The page holds its age, what was not deleted in the same order, and free space. -/
  page : s'.flash.page s.pageSize p = LittleEndian.ofUInt32 (s'.age p) ++
    ((liveItems (s.flash.page s.pageSize p)).flatten ++
      List.replicate (info.free + info.waste) Flash.erased)
  others : ∀ q < s.pages.length, q ≠ p → s'.flash.page s.pageSize q = s.flash.page s.pageSize q
  ids : s'.ids = s.ids
  line : ∀ pos, s'.line? pos = s.line? pos
  record : ∀ key, s'.record? key = s.record? key

theorem bytes_compacted (L : Layout) (age : UInt32) :
    (L.compacted age).bytes = LittleEndian.ofUInt32 age ++ ((liveItems L.bytes).flatten ++
      List.replicate (L.info.free + L.info.waste) Flash.erased) := by
  have htail : (L.compacted age).tail.length = L.info.free + L.info.waste := by
    have hinfo := L.info_compacted age
    have hbroken : Page.broken (L.compacted age).tail = false := Page.broken_replicate _
    rw [Layout.info, hbroken] at hinfo
    rw [Nat.add_comm]
    exact congrArg Page.Info.free hinfo
  have herased : (L.compacted age).tail = List.replicate (L.compacted age).tail.length
      Flash.erased := Layout.isClean_appendAll _ _ (Page.broken_replicate _)
  rw [htail] at herased
  rw [Layout.bytes, herased, Layout.items_compacted, liveItems_bytes, List.flatMap_def]
  rfl

theorem Settled.compacted (h : s.Settled vol) {p : Nat} {info : Page.Info}
    (hinfo : s.pages[p]? = some info) : Compacted s (s.commit (s.compaction p)) p info := by
  rw [h.pages, List.getElem?_map] at hinfo
  obtain ⟨L, hL, rfl⟩ := Option.map_eq_some_iff.mp hinfo
  have hp : p < vol.length := (List.getElem?_eq_some_iff.mp hL).1
  obtain ⟨hsound, hbindings⟩ := h.toSound.compaction hL
  obtain ⟨age, hvol, hages⟩ := h.compactedVolume_eq hL
  rw [hvol] at hsound hbindings
  generalize hs' : s.commit (s.compaction p) = s' at hsound
  have hsize : s'.pageSize = s.pageSize := by rw [← hs']; rfl
  have hreads := hsound.reads
  rw [hsize] at hreads
  have hpages : s.pages.length = vol.length := by rw [h.pages, List.length_map]
  have hget : (vol.set p (L.compacted age))[p]? = some (L.compacted age) := by simp [hp]
  have hother {q : Nat} (hq : q < s.pages.length) (hne : q ≠ p) :
      ∃ L', vol[q]? = some L' ∧ (vol.set p (L.compacted age))[q]? = some L' := by
    rw [hpages] at hq
    refine ⟨vol[q], List.getElem?_eq_getElem hq, ?_⟩
    rw [List.getElem?_set_ne (Ne.symm hne)]
    exact List.getElem?_eq_getElem hq
  have hage : s'.age p = age := by
    rw [Store.age, hsize, hreads.age hget, Layout.ageNumber_compacted]
  have hlines : s'.lines = s.lines :=
    h.lines_eq hsound.toCoherent fun n text => by rw [hbindings]
  constructor
  · rw [hsound.pages, List.map_set, Layout.info_compacted, ← h.pages, Nat.add_comm]
  · intro q hq hne
    obtain ⟨L', hL', hset⟩ := hother hq hne
    rw [hage, Store.age, hsize, hreads.age hset]
    exact hages q L' hL' hne
  · rw [hage, hreads.page p _ hget, h.reads.page p L hL]
    exact bytes_compacted L age
  · intro q hq hne
    obtain ⟨L', hL', hset⟩ := hother hq hne
    rw [hreads.page q L' hset, h.reads.page q L' hL']
  · have hids := congrArg (List.map Prod.fst) hlines
    rw [Store.lines, Store.lines, List.map_map, List.map_map] at hids
    exact hids
  · intro pos
    rw [line?_eq, line?_eq, hlines]
  · intro key
    rw [hsound.record?_eq_head?_contents, h.record?_eq_head?_contents,
      filterMap_compacted _ (recordData?_of_not_isLive key) hL age]

/-- Compaction in any state of a store that was mounted from an image with erased free space. -/
theorem compact_reached (image : Flash) (pageSize : Nat) (hsize : Page.ageLength ≤ pageSize)
    (hclean : CleanTailed image pageSize) {s : Store} (h : Reached image pageSize s)
    (length scratch : Nat) :
    ((s.compact? length scratch).isSome = true ↔ s.pageSize ≤ scratch ∧
        ∃ info ∈ s.pages, 0 < info.waste ∧ length ≤ info.waste + info.free) ∧
      (∀ s', s.compact? length scratch = some s' →
        (∃ p info, Best s.pages length p info ∧ Compacted s s' p info) ∧
          ∃ q, s'.pageFor? length = some q) ∧
      (s.compact? length scratch = none → s.perform (.compact length scratch) = s) := by
  obtain ⟨-, vol, hsettled⟩ := h.exists_settled hsize hclean
  refine ⟨compact?_isSome_iff, ?_, ?_⟩
  · intro s' hs'
    rw [compact?_eq] at hs'
    obtain ⟨p, hp, rfl⟩ := Option.map_eq_some_iff.mp hs'
    obtain ⟨info, hbest⟩ := best_of_compactionTarget? hp
    have hcompacted := hsettled.compacted hbest.figures
    refine ⟨⟨p, info, hbest, hcompacted⟩, ?_⟩
    by_contra hnone
    have hall := pageFor?_eq_none_iff.mp (Option.eq_none_iff_forall_ne_some.mpr
      fun q hq => hnone ⟨q, hq⟩)
    have hlt : p < s.pages.length := (List.getElem?_eq_some_iff.mp hbest.figures).1
    rw [hcompacted.figures] at hall
    have hfree := hall _ (List.mem_set hlt _)
    have := hbest.enough
    simp only at hfree
    omega
  · intro hnone
    rw [perform_compact, hnone, Option.getD_none]

/-- Two pages that would end up with eight free bytes each, the second of them damaged, and a copy of
one record on both: the first page is taken, and the record read is the same. -/
theorem compact_reached_tie :
    let image : Flash := ⟨#[1, 0, 0, 0, 254, 255, 12, 3, 5, 0, 0, 0, 1, 255, 255, 255, 0, 0, 4, 0,
      20, 0, 8, 3, 67, 255, 255, 255, 255, 255, 255, 255,
      2, 0, 0, 0, 10, 0, 8, 3, 66, 255, 255, 255, 254, 255, 12, 3, 5, 0, 0, 0, 2, 255, 255, 255,
      5, 0, 7, 0, 0, 0, 0, 0]⟩
    let s := mount image 32
    Page.ageLength ≤ 32 ∧ CleanTailed image 32 ∧ Reached image 32 s ∧
      s.pages = [⟨4, 4⟩, ⟨0, 8⟩] ∧ s.record? 5 = some [1] ∧
      ((s.compact? 8 32).isSome = true ↔ s.pageSize ≤ 32 ∧
        ∃ info ∈ s.pages, 0 < info.waste ∧ 8 ≤ info.waste + info.free) ∧
      (∀ s', s.compact? 8 32 = some s' →
        (∃ p info, Best s.pages 8 p info ∧ Compacted s s' p info) ∧ ∃ q, s'.pageFor? 8 = some q) ∧
      (s.compact? 8 32 = none → s.perform (.compact 8 32) = s) := by
  intro image s
  have hclean : CleanTailed image 32 := by decide +kernel
  have hs : Reached image 32 s := .mount (by decide +kernel)
  exact ⟨by decide, hclean, hs, by decide +kernel, by decide +kernel,
    compact_reached image 32 (by decide) hclean hs 8 32⟩

end Store

end FlashBasic
