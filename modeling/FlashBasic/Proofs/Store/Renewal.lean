import FlashBasic.Proofs.Store.Editing

/-!
Erasing pages. `Store.clear` leaves blank pages; compaction writes a page anew with the items that
are not deleted, so that what the store holds stays the same and the waste of the page becomes free.

* `Store.Sound.clear` and `Store.Sound.compaction` say that both keep a store sound.
-/

namespace FlashBasic

set_option autoImplicit false

open Item (Stored)
open Page (Layout)

/-! ## Writing items on a blank page -/

namespace Page

theorem span_filter (items : List Stored) :
    span (items.filter (·.isLive)) + span (items.filter fun i => !i.isLive) = span items := by
  induction items with
  | nil => rfl
  | cons i items ih =>
    cases hlive : i.isLive <;> simp [hlive] <;> omega

namespace Layout

/-- Puts items one after the other on the free space. -/
def appendAll (L : Layout) (items : List Stored) : Layout :=
  { L with
    items := L.items ++ items
    tail := List.replicate (L.tail.length - span items) Flash.erased
    ended := ended_replicate _ }

/-- The page as compaction writes it anew. -/
def compacted (L : Layout) (age : UInt32) : Layout :=
  ((blank L.bytes.length).stamp age).appendAll (L.items.filter (·.isLive))

theorem appendAll_nil {L : Layout} (htail : L.tail = List.replicate L.tail.length Flash.erased) :
    L.appendAll [] = L := by
  obtain ⟨age, items, tail, hage, hended⟩ := L
  simp only [appendAll, List.append_nil, span_nil, Nat.sub_zero]
  congr 1
  exact htail.symm

theorem appendAll_cons (L : Layout) (i : Stored) (items : List Stored) :
    L.appendAll (i :: items) = (L.append i).appendAll items := by
  simp [appendAll, append, Nat.sub_sub]

theorem stop_append (L : Layout) (i : Stored) : (L.append i).stop = L.stop + i.length := by
  simp [stop, append, Nat.add_assoc]

theorem isClean_appendAll (L : Layout) (items : List Stored) : (L.appendAll items).IsClean :=
  fun _ => by simp [appendAll]

theorem items_compacted (L : Layout) (age : UInt32) :
    (L.compacted age).items = L.items.filter (·.isLive) := rfl

theorem ageNumber_compacted (L : Layout) (age : UInt32) : (L.compacted age).ageNumber = age :=
  ageNumber_stamp (blank L.bytes.length) age

/-- Live items, waste and free space make up a page, damaged or not. -/
theorem info_total (L : Layout) :
    ageLength + span (L.items.filter (·.isLive)) + L.info.waste + L.info.free =
      L.bytes.length := by
  have hspan := span_filter L.items
  have hlen := L.length_bytes
  rw [stop] at hlen
  have htotal : L.info.waste + L.info.free = L.tail.length + L.buried := by
    rw [info]
    split
    · rfl
    · exact Nat.add_comm _ _
  rw [buried] at htotal
  omega

/-- Compaction turns waste into free bytes. -/
theorem info_compacted (L : Layout) (age : UInt32) :
    (L.compacted age).info = { free := L.info.waste + L.info.free, waste := 0 } := by
  have htotal := L.info_total
  have hburied : (L.compacted age).buried = 0 := by
    simp [buried, items_compacted, List.filter_filter]
  have hbroken : broken (L.compacted age).tail = false := broken_replicate _
  have htail : (L.compacted age).tail.length =
      L.bytes.length - ageLength - span (L.items.filter (·.isLive)) := by
    simp [compacted, appendAll, stamp, blank]
  rw [info, hbroken, hburied, htail]
  simp only [Bool.false_eq_true, if_false, Info.mk.injEq, and_true]
  omega

end Layout

end Page

theorem Rewrites.writeItems {pageSize p : Nat} (items : List Stored) (vol : List Layout) {L : Layout}
    (hL : vol[p]? = some L) (htail : L.tail = List.replicate L.tail.length Flash.erased)
    (hle : Page.span items ≤ L.tail.length) :
    Rewrites pageSize vol (Store.writeItems (p * pageSize + L.stop) (items.map (·.bytes)))
      (vol.set p (L.appendAll items)) := by
  induction items generalizing vol L with
  | nil =>
    obtain ⟨hp, rfl⟩ := List.getElem?_eq_some_iff.mp hL
    rw [Layout.appendAll_nil htail, List.set_getElem_self]
    exact .nil vol
  | cons i items ih =>
    rw [Page.span_cons] at hle
    have hp : p < vol.length := (List.getElem?_eq_some_iff.mp hL).1
    have hget : (vol.set p (L.append i))[p]? = some (L.append i) := by simp [hp]
    have hrest := ih _ hget (by simp [Layout.append]) (by simp [Layout.append]; omega)
    rw [List.set_set, ← Layout.appendAll_cons, Layout.stop_append, ← Nat.add_assoc] at hrest
    exact .cons (.append hL htail (by omega)) hrest

theorem liveItems_bytes (L : Layout) :
    Store.liveItems L.bytes = (L.items.filter (·.isLive)).map (·.bytes) := by
  have hright : ∀ es : List (Nat × Stored), ((es.map (·.2)).filter (·.isLive)).map (·.bytes) =
      es.filterMap fun e => if e.2.isLive then some e.2.bytes else none := by
    intro es
    induction es with
    | nil => rfl
    | cons e es ih => cases hlive : e.2.isLive <;> simp [hlive, ih]
  have hitems : L.items = L.places.map (·.2) := (Page.map_snd_places _ _).symm
  rw [Store.liveItems, Layout.scan_bytes, hitems, hright]
  dsimp only
  rw [List.filterMap_map]
  refine List.filterMap_congr ?_
  rintro ⟨o, i⟩ hi
  obtain ⟨rest, hrest⟩ := L.drop_place hi
  simp only [Function.comp_apply, hrest, i.header_length, Stored.length, List.take_left]
  by_cases hk : i.header.kind = .tombstone <;> simp [Stored.isLive, Stored.kind, hk]

/-! ## What is held -/

theorem contents_set {vol : List Layout} {p : Nat} {L : Layout} (hL : vol[p]? = some L) :
    ∃ before after, contents vol = before ++ L.items ++ after ∧
      ∀ L', contents (vol.set p L') = before ++ L'.items ++ after := by
  obtain ⟨hp, rfl⟩ := List.getElem?_eq_some_iff.mp hL
  refine ⟨contents (vol.take p), contents (vol.drop (p + 1)), ?_, ?_⟩
  · conv_lhs => rw [← List.take_append_drop p vol, ← List.getElem_cons_drop hp]
    simp only [contents, List.flatMap_append, List.flatMap_cons, List.append_assoc]
  · intro L'
    rw [List.set_eq_take_append_cons_drop, if_pos hp]
    simp [contents]

/-- What is read from items, and never from deleted ones, survives compaction. -/
theorem filterMap_compacted {α : Type} (g : Stored → Option α)
    (hg : ∀ i : Stored, i.isLive = false → g i = none) {vol : List Layout} {p : Nat} {L : Layout}
    (hL : vol[p]? = some L) (age : UInt32) :
    (contents (vol.set p (L.compacted age))).filterMap g = (contents vol).filterMap g := by
  obtain ⟨before, after, hold, hnew⟩ := contents_set hL
  have hitems : (L.items.filter (·.isLive)).filterMap g = L.items.filterMap g := by
    rw [List.filterMap_filter]
    refine List.filterMap_congr ?_
    intro i _
    cases hlive : i.isLive
    · rw [hg i hlive]
      rfl
    · rfl
  rw [hold, hnew, Layout.items_compacted]
  simp only [List.filterMap_append, hitems]

theorem bindings_compacted {vol : List Layout} {p : Nat} {L : Layout} (hL : vol[p]? = some L)
    (age : UInt32) : bindings (vol.set p (L.compacted age)) = bindings vol := by
  refine filterMap_compacted _ ?_ hL age
  intro i hlive
  cases hb : i.binding? with
  | none => rfl
  | some b =>
    rw [Stored.isLive_of_binding? hb] at hlive
    cases hlive

theorem numbers_compacted {vol : List Layout} {p : Nat} {L : Layout} (hL : vol[p]? = some L)
    (age : UInt32) : numbers (vol.set p (L.compacted age)) = numbers vol := by
  refine filterMap_compacted _ ?_ hL age
  intro i hlive
  cases hn : i.number? with
  | none => rfl
  | some n =>
    rw [Stored.isLive_of_number? hn] at hlive
    cases hlive

theorem contents_stampAll (vol : List Layout) (last : UInt32) :
    contents (stampAll vol last) = contents vol := by
  rw [← map_snd_entries 0, ← map_snd_entries 0 vol, entries_stampAll]

/-! ## Compaction -/

/-- The volume after page `p` was erased and written anew. -/
theorem Reads.rewrites_renewal {f : Flash} {pageSize : Nat} {vol : List Layout}
    (h : Reads f pageSize vol) {p : Nat} {L : Layout} (hL : vol[p]? = some L) (age : UInt32) :
    Rewrites pageSize vol (.erase p pageSize :: Flash.stamp pageSize p age ::
        Store.writeItems (p * pageSize + Page.ageLength) (Store.liveItems (f.page pageSize p)))
      (vol.set p (L.compacted age)) := by
  have hp : p < vol.length := (List.getElem?_eq_some_iff.mp hL).1
  have hstop := h.stop_le hL
  have hspan := Page.span_filter L.items
  have hget : (vol.set p ((Layout.blank pageSize).stamp age))[p]? =
      some ((Layout.blank pageSize).stamp age) := by
    simp [hp]
  have hwritten : Rewrites pageSize _ _ _ := .writeItems (L.items.filter (·.isLive)) _ hget
    (by simp [Layout.stamp, Layout.blank])
    (by
      rw [Layout.stop] at hstop
      simp only [Layout.stamp, Layout.blank, List.length_replicate]
      omega)
  rw [List.set_set] at hwritten
  rw [h.page p L hL, liveItems_bytes, Layout.compacted, h.length_bytes hL]
  exact (Rewrites.renew hL age).trans hwritten

theorem Reads.renewal {f : Flash} {pageSize : Nat} {vol : List Layout} (h : Reads f pageSize vol)
    {p : Nat} {L : Layout} (hL : vol[p]? = some L) (age : UInt32) :
    Reads (f.applyAll (.erase p pageSize :: Flash.stamp pageSize p age ::
        Store.writeItems (p * pageSize + Page.ageLength) (Store.liveItems (f.page pageSize p))))
      pageSize (vol.set p (L.compacted age)) :=
  (h.rewrites_renewal hL age).reads h

namespace Store

variable {s : Store} {vol : List Layout}

theorem commit_compaction (s : Store) (p : Nat) :
    s.commit (s.compaction p) =
      recover { s with flash := s.flash.applyAll (.erase p s.pageSize ::
        Flash.stamp s.pageSize p (s.lastAge + 1) ::
        writeItems (p * s.pageSize + Page.ageLength)
          (liveItems (s.flash.page s.pageSize p))) } := by
  simp only [commit, commitOn, compaction, compactionOn, recover, recoverOn, List.foldl_append,
    Flash.foldl_apply]

/-- The volume after page `p` was compacted. -/
def compactedVolume (vol : List Layout) (p : Nat) (L : Layout) (age : UInt32) : List Layout :=
  stampAll (vol.set p (L.compacted age))
    (newestAge ((vol.set p (L.compacted age)).map (·.ageNumber)))

/-- Recovery after page `p` was written anew deletes nothing. -/
theorem Coherent.recovers_renewal (h : s.Coherent vol) {p : Nat} {L : Layout}
    (hL : vol[p]? = some L) :
    ∃ s1, s.commit (s.compaction p) = recover s1 ∧ s1.pageSize = s.pageSize ∧
      Recovers s1 (vol.set p (L.compacted (s.lastAge + 1))) [] := by
  have hrenewal := h.reads.renewal hL (s.lastAge + 1)
  have hnumbers : (numbers (vol.set p (L.compacted (s.lastAge + 1)))).Nodup := by
    rw [numbers_compacted hL]
    exact h.nodup_numbers
  rw [commit_compaction]
  generalize s.flash.applyAll _ = flash at hrenewal ⊢
  exact ⟨_, rfl, rfl, Reads.recovers_nil hrenewal hnumbers⟩

theorem Sound.compaction (h : s.Sound vol) {p : Nat} {L : Layout} (hL : vol[p]? = some L) :
    (s.commit (s.compaction p)).Sound (compactedVolume vol p L (s.lastAge + 1)) ∧
      bindings (compactedVolume vol p L (s.lastAge + 1)) = bindings vol := by
  obtain ⟨s1, hs1, -, hrecovers⟩ := h.recovers_renewal hL
  refine ⟨⟨?_, isClean_stampAll ?_ _⟩, ?_⟩
  · rw [hs1]
    exact hrecovers.coherent
  · intro L' hL'
    rcases List.mem_or_eq_of_mem_set hL' with hmem | rfl
    · exact h.clean L' hmem
    · exact Layout.isClean_appendAll _ _
  · rw [compactedVolume, bindings, contents_stampAll]
    exact bindings_compacted hL _

theorem Coherent.lastAge_compaction (h : s.Coherent vol) {p : Nat} {L : Layout}
    (hL : vol[p]? = some L) :
    (s.commit (s.compaction p)).lastAge =
      lastStamp isErased (vol.set p (L.compacted (s.lastAge + 1)))
        (newestAge ((vol.set p (L.compacted (s.lastAge + 1))).map (·.ageNumber))) := by
  obtain ⟨s1, hs1, -, hrecovers⟩ := h.recovers_renewal hL
  rw [hs1, hrecovers.lastAge, stampErased_eq]

theorem Coherent.exists_target (h : s.Coherent vol) {length scratch p : Nat}
    (hp : s.compactionTarget? length scratch = some p) : ∃ L, vol[p]? = some L := by
  obtain ⟨-, info, hinfo, -⟩ := compactionTarget?_eq_some hp
  rw [h.pages, List.getElem?_map] at hinfo
  obtain ⟨L, hL, -⟩ := Option.map_eq_some_iff.mp hinfo
  exact ⟨L, hL⟩

/-- Compaction succeeds with a page that has the bytes asked for. -/
theorem Sound.compact? (h : s.Sound vol) {length scratch : Nat} {s' : Store}
    (hc : s.compact? length scratch = some s') :
    ∃ vol', s'.Sound vol' ∧ bindings vol' = bindings vol ∧ s'.pageSize = s.pageSize ∧
      ∃ info ∈ s'.pages, length ≤ info.free := by
  rw [compact?_eq] at hc
  obtain ⟨p, hp, rfl⟩ := Option.map_eq_some_iff.mp hc
  obtain ⟨-, info, hinfo, hworth⟩ := compactionTarget?_eq_some hp
  rw [h.pages, List.getElem?_map] at hinfo
  obtain ⟨L, hL, rfl⟩ := Option.map_eq_some_iff.mp hinfo
  obtain ⟨hsound, hbindings⟩ := h.compaction hL
  refine ⟨_, hsound, hbindings, rfl, (L.compacted (s.lastAge + 1)).info, ?_, ?_⟩
  · rw [hsound.pages, compactedVolume, map_stampAll (·.info) fun _ _ => rfl]
    have hlt : p < vol.length := (List.getElem?_eq_some_iff.mp hL).1
    exact List.mem_map.mpr ⟨_, List.mem_set hlt _, rfl⟩
  · simp only [worthCompacting, Bool.and_eq_true, decide_eq_true_eq] at hworth
    rw [Layout.info_compacted]
    exact hworth.2

/-! ## Clearing -/

/-- Something was written on the page. -/
def isUsed (pageSize : Nat) (L : Layout) : Bool := L.info.free ≠ (blankPage pageSize).free

/-- The volume after the pages in use were erased. -/
def clearAll (pageSize : Nat) (vol : List Layout) (last : UInt32) : List Layout :=
  stampWhere (isUsed pageSize) (fun _ => Layout.blank pageSize) vol last

theorem eraseUsed_eq (pageSize p : Nat) (vol : List Layout) (last : UInt32) :
    eraseUsed pageSize p (vol.map (·.info)) last =
      (opsWhere (isUsed pageSize) (fun p age => [.erase p pageSize, Flash.stamp pageSize p age]) p
        vol last, lastStamp (isUsed pageSize) vol last) := by
  induction vol generalizing p last with
  | nil => rfl
  | cons L vol ih =>
    rw [List.map_cons, eraseUsed, opsWhere, lastStamp]
    by_cases hfree : L.info.free = (blankPage pageSize).free
    · have htest : ¬ isUsed pageSize L = true := by simpa [isUsed] using hfree
      rw [if_pos hfree, if_neg htest, if_neg htest, ih]
    · have htest : isUsed pageSize L = true := by simpa [isUsed] using hfree
      rw [if_neg hfree, if_pos htest, if_pos htest, ih]
      rfl

theorem rewrites_clearAll (pageSize : Nat) (vol : List Layout) (last : UInt32) :
    Rewrites pageSize vol (eraseUsed pageSize 0 (vol.map (·.info)) last).1
      (clearAll pageSize vol last) := by
  rw [eraseUsed_eq]
  refine Rewrites.stampWhere (isUsed pageSize) (fun _ => Layout.blank pageSize)
    (fun p age => [.erase p pageSize, Flash.stamp pageSize p age]) ?_ [] vol last
  intro vol p L age hL _
  exact .renew hL age

/-- A page that has as much free space as a blank one is blank. -/
theorem items_of_free {pageSize : Nat} {L : Layout} (hlen : L.stop + L.tail.length = pageSize)
    (hfree : L.info.free = (blankPage pageSize).free) :
    L.items = [] ∧ L.info = blankPage pageSize := by
  rw [Layout.stop] at hlen
  have hbroken : Page.broken L.tail = false := by
    by_contra hc
    have hlong : Item.headerLength ≤ L.tail.length := by
      simp only [Page.broken, Bool.not_eq_false, Bool.and_eq_true, decide_eq_true_eq] at hc
      exact hc.1
    rw [Layout.info, if_pos (by simpa using hc)] at hfree
    simp only [blankPage] at hfree
    unfold Item.headerLength at hlong
    omega
  rw [Layout.info, hbroken] at hfree ⊢
  simp only [Bool.false_eq_true, if_false, blankPage] at hfree ⊢
  have hitems : L.items = [] := by
    cases hi : L.items with
    | nil => rfl
    | cons i items =>
      have hpos := i.length_pos
      rw [hi, Page.span_cons] at hlen
      omega
  refine ⟨hitems, ?_⟩
  rw [hfree, Layout.buried, hitems]
  rfl

theorem clearAll_spec {pageSize : Nat} {vol : List Layout}
    (hlen : ∀ L ∈ vol, L.stop + L.tail.length = pageSize) (last : UInt32) :
    ∀ L ∈ clearAll pageSize vol last, L.items = [] ∧ L.info = blankPage pageSize := by
  refine forall_stampWhere _ _ ?_ ?_ last
  · intro L hL htest
    exact items_of_free (hlen L hL) (by simpa [isUsed] using htest)
  · intro L _ _ age
    have hbroken : Page.broken (Layout.blank pageSize).tail = false := Page.broken_replicate _
    refine ⟨rfl, ?_⟩
    rw [Layout.info_stamp, Layout.info, hbroken]
    simp [Layout.blank, Layout.buried, blankPage]

theorem isClean_clearAll (pageSize : Nat) {vol : List Layout} (h : ∀ L ∈ vol, L.IsClean)
    (last : UInt32) : ∀ L ∈ clearAll pageSize vol last, L.IsClean :=
  forall_stampWhere _ _ (fun L hL _ => h L hL)
    (fun _ _ _ age => Layout.isClean_stamp age (Layout.isClean_blank _)) last

theorem Sound.clear (h : s.Sound vol) :
    s.clear.Sound (clearAll s.pageSize vol s.lastAge) ∧
      bindings (clearAll s.pageSize vol s.lastAge) = [] := by
  have hlen : ∀ L ∈ vol, L.stop + L.tail.length = s.pageSize := by
    intro L hL
    obtain ⟨p, hp⟩ := List.mem_iff_getElem?.mp hL
    exact h.reads.stop_le hp
  have hspec := clearAll_spec hlen s.lastAge
  have hreads := (rewrites_clearAll s.pageSize vol s.lastAge).reads h.reads
  have hcontents : contents (clearAll s.pageSize vol s.lastAge) = [] := by
    rw [contents, List.flatMap_eq_nil_iff]
    exact fun L hL => (hspec L hL).1
  have hentries : entries s.pageSize (clearAll s.pageSize vol s.lastAge) = [] := by
    rw [← List.map_eq_nil_iff (f := (·.2)), map_snd_entries, hcontents]
  refine ⟨Sound.of_change ?_ ?_ ?_ (isClean_clearAll _ h.clean _), ?_⟩
  · rw [clearChange, h.pages]
    exact hreads
  · show s.pages.map (fun _ => blankPage s.pageSize) = _
    rw [List.map_congr_left fun L hL => (hspec L hL).2, List.map_const', List.map_const',
      clearAll, length_stampWhere, h.pages, List.length_map]
  · rw [hentries]
    exact ⟨fun a => by simp [clearChange], List.Pairwise.nil⟩
  · rw [bindings, hcontents]
    rfl

end Store

end FlashBasic
