import FlashBasic.Proofs.Store.Coherence
import FlashBasic.Proofs.Store.HeapSort
import FlashBasic.Proofs.Store.Stamping

/-!
Reading a store from flash. Whatever flash holds, the store that `Store.recover` makes of it is
coherent: pages without an age are stamped, the lines found on the pages are sorted, and of several
copies of a line all but one are deleted.

* `splitRepeats_spec` says what is kept of a sorted list of lines.
* `Reads.buryAll` deletes several items one after the other.
* `Reads.exists_recover` describes the recovered store.
-/

namespace FlashBasic

set_option autoImplicit false

open Item (Stored)
open Page (Layout)

/-! ## Stamping pages -/

def isErased (L : Layout) : Bool := L.ageNumber = Page.erasedAge

theorem count_erasedAge (vol : List Layout) :
    (vol.map (·.ageNumber)).count Page.erasedAge = vol.countP isErased := by
  rw [List.count_eq_countP, List.countP_map]
  refine List.countP_congr fun L _ => ?_
  simp [isErased]

/-- The pages, with those of erased age stamped. -/
def stampAll (vol : List Layout) (last : UInt32) : List Layout := stampWhere isErased id vol last

theorem stampErased_eq (pageSize p : Nat) (vol : List Layout) (last : UInt32) :
    Store.stampErased pageSize p (vol.map (·.ageNumber)) last =
      (opsWhere isErased (fun p age => [Flash.stamp pageSize p age]) p vol last,
        lastStamp isErased vol last) := by
  induction vol generalizing p last with
  | nil => rfl
  | cons L vol ih =>
    rw [List.map_cons, Store.stampErased, opsWhere, lastStamp]
    by_cases hage : L.ageNumber = Page.erasedAge
    · have htest : isErased L = true := by simpa [isErased] using hage
      rw [if_pos hage, if_pos htest, if_pos htest, ih]
      rfl
    · have htest : ¬ isErased L = true := by simpa [isErased] using hage
      rw [if_neg hage, if_neg htest, if_neg htest, ih]

theorem map_stampAll {α : Type} (g : Layout → α) (hg : ∀ L age, g (L.stamp age) = g L)
    (vol : List Layout) (last : UInt32) : (stampAll vol last).map g = vol.map g :=
  map_stampWhere isErased id g hg vol last

theorem entriesFrom_congr (pageSize : Nat) {vol vol' : List Layout}
    (h : vol'.map (·.items) = vol.map (·.items)) (p : Nat) :
    entriesFrom pageSize p vol' = entriesFrom pageSize p vol := by
  induction vol generalizing vol' p with
  | nil =>
    rw [List.map_nil, List.map_eq_nil_iff] at h
    rw [h]
  | cons L vol ih =>
    obtain ⟨L', rest, rfl, hL, hrest⟩ := List.map_eq_cons_iff.mp h
    have hplaces : L'.places = L.places := by rw [Layout.places, Layout.places, hL]
    rw [entriesFrom, entriesFrom, ih hrest, hplaces]

theorem entries_stampAll (pageSize : Nat) (vol : List Layout) (last : UInt32) :
    entries pageSize (stampAll vol last) = entries pageSize vol :=
  entriesFrom_congr pageSize (map_stampAll (·.items) (fun _ _ => rfl) vol last) 0

theorem isClean_stampAll {vol : List Layout} (h : ∀ L ∈ vol, L.IsClean) (last : UInt32) :
    ∀ L ∈ stampAll vol last, L.IsClean :=
  forall_stampWhere isErased id (fun L hL _ => h L hL)
    (fun L hL _ age => Layout.isClean_stamp age (h L hL)) last

theorem rewrites_stampAll (pageSize : Nat) (vol : List Layout) (last : UInt32) :
    Rewrites pageSize vol (Store.stampErased pageSize 0 (vol.map (·.ageNumber)) last).1
      (stampAll vol last) := by
  rw [stampErased_eq]
  refine Rewrites.stampWhere isErased id (fun p age => [Flash.stamp pageSize p age]) ?_ [] vol last
  intro vol p L age hL htest
  exact .single (.stamp hL (Layout.age_of_erased (by simpa [isErased] using htest)) age)

namespace Reads

variable {f : Flash} {pageSize : Nat} {vol : List Layout}

theorem stamp_all (h : Reads f pageSize vol) (last : UInt32) :
    Reads (f.applyAll (Store.stampErased pageSize 0 (vol.map (·.ageNumber)) last).1) pageSize
      (stampAll vol last) :=
  (rewrites_stampAll pageSize vol last).reads h

/-- What is computed from each page of flash can be computed from the volume. -/
theorem map_range {α : Type} (h : Reads f pageSize vol) (g : Nat → α) (g' : Layout → α)
    (hg : ∀ p L, vol[p]? = some L → g p = g' L) :
    (List.range (f.size / pageSize)).map g = vol.map g' := by
  have hcount : f.size / pageSize = vol.length := h.count
  apply List.ext_getElem?
  intro p
  rw [hcount, List.getElem?_map, List.getElem?_map]
  by_cases hp : p < vol.length
  · rw [List.getElem?_range hp, List.getElem?_eq_getElem hp]
    exact congrArg some (hg p _ (List.getElem?_eq_getElem hp))
  · rw [List.getElem?_eq_none (by simpa using hp), List.getElem?_eq_none (by omega)]
    rfl

theorem map_age (h : Reads f pageSize vol) :
    (List.range (f.size / pageSize)).map (f.age pageSize) = vol.map (·.ageNumber) :=
  h.map_range _ _ fun _ _ hL => h.age hL

theorem map_scan (h : Reads f pageSize vol) :
    (List.range (f.size / pageSize)).map (fun p => Page.scan (f.page pageSize p)) =
      vol.map fun L => Page.scan L.bytes :=
  h.map_range _ _ fun p L hL => by rw [h.page p L hL]

theorem map_info (h : Reads f pageSize vol) :
    (List.range (f.size / pageSize)).map (fun p => (Page.scan (f.page pageSize p)).info pageSize) =
      vol.map (·.info) :=
  h.map_range _ _ fun p L hL => by rw [h.page p L hL, ← L.info_scan, h.length_bytes hL]

end Reads

/-! ## Finding the lines -/

/-- The addresses of the lines. -/
def lineAddresses (es : List (Nat × Stored)) : List Nat :=
  es.filterMap fun e => e.2.number?.map fun _ => e.1

theorem mem_lineAddresses {es : List (Nat × Stored)} {a : Nat} :
    a ∈ lineAddresses es ↔ ∃ i n, (a, i) ∈ es ∧ i.number? = some n := by
  simp only [lineAddresses, List.mem_filterMap, Option.map_eq_some_iff, Prod.exists]
  constructor
  · rintro ⟨b, i, hi, n, hn, rfl⟩
    exact ⟨i, n, hi, hn⟩
  · rintro ⟨i, n, hi, hn⟩
    exact ⟨a, i, hi, n, hn, rfl⟩

theorem Page.Layout.lines_scan (L : Layout) (base : Nat) :
    (Page.scan L.bytes).lines.map (base + ·) =
      lineAddresses (L.places.map fun e => (base + e.1, e.2)) := by
  rw [scan_bytes, Page.Scan.lines, lineAddresses, List.map_filterMap, List.filterMap_map,
    List.filterMap_map]
  refine List.filterMap_congr ?_
  rintro ⟨o, i⟩ -
  simp only [Function.comp_apply, Stored.number?, Stored.kind]
  cases i.header.kind <;> rfl

theorem flatten_lines (pageSize : Nat) (vol : List Layout) :
    ((vol.map fun L => Page.scan L.bytes).mapIdx fun p scan =>
      scan.lines.map (p * pageSize + ·)).flatten = lineAddresses (entries pageSize vol) := by
  have hloop : ∀ (vol : List Layout) (p : Nat),
      ((vol.map fun L => Page.scan L.bytes).mapIdx fun q scan =>
        scan.lines.map ((p + q) * pageSize + ·)).flatten =
      lineAddresses (entriesFrom pageSize p vol) := by
    intro vol
    induction vol with
    | nil => intro p; rfl
    | cons L vol ih =>
      intro p
      have hshift : (fun (q : Nat) (scan : Page.Scan) =>
          scan.lines.map ((p + (q + 1)) * pageSize + ·)) =
          fun q scan => scan.lines.map ((p + 1 + q) * pageSize + ·) := by
        funext q scan
        rw [Nat.add_right_comm, Nat.add_assoc p q 1]
      rw [List.map_cons, List.mapIdx_cons, List.flatten_cons, hshift, ih, Nat.add_zero,
        L.lines_scan, entriesFrom, lineAddresses, lineAddresses, lineAddresses,
        List.filterMap_append]
  have h := hloop vol 0
  simp only [Nat.zero_add] at h
  exact h

/-! ## Keeping one copy of each line -/

section Repeats

variable (id : Nat → UInt16)

theorem splitAfter_spec (kept : Nat) (xs : List Nat) (hkept : ∀ x ∈ xs, id kept ≤ id x)
    (h : xs.Pairwise fun x y => id x ≤ id y) :
    ((Store.splitAfter id kept xs).1 ++ (Store.splitAfter id kept xs).2).Perm xs ∧
      (kept :: (Store.splitAfter id kept xs).1).Pairwise (fun x y => id x < id y) ∧
      ∀ r ∈ (Store.splitAfter id kept xs).2,
        ∃ x ∈ kept :: (Store.splitAfter id kept xs).1, id x = id r := by
  induction xs generalizing kept with
  | nil => simp [Store.splitAfter]
  | cons x xs ih =>
    obtain ⟨hx, hxs⟩ := List.pairwise_cons.mp h
    obtain ⟨hle, hrest⟩ := List.forall_mem_cons.mp hkept
    rw [Store.splitAfter]
    by_cases heq : id x = id kept
    · obtain ⟨hperm, hsorted, hrep⟩ := ih kept hrest hxs
      rw [if_pos heq]
      refine ⟨List.perm_middle.trans (hperm.cons x), hsorted, ?_⟩
      intro r hr
      rcases List.mem_cons.mp hr with rfl | hr
      · exact ⟨kept, List.mem_cons_self, heq.symm⟩
      · exact hrep r hr
    · obtain ⟨hperm, hsorted, hrep⟩ := ih x hx hxs
      have hlt : id kept < id x := by
        have hne : (id kept).toNat ≠ (id x).toNat := fun hc => heq (UInt16.toNat_inj.mp hc).symm
        rw [UInt16.le_iff_toNat_le] at hle
        rw [UInt16.lt_iff_toNat_lt]
        omega
      rw [if_neg heq]
      refine ⟨hperm.cons x, List.pairwise_cons.mpr ⟨?_, hsorted⟩, ?_⟩
      · intro y hy
        rcases List.mem_cons.mp hy with rfl | hy
        · exact hlt
        · exact UInt16.lt_trans hlt ((List.pairwise_cons.mp hsorted).1 y hy)
      · intro r hr
        obtain ⟨y, hy, hid⟩ := hrep r hr
        exact ⟨y, List.mem_cons_of_mem _ hy, hid⟩

/-- Of a list sorted by id, one address of each id is kept. -/
theorem splitRepeats_spec (xs : List Nat) (h : xs.Pairwise fun x y => id x ≤ id y) :
    ((Store.splitRepeats id xs).1 ++ (Store.splitRepeats id xs).2).Perm xs ∧
      (Store.splitRepeats id xs).1.Pairwise (fun x y => id x < id y) ∧
      ∀ r ∈ (Store.splitRepeats id xs).2, ∃ x ∈ (Store.splitRepeats id xs).1, id x = id r := by
  cases xs with
  | nil => simp [Store.splitRepeats]
  | cons x xs =>
    obtain ⟨hx, hxs⟩ := List.pairwise_cons.mp h
    obtain ⟨hperm, hsorted, hrep⟩ := splitAfter_spec id x xs hx hxs
    exact ⟨hperm.cons x, hsorted, hrep⟩

end Repeats

/-! ## Deleting the other copies -/

/-- An entry once the items at the given addresses are deleted. -/
def buryIfAny (dropped : List Nat) (e : Nat × Stored) : Nat × Stored :=
  (e.1, if e.1 ∈ dropped then e.2.bury else e.2)

theorem mem_map_buryIfAny {es : List (Nat × Stored)} {dropped : List Nat} {a : Nat} {i : Stored}
    {n : UInt16} :
    (a, i) ∈ es.map (buryIfAny dropped) ∧ i.number? = some n ↔
      a ∉ dropped ∧ (a, i) ∈ es ∧ i.number? = some n := by
  constructor
  · rintro ⟨hi, hn⟩
    obtain ⟨⟨b, j⟩, hj, he⟩ := List.mem_map.mp hi
    cases he
    by_cases hb : b ∈ dropped
    · simp [hb] at hn
    · rw [if_neg hb] at hn ⊢
      exact ⟨hb, hj, hn⟩
  · rintro ⟨ha, hi, hn⟩
    exact ⟨List.mem_map.mpr ⟨(a, i), hi, by simp [buryIfAny, ha]⟩, hn⟩

/-- Deleting items one after the other. The operations and the figures may be worked out on a flash
`g` from before, where the items look the same. -/
theorem Reads.buryAll {pageSize : Nat} (g : Flash) (dropped : List Nat) (hnodup : dropped.Nodup)
    (f : Flash) (vol : List Layout) (h : Reads f pageSize vol)
    (hdropped : ∀ a ∈ dropped,
      ∃ i, (a, i) ∈ entries pageSize vol ∧ i.isLive = true ∧ g.header a = i.header) :
    Rewrites pageSize vol (dropped.map g.bury) (dropped.foldl (buryEntry pageSize) vol) ∧
      entries pageSize (dropped.foldl (buryEntry pageSize) vol) =
        (entries pageSize vol).map (buryIfAny dropped) ∧
      (dropped.foldl (buryEntry pageSize) vol).map (·.info) =
        dropped.foldl (Store.addWaste g pageSize) (vol.map (·.info)) := by
  induction dropped generalizing f vol with
  | nil =>
    refine ⟨.nil vol, ?_, rfl⟩
    rw [List.map_congr_left (g := id) (fun e _ => by simp [buryIfAny]), List.map_id]
    rfl
  | cons a dropped ih =>
    obtain ⟨hnotin, hnodup⟩ := List.nodup_cons.mp hnodup
    obtain ⟨⟨i, hi, hlive, hhead⟩, hrest⟩ := List.forall_mem_cons.mp hdropped
    have hop : Rewrite pageSize vol (g.bury a) (buryEntry pageSize vol a) :=
      .bury_of_header hi hlive hhead
    have hwaste : Store.addWaste g pageSize (vol.map (·.info)) a =
        Store.addWaste f pageSize (vol.map (·.info)) a := by
      rw [Store.addWaste, Store.addWaste, hhead, h.header_entry hi]
    have hentries := h.entries_buryEntry hi
    have hkeep : ∀ b ∈ dropped, ∃ j, (b, j) ∈ entries pageSize (buryEntry pageSize vol a) ∧
        j.isLive = true ∧ g.header b = j.header := by
      intro b hb
      obtain ⟨j, hj, hjlive, hjhead⟩ := hrest b hb
      have hne : b ≠ a := fun hc => hnotin (hc ▸ hb)
      refine ⟨j, ?_, hjlive, hjhead⟩
      rw [hentries]
      exact List.mem_map.mpr ⟨(b, j), hj, by rw [buryIf, if_neg hne]⟩
    obtain ⟨hops, hall, hinfo⟩ := ih hnodup _ _ (hop.reads h) hkeep
    refine ⟨.cons hop hops, ?_, ?_⟩
    · rw [List.foldl_cons, hall, hentries, List.map_map]
      refine List.map_congr_left ?_
      rintro ⟨b, j⟩ -
      by_cases hb : b = a
      · subst hb
        simp [buryIfAny, buryIf, hnotin]
      · simp [buryIfAny, buryIf, hb]
    · rw [List.foldl_cons, List.foldl_cons, hinfo, h.info_buryEntry hi hlive, hwaste]

/-! ## The recovered store -/

theorem Reads.nodup_lineAddresses {f : Flash} {pageSize : Nat} {vol : List Layout}
    (h : Reads f pageSize vol) : (lineAddresses (entries pageSize vol)).Nodup := by
  rw [lineAddresses, List.Nodup, List.pairwise_filterMap]
  refine h.entries_pairwise.imp ?_
  intro e e' hlt a ha a' ha'
  obtain ⟨-, -, rfl⟩ := Option.map_eq_some_iff.mp ha
  obtain ⟨-, -, rfl⟩ := Option.map_eq_some_iff.mp ha'
  exact Nat.ne_of_lt hlt

/-- The volume that is recovered when the lines at the `dropped` addresses are extra copies. -/
def recovered (pageSize : Nat) (vol : List Layout) (dropped : List Nat) : List Layout :=
  dropped.foldl (buryEntry pageSize) (stampAll vol (Store.newestAge (vol.map (·.ageNumber))))

/-- The lines at the `dropped` addresses are copies of lines at other addresses. -/
structure Repeated (pageSize : Nat) (vol : List Layout) (dropped : List Nat) : Prop where
  nodup : dropped.Nodup
  line : ∀ a ∈ dropped, ∃ i n, (a, i) ∈ entries pageSize vol ∧ i.number? = some n
  kept : ∀ a i n, (a, i) ∈ entries pageSize vol → i.number? = some n →
    ∃ b j, b ∉ dropped ∧ (b, j) ∈ entries pageSize vol ∧ j.number? = some n

/-- The lines among some entries, split into one copy of each and the other copies. -/
structure Splits (es : List (Nat × Stored)) (kept dropped : List Nat) : Prop where
  mem : ∀ a, a ∈ kept ∨ a ∈ dropped ↔ ∃ i n, (a, i) ∈ es ∧ i.number? = some n
  nodup : dropped.Nodup
  disjoint : ∀ a ∈ kept, a ∉ dropped
  sorted : kept.Pairwise fun a b => ∀ i j n m, (a, i) ∈ es → (b, j) ∈ es → i.number? = some n →
    j.number? = some m → n < m
  copied : ∀ a ∈ dropped, ∀ i n, (a, i) ∈ es → i.number? = some n →
    ∃ b ∈ kept, ∃ j, (b, j) ∈ es ∧ j.number? = some n

theorem splits_of_sorted {id : Nat → UInt16} {es : List (Nat × Stored)} {xs : List Nat}
    (hid : ∀ a i n, (a, i) ∈ es → i.number? = some n → id a = n)
    (hperm : xs.Perm (lineAddresses es)) (hnodup : (lineAddresses es).Nodup)
    (hsorted : xs.Pairwise fun a b => id a ≤ id b) :
    Splits es (Store.splitRepeats id xs).1 (Store.splitRepeats id xs).2 := by
  obtain ⟨hsplit, hkept, hrepeat⟩ := splitRepeats_spec id xs hsorted
  have hlines := hsplit.trans hperm
  obtain ⟨-, hdropped, hdisjoint⟩ := List.nodup_append'.mp (hlines.nodup_iff.mpr hnodup)
  have hmem (a : Nat) :
      a ∈ (Store.splitRepeats id xs).1 ∨ a ∈ (Store.splitRepeats id xs).2 ↔
        ∃ i n, (a, i) ∈ es ∧ i.number? = some n := by
    rw [← List.mem_append, hlines.mem_iff, mem_lineAddresses]
  refine ⟨hmem, hdropped, fun a ha hc => hdisjoint ha hc, ?_, ?_⟩
  · refine hkept.imp ?_
    intro a b hlt i j n m hi hj hn hm
    rwa [hid a i n hi hn, hid b j m hj hm] at hlt
  · intro a ha i n hi hn
    obtain ⟨b, hb, hsame⟩ := hrepeat a ha
    obtain ⟨j, m, hj, hm⟩ := (hmem b).mp (Or.inl hb)
    rw [hid a i n hi hn, hid b j m hj hm] at hsame
    exact ⟨b, hb, j, hj, hsame ▸ hm⟩

namespace Splits

variable {es : List (Nat × Stored)} {kept dropped : List Nat}

theorem repeated {pageSize : Nat} {vol : List Layout}
    (h : Splits (entries pageSize vol) kept dropped) : Repeated pageSize vol dropped := by
  refine ⟨h.nodup, fun a ha => (h.mem a).mp (Or.inr ha), ?_⟩
  intro a i n hi hn
  rcases (h.mem a).mpr ⟨i, n, hi, hn⟩ with ha | ha
  · exact ⟨a, i, h.disjoint a ha, hi, hn⟩
  · obtain ⟨b, hb, j, hj, hm⟩ := h.copied a ha i n hi hn
    exact ⟨b, j, h.disjoint b hb, hj, hm⟩

/-- Once the other copies are deleted, what was kept is an index. -/
theorem indexes (h : Splits es kept dropped) : Indexes (es.map (buryIfAny dropped)) kept := by
  constructor
  · intro a
    simp only [mem_map_buryIfAny]
    constructor
    · intro ha
      obtain ⟨i, n, hi, hn⟩ := (h.mem a).mp (Or.inl ha)
      exact ⟨i, n, h.disjoint a ha, hi, hn⟩
    · rintro ⟨i, n, hnot, hi, hn⟩
      exact ((h.mem a).mpr ⟨i, n, hi, hn⟩).resolve_right hnot
  · refine h.sorted.imp ?_
    intro a b hlt i j n m hi hj hn hm
    obtain ⟨-, hi, -⟩ := mem_map_buryIfAny.mp ⟨hi, hn⟩
    obtain ⟨-, hj, -⟩ := mem_map_buryIfAny.mp ⟨hj, hm⟩
    exact hlt i j n m hi hj hn hm

end Splits

/-- The addresses of the lines in the order of their numbers, copies included. -/
def sortedLines (f : Flash) (pageSize : Nat) (vol : List Layout) : List Nat :=
  (HeapSort.sort (fun a b => f.itemId a < f.itemId b)
    (lineAddresses (entries pageSize vol)).toArray).toList

namespace Reads

variable {f : Flash} {pageSize : Nat} {vol : List Layout}

/-- Recovery worked out on the volume. -/
theorem recovery_eq (h : Reads f pageSize vol) {ops : List Flash.Op} {last : UInt32}
    (hstamps : Store.stampErased pageSize 0 (vol.map (·.ageNumber))
      (Store.newestAge (vol.map (·.ageNumber))) = (ops, last)) {kept dropped : List Nat}
    (hsplit : Store.splitRepeats (f.applyAll ops).itemId
      (sortedLines (f.applyAll ops) pageSize vol) = (kept, dropped)) :
    Store.recovery f pageSize =
      { ops := ops ++ dropped.map (f.applyAll ops).bury
        pages := dropped.foldl (Store.addWaste (f.applyAll ops) pageSize) (vol.map (·.info))
        index := kept
        lastAge := last } := by
  have h1 := h.stamp_all (Store.newestAge (vol.map (·.ageNumber)))
  rw [hstamps] at h1
  have hscans : (List.range (f.size / pageSize)).map
      (fun p => Page.scan ((f.applyAll ops).page pageSize p)) =
      (stampAll vol (Store.newestAge (vol.map (·.ageNumber)))).map
        fun L => Page.scan L.bytes := by
    rw [← Flash.size_applyAll f ops]
    exact h1.map_scan
  have hinfo : ((stampAll vol (Store.newestAge (vol.map (·.ageNumber)))).map
      fun L => Page.scan L.bytes).map (·.info pageSize) = vol.map (·.info) := by
    rw [← map_stampAll (·.info) (fun _ _ => rfl) vol (Store.newestAge (vol.map (·.ageNumber))),
      ← hscans, List.map_map, ← h1.map_info, Flash.size_applyAll]
    rfl
  rw [sortedLines, ← entries_stampAll pageSize vol (Store.newestAge (vol.map (·.ageNumber)))]
    at hsplit
  simp only [Store.recovery, Store.recoveryOn, Flash.foldl_apply, h.map_age, hstamps, hscans,
    flatten_lines, hsplit, hinfo]

theorem sortedLines_perm (f : Flash) (pageSize : Nat) (vol : List Layout) :
    (sortedLines f pageSize vol).Perm (lineAddresses (entries pageSize vol)) := by
  have hperm := HeapSort.sort_perm (fun a b => decide (f.itemId a < f.itemId b))
    (lineAddresses (entries pageSize vol)).toArray
  rwa [List.toList_toArray] at hperm

theorem sortedLines_pairwise (f : Flash) (pageSize : Nat) (vol : List Layout) :
    (sortedLines f pageSize vol).Pairwise fun a b => f.itemId a ≤ f.itemId b := by
  have hsorted := HeapSort.sort_pairwise (fun a b => decide (f.itemId a < f.itemId b))
    (fun a => (f.itemId a).toNat) (fun _ _ => rfl)
    (lineAddresses (entries pageSize vol)).toArray
  exact hsorted.imp fun hle => UInt16.le_iff_toNat_le.mpr hle

end Reads

/-- Recovery stamps the pages of erased age, and then it deletes all but one copy of each line. -/
theorem Reads.exists_splits {f : Flash} {pageSize : Nat} {vol : List Layout}
    (h : Reads f pageSize vol) {ops : List Flash.Op} {last : UInt32}
    (hstamps : Store.stampErased pageSize 0 (vol.map (·.ageNumber))
      (Store.newestAge (vol.map (·.ageNumber))) = (ops, last)) :
    ∃ kept dropped, Splits (entries pageSize vol) kept dropped ∧
      Store.recovery f pageSize =
        { ops := ops ++ dropped.map (f.applyAll ops).bury
          pages := dropped.foldl (Store.addWaste (f.applyAll ops) pageSize) (vol.map (·.info))
          index := kept
          lastAge := last } := by
  have h1 := h.stamp_all (Store.newestAge (vol.map (·.ageNumber)))
  have hentries := entries_stampAll pageSize vol (Store.newestAge (vol.map (·.ageNumber)))
  rw [hstamps] at h1
  have hid (a : Nat) (i : Stored) (n : UInt16) (hi : (a, i) ∈ entries pageSize vol)
      (hn : i.number? = some n) : (f.applyAll ops).itemId a = n := by
    rw [h1.itemId_entry (hentries ▸ hi), Stored.id_of_number? hn]
  have hsplits := splits_of_sorted hid (sortedLines_perm _ pageSize vol) h.nodup_lineAddresses
    (sortedLines_pairwise _ pageSize vol)
  exact ⟨_, _, hsplits, h.recovery_eq hstamps rfl⟩

/-- Deleting the other copies, once all pages have an age. -/
theorem Splits.buryAll {f : Flash} {pageSize : Nat} {vol : List Layout} {last : UInt32}
    {kept dropped : List Nat} (h : Splits (entries pageSize vol) kept dropped)
    (hreads : Reads f pageSize (stampAll vol last)) :
    Rewrites pageSize (stampAll vol last) (dropped.map f.bury)
        (dropped.foldl (buryEntry pageSize) (stampAll vol last)) ∧
      entries pageSize (dropped.foldl (buryEntry pageSize) (stampAll vol last)) =
        (entries pageSize vol).map (buryIfAny dropped) ∧
      (dropped.foldl (buryEntry pageSize) (stampAll vol last)).map (·.info) =
        dropped.foldl (Store.addWaste f pageSize) (vol.map (·.info)) := by
  have hburied := Reads.buryAll f dropped h.nodup f _ hreads (by
    intro a ha
    obtain ⟨i, n, hi, hn⟩ := (h.mem a).mp (Or.inr ha)
    rw [← entries_stampAll pageSize vol last] at hi
    exact ⟨i, hi, Stored.isLive_of_number? hn, hreads.header_entry hi⟩)
  rwa [entries_stampAll, map_stampAll (·.info) fun _ _ => rfl] at hburied

/-- What recovery makes of a volume. -/
theorem Reads.rewrites_recovery {f : Flash} {pageSize : Nat} {vol : List Layout}
    (h : Reads f pageSize vol) :
    ∃ dropped, Rewrites pageSize vol (Store.recovery f pageSize).ops
      (recovered pageSize vol dropped) := by
  have hstamped := rewrites_stampAll pageSize vol (Store.newestAge (vol.map (·.ageNumber)))
  generalize hstamps : Store.stampErased pageSize 0 (vol.map (·.ageNumber))
    (Store.newestAge (vol.map (·.ageNumber))) = stamps at hstamped
  obtain ⟨kept, dropped, hsplits, hrecovery⟩ := h.exists_splits hstamps
  rw [hrecovery]
  exact ⟨dropped, hstamped.trans (hsplits.buryAll (hstamped.reads h)).1⟩

/-- The recovered store, when the lines at the `dropped` addresses are found to be extra copies. -/
structure Recovers (s : Store) (vol : List Layout) (dropped : List Nat) : Prop where
  repeated : Repeated s.pageSize vol dropped
  coherent : s.recover.Coherent (recovered s.pageSize vol dropped)
  entries : entries s.pageSize (recovered s.pageSize vol dropped) =
    (entries s.pageSize vol).map (buryIfAny dropped)
  ops : ∃ f1, (Store.recovery s.flash s.pageSize).ops =
    (Store.stampErased s.pageSize 0 (vol.map (·.ageNumber))
      (Store.newestAge (vol.map (·.ageNumber)))).1 ++ dropped.map (Flash.bury f1)
  lastAge : s.recover.lastAge = (Store.stampErased s.pageSize 0 (vol.map (·.ageNumber))
    (Store.newestAge (vol.map (·.ageNumber)))).2

theorem Reads.exists_recover {s : Store} {vol : List Layout} (h : Reads s.flash s.pageSize vol) :
    ∃ dropped, Recovers s vol dropped := by
  have h1 := h.stamp_all (Store.newestAge (vol.map (·.ageNumber)))
  generalize hstamps : Store.stampErased s.pageSize 0 (vol.map (·.ageNumber))
    (Store.newestAge (vol.map (·.ageNumber))) = stamps at h1
  obtain ⟨ops, last⟩ := stamps
  obtain ⟨kept, dropped, hsplits, hrecovery⟩ := h.exists_splits hstamps
  generalize hf1 : s.flash.applyAll ops = f1 at h1 hrecovery
  obtain ⟨hrewrites, hburied, hinfo⟩ := hsplits.buryAll h1
  refine ⟨dropped, hsplits.repeated, ?_, hburied, ⟨f1, by rw [hrecovery, hstamps]⟩, ?_⟩
  · rw [Store.recover_eq, hrecovery, Store.commit, Store.commitOn, Flash.foldl_apply,
      Flash.applyAll_append, hf1]
    refine ⟨hrewrites.reads h1, hinfo.symm, ?_⟩
    dsimp only
    rw [recovered, hburied]
    exact hsplits.indexes
  · rw [Store.recover_eq, hrecovery, hstamps]
    rfl

theorem isClean_recovered {pageSize : Nat} {vol : List Layout} (h : ∀ L ∈ vol, L.IsClean)
    (dropped : List Nat) : ∀ L ∈ recovered pageSize vol dropped, L.IsClean := by
  have hstart := isClean_stampAll h (Store.newestAge (vol.map (·.ageNumber)))
  rw [recovered]
  generalize stampAll vol (Store.newestAge (vol.map (·.ageNumber))) = stamped at hstart
  induction dropped generalizing stamped with
  | nil => exact hstart
  | cons a dropped ih => exact ih _ (isClean_buryEntry hstart)

theorem map_age_recovered (pageSize : Nat) (vol : List Layout) (dropped : List Nat) :
    (recovered pageSize vol dropped).map (·.age) =
      (stampAll vol (Store.newestAge (vol.map (·.ageNumber)))).map (·.age) := by
  rw [recovered]
  generalize stampAll vol (Store.newestAge (vol.map (·.ageNumber))) = stamped
  induction dropped generalizing stamped with
  | nil => rfl
  | cons a dropped ih => rw [List.foldl_cons, ih, map_age_buryEntry]

/-! ## Volumes without copies -/

/-- The numbers of the lines of a volume. -/
def numbers (vol : List Layout) : List UInt16 := (contents vol).filterMap (·.number?)

theorem address_eq_of_nodup_numbers {pageSize : Nat} {vol : List Layout}
    (hnodup : (numbers vol).Nodup) {a b : Nat} {i j : Stored} {n : UInt16}
    (hi : (a, i) ∈ entries pageSize vol) (hj : (b, j) ∈ entries pageSize vol)
    (hin : i.number? = some n) (hjn : j.number? = some n) : a = b := by
  rw [numbers, ← map_snd_entries pageSize vol, List.filterMap_map, List.Nodup,
    List.pairwise_filterMap] at hnodup
  obtain ⟨k, hk, hik⟩ := List.mem_iff_getElem.mp hi
  obtain ⟨l, hl, hjl⟩ := List.mem_iff_getElem.mp hj
  have hne := List.pairwise_iff_getElem.mp hnodup
  rcases Nat.lt_trichotomy k l with hkl | rfl | hkl
  · have := hne k l hk hl hkl n (by rw [hik]; exact hin) n (by rw [hjl]; exact hjn)
    exact absurd rfl this
  · rw [hik] at hjl
    exact congrArg Prod.fst hjl
  · have := hne l k hl hk hkl n (by rw [hjl]; exact hjn) n (by rw [hik]; exact hin)
    exact absurd rfl this

theorem Store.Coherent.nodup_numbers {s : Store} {vol : List Layout} (h : s.Coherent vol) :
    (numbers vol).Nodup := by
  rw [numbers, ← map_snd_entries s.pageSize vol, List.filterMap_map, List.Nodup,
    List.pairwise_filterMap]
  refine h.reads.entries_pairwise.imp_of_mem ?_
  rintro ⟨a, i⟩ ⟨b, j⟩ hi hj hlt n hn m hm rfl
  exact Nat.ne_of_lt hlt (h.indexes.address_unique hi hj hn hm)

/-- When every line is there once, recovery stamps pages and deletes nothing. -/
theorem Reads.recovers_nil {s : Store} {vol : List Layout} (h : Reads s.flash s.pageSize vol)
    (hnodup : (numbers vol).Nodup) : Recovers s vol [] := by
  obtain ⟨dropped, hrecovers⟩ := h.exists_recover
  have hnone : dropped = [] := by
    rw [List.eq_nil_iff_forall_not_mem]
    intro a ha
    obtain ⟨i, n, hi, hn⟩ := hrecovers.repeated.line a ha
    obtain ⟨b, j, hb, hj, hm⟩ := hrecovers.repeated.kept a i n hi hn
    exact hb (address_eq_of_nodup_numbers hnodup hi hj hn hm ▸ ha)
  rw [hnone] at hrecovers
  exact hrecovers

end FlashBasic
