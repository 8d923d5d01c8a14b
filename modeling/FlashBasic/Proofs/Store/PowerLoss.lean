import FlashBasic.Proofs.Store.Lines

/-!
Losing power during an edit of a line. An edit writes to flash at most twice: a new copy of the line,
then a mark that deletes the old one. Whatever part of that is done when the flash is next read, the
store is found with the lines of before the edit or those of after it, one live copy of each, and
with all its records (`Store.mount_cut_edit`).

Between the two writes flash holds two copies of a line, and recovery drops one of them: which one is
up to the sort, so either outcome is possible (`Store.Holds.of_added`).
-/

namespace FlashBasic

set_option autoImplicit false

open Item (Stored)
open Page (Layout)

/-- The addresses of the lines that are live on flash, page by page. -/
def Flash.liveLines (f : Flash) (pageSize : Nat) : List Nat :=
  (((List.range (f.size / pageSize)).map fun p => Page.scan (f.page pageSize p)).mapIdx
    fun p scan => scan.lines.map (p * pageSize + ·)).flatten

theorem Reads.liveLines_eq {f : Flash} {pageSize : Nat} {vol : List Layout}
    (h : Reads f pageSize vol) : f.liveLines pageSize = lineAddresses (entries pageSize vol) := by
  rw [Flash.liveLines, h.map_scan, flatten_lines]

/-- The index lists the lines that are live on flash and no others. -/
theorem Store.Coherent.liveLines_perm {s : Store} {vol : List Layout} (h : s.Coherent vol) :
    (s.flash.liveLines s.pageSize).Perm s.index := by
  rw [h.reads.liveLines_eq, List.perm_ext_iff_of_nodup h.reads.nodup_lineAddresses h.indexes.nodup]
  intro a
  rw [mem_lineAddresses, h.indexes.mem]

/-! ## Two copies of one line -/

theorem Represents.perm {vol vol' : List Layout} {m : Contents} (h : Represents vol m)
    (hperm : (bindings vol').Perm (bindings vol)) : Represents vol' m := by
  constructor
  · rw [(hperm.map (·.1)).nodup_iff]
    exact h.nodup
  · intro x data
    rw [hperm.mem_iff, h.mem]

theorem bindings_recovered_nil (pageSize : Nat) (vol : List Layout) :
    bindings (recovered pageSize vol []) = bindings vol :=
  congrArg (List.filterMap _) (contents_stampAll vol _)

/-- When one line was added, no more than one copy is dropped, and it is one of that line. -/
theorem Repeated.of_added {f1 : Flash} {pageSize a : Nat} {vol vol1 : List Layout} {i : Stored}
    {dropped : List Nat} {n : UInt16} (h : Repeated pageSize vol1 dropped)
    (hadded : Added f1 pageSize vol vol1 a i) (hn : i.number? = some n)
    (hnodup : (numbers vol).Nodup) :
    dropped = [] ∨ ∃ d j, dropped = [d] ∧ (d, j) ∈ entries pageSize vol1 ∧ j.number? = some n := by
  have hold {b : Nat} {j : Stored} (hb : b ≠ a) (hj : (b, j) ∈ entries pageSize vol1) :
      (b, j) ∈ entries pageSize vol := by
    rcases List.mem_cons.mp (hadded.entries.mem_iff.mp hj) with heq | hj
    · exact absurd (congrArg Prod.fst heq) hb
    · exact hj
  -- Two copies of one line are not both from before.
  have hpair {b c : Nat} {j k : Stored} {m : UInt16} (hj : (b, j) ∈ entries pageSize vol1)
      (hk : (c, k) ∈ entries pageSize vol1) (hm : j.number? = some m) (hm' : k.number? = some m)
      (hne : b ≠ c) : b = a ∨ c = a := by
    by_contra hnot
    rw [not_or] at hnot
    exact hne (address_eq_of_nodup_numbers hnodup (hold hnot.1 hj) (hold hnot.2 hk) hm hm')
  have hnew {j : Stored} (hj : (a, j) ∈ entries pageSize vol1) : j = i :=
    hadded.reads.entry_unique hj (hadded.entries.mem_iff.mpr List.mem_cons_self)
  have hline : ∀ d ∈ dropped, ∃ j e k, (d, j) ∈ entries pageSize vol1 ∧ j.number? = some n ∧
      e ∉ dropped ∧ (e, k) ∈ entries pageSize vol1 ∧ k.number? = some n := by
    intro d hd
    obtain ⟨j, m, hj, hm⟩ := h.line d hd
    obtain ⟨e, k, he, hk, hm'⟩ := h.kept d j m hj hm
    have hmn : m = n := by
      rcases hpair hj hk hm hm' (fun hc => he (hc ▸ hd)) with rfl | rfl
      · rw [hnew hj, hn] at hm
        exact (Option.some.inj hm).symm
      · rw [hnew hk, hn] at hm'
        exact (Option.some.inj hm').symm
    exact ⟨j, e, k, hj, hmn ▸ hm, he, hk, hmn ▸ hm'⟩
  match hdropped : dropped with
  | [] => exact Or.inl rfl
  | [d] =>
    obtain ⟨j, -, -, hj, hm, -⟩ := hline d List.mem_cons_self
    exact Or.inr ⟨d, j, rfl, hj, hm⟩
  | d :: d' :: rest =>
    obtain ⟨j, e, k, hj, hm, he, hk, hm'⟩ := hline d List.mem_cons_self
    obtain ⟨j', -, -, hj', hm'', -⟩ := hline d' (List.mem_cons_of_mem _ List.mem_cons_self)
    have hdd : d ≠ d' := fun hc => (List.nodup_cons.mp h.nodup).1 (hc ▸ List.mem_cons_self)
    have hde : d ≠ e := fun hc => he (hc ▸ List.mem_cons_self)
    have hde' : d' ≠ e := fun hc => he (hc ▸ List.mem_cons_of_mem _ List.mem_cons_self)
    have h1 := hpair hj hj' hm hm'' hdd
    have h2 := hpair hj hk hm hm' hde
    have h3 := hpair hj' hk hm'' hm' hde'
    omega

namespace Store

/-- A store read from flash just after a line was written to it, its older copy still there. -/
theorem Holds.of_added {s : Store} {vol vol1 : List Layout} {m : Contents} (hsound : s.Sound vol)
    (hrep : Represents vol m) {f1 : Flash} {a : Nat} {i : Stored} {n : UInt16}
    (hadded : Added f1 s.pageSize vol vol1 a i) (hn : i.number? = some n) :
    (mount f1 s.pageSize).Holds m ∨
      (mount f1 s.pageSize).Holds (Function.update m (.line n) (some i.payload)) := by
  obtain ⟨dropped, hrecovers⟩ := Reads.exists_recover
    (s := { s with flash := f1, pages := [], index := [], lastAge := 0 }) hadded.reads
  have hfound : (mount f1 s.pageSize).Sound (recovered s.pageSize vol1 dropped) :=
    ⟨hrecovers.coherent, isClean_recovered hadded.clean dropped⟩
  have hbinding := Stored.binding?_eq_line_iff.mpr ⟨hn, rfl⟩
  have hbindings := bindings_append hadded.entries hbinding
  rcases hrecovers.repeated.of_added hadded hn hsound.nodup_numbers with rfl | ⟨d, j, rfl, hj, hm⟩
  · -- Nothing was dropped, so there was no older copy.
    right
    refine ⟨_, hfound, hrep.put ?_⟩
    have hcount := hfound.count_line_le n
    rw [bindings_recovered_nil] at hcount ⊢
    have hnone : ((bindings vol).map (·.1)).count (.line n) = 0 := by
      have hnames := (hbindings.map (·.1)).count_eq (.line n)
      rw [List.map_cons, List.count_cons_self] at hnames
      omega
    rw [List.filter_eq_self.mpr]
    · exact hbindings
    · intro b hb
      have hne : b.1 ≠ .line n := fun hc => List.count_eq_zero.mp hnone (List.mem_map.mpr ⟨b, hb, hc⟩)
      simpa using hne
  · have hentries : entries s.pageSize (recovered s.pageSize vol1 [d]) =
        (entries s.pageSize vol1).map (buryIf d) := by
      rw [hrecovers.entries]
      refine List.map_congr_left ?_
      rintro ⟨b, k⟩ -
      by_cases hb : b = d
      · simp [buryIfAny, buryIf, hb]
      · simp [buryIfAny, buryIf, hb]
    have hburied := hadded.reads.bindings_bury hj hentries
      (Stored.binding?_eq_line_iff.mpr ⟨hm, rfl⟩)
    rcases List.mem_cons.mp (hadded.entries.mem_iff.mp hj) with heq | hold
    · -- The new copy was dropped.
      left
      cases heq
      exact ⟨_, hfound, hrep.perm (hburied.symm.trans hbindings).cons_inv⟩
    · -- The older copy was dropped.
      right
      refine ⟨_, hfound, hrep.put (perm_replace hbindings hburied ?_ (hsound.count_line_le n))⟩
      exact mem_bindings.mpr ⟨j, mem_contents.mpr ⟨d, hold⟩,
        Stored.binding?_eq_line_iff.mpr ⟨hm, rfl⟩⟩

/-! ## Cutting an edit short -/

/-- The requests that put or delete one line. -/
def Request.editsLine : Request → Bool
  | .putLine _ _ => true
  | .deleteLine _ => true
  | _ => false

/-- What a request does to flash. -/
def opsOf (s : Store) (r : Request) : List Flash.Op := ((s.change? r).map (·.ops)).getD []

theorem applyAll_opsOf (s : Store) (r : Request) :
    s.flash.applyAll (s.opsOf r) = (s.perform r).flash := by
  rw [perform_eq, opsOf]
  cases s.change? r <;> rfl

theorem Holds.mount {s : Store} {m : Contents} (h : s.Holds m) :
    (Store.mount s.flash s.pageSize).Holds m :=
  h.recover

/-- The new copy of a line is what is written first. -/
theorem opsOf_putLine (s : Store) (n : UInt16) (text : List UInt8) :
    s.opsOf (.putLine n text) = [] ∨ ∃ p addr, s.place? text = some (p, addr) ∧
      ∃ rest, s.opsOf (.putLine n text) = .write addr (Item.encode n text) :: rest ∧
        rest.length ≤ 1 := by
  cases hplace : s.place? text with
  | none =>
    left
    simp [opsOf, change?, changeOn?, putLineChangeOn?, hplace]
  | some place =>
    right
    obtain ⟨p, addr⟩ := place
    refine ⟨p, addr, rfl, ?_⟩
    simp only [opsOf, change?, changeOn?, putLineChangeOn?, hplace, Option.map_some,
      Option.getD_some]
    split
    · exact ⟨_, rfl, Nat.le_refl _⟩
    · exact ⟨[], rfl, Nat.zero_le _⟩

theorem length_opsOf_deleteLine (s : Store) (n : UInt16) : (s.opsOf (.deleteLine n)).length ≤ 1 := by
  rw [opsOf, change?, changeOn?, deleteLineChange?]
  cases s.find? n with
  | none => simp
  | some pos =>
    cases hget : s.index[pos]? with
    | none => simp [hget]
    | some addr => simp [hget, burial]

/-- However much of an edit reached flash, what is read from it is the state before the edit or the
state after it. -/
theorem Holds.mount_cut {s : Store} {m : Contents} (h : s.Holds m) {r : Request} (hr : r.Valid)
    (hedit : r.editsLine = true) (k : Nat) :
    (Store.mount (s.flash.applyAll ((s.opsOf r).take k)) s.pageSize).Holds m ∨
      (Store.mount (s.flash.applyAll ((s.opsOf r).take k)) s.pageSize).Holds
        (m.after s.hasRoom r) := by
  have hall (hk : (s.opsOf r).length ≤ k) :
      (Store.mount (s.flash.applyAll ((s.opsOf r).take k)) s.pageSize).Holds
        (m.after s.hasRoom r) := by
    have hafter := (h.perform hr).mount
    rw [List.take_of_length_le hk, applyAll_opsOf]
    rwa [pageSize_perform] at hafter
  rcases Nat.lt_or_ge k (s.opsOf r).length with hk | hk
  · cases k with
    | zero => exact Or.inl h.mount
    | succ k =>
      cases r with
      | deleteLine n =>
        have := s.length_opsOf_deleteLine n
        omega
      | putLine n text =>
        -- One write out of two: the new copy of the line.
        rcases s.opsOf_putLine n text with hnil | ⟨p, addr, hplace, rest, hops, hle⟩
        · rw [hnil] at hk
          simp at hk
        · rw [hops, List.length_cons] at hk
          have hk0 : k = 0 := by omega
          obtain ⟨vol, hsound, hrep⟩ := h
          have hline := ofId_eq_line hr
          obtain ⟨-, hne0, -, hne2⟩ := Item.Kind.ofId_eq_line.mp hline
          obtain ⟨vol1, i, hadded, -, -, -, hkind, hpayload⟩ := hsound.place? hplace hne2 hne0
          have hroom : s.hasRoom (Item.length text.length) = true := by
            rw [← Bool.not_eq_false, hasRoom_eq_false_iff, ← place?_eq_none_iff, hplace]
            simp
          have hcut := Holds.of_added hsound hrep hadded
            (Stored.number?_eq_some_iff.mpr (hkind.trans hline))
          rw [hpayload] at hcut
          rw [hops, hk0, Contents.after, if_pos hroom]
          exact hcut
      | _ => cases hedit
  · exact Or.inr (hall hk)

theorem Holds.liveLines_perm {s : Store} {m : Contents} (h : s.Holds m) :
    ((s.flash.liveLines s.pageSize).map s.flash.itemId).Perm s.ids := by
  obtain ⟨vol, hsound, -⟩ := h
  exact hsound.liveLines_perm.map _

theorem after_record {m : Contents} {room : Nat → Bool} {r : Request} (hedit : r.editsLine = true)
    (key : RecordKey) : m.after room r (.record key) = m (.record key) := by
  have hne (n : UInt16) : Name.record key ≠ .line n := by simp
  cases r with
  | putLine n text =>
    rw [Contents.after]
    split
    · exact Function.update_of_ne (hne n) _ _
    · rfl
  | deleteLine n => exact Function.update_of_ne (hne n) _ _
  | _ => cases hedit

/-- The store that requests make of blank flash. -/
def grown (size pageSize : Nat) (requests : List Request) : Store :=
  requests.foldl perform (mount (Flash.blank size) pageSize)

theorem pageSize_grown (size pageSize : Nat) (requests : List Request) :
    (grown size pageSize requests).pageSize = pageSize :=
  pageSize_foldl_perform requests _

theorem Holds.grown (size : Nat) {pageSize : Nat} (hsize : Page.ageLength ≤ pageSize)
    {requests : List Request} (hvalid : ∀ r ∈ requests, r.Valid) :
    ∃ m, (grown size pageSize requests).Holds m := by
  have hholds := @Holds.foldl_track (Store.mount (Flash.blank size) pageSize, Contents.empty)
    (Holds.mount_blank size hsize) requests hvalid
  rw [fst_foldl_track] at hholds
  exact ⟨_, hholds⟩

/-- An edit that is cut short by a loss of power is found undone or done: the flash left by any part
of its writes has the lines of before or of after the edit, one live copy of each, and all
records. -/
theorem mount_cut_edit (size pageSize : Nat) (hsize : Page.ageLength ≤ pageSize)
    (requests : List Request) (hvalid : ∀ r ∈ requests, r.Valid) (edit : Request)
    (hedit : edit.Valid ∧ edit.editsLine = true) (k : Nat) :
    let s := grown size pageSize requests
    let t := mount (s.flash.applyAll ((s.opsOf edit).take k)) pageSize
    (t.lines = s.lines ∨ t.lines = (s.perform edit).lines) ∧
      t.ids.Pairwise (· < ·) ∧ ((t.flash.liveLines pageSize).map t.flash.itemId).Perm t.ids ∧
      ∀ key, t.record? key = s.record? key := by
  intro s t
  obtain ⟨m, hs⟩ := Holds.grown size hsize hvalid
  have hpage : s.pageSize = pageSize := pageSize_grown size pageSize requests
  have hcut := hs.mount_cut hedit.1 hedit.2 k
  rw [hpage] at hcut
  obtain ⟨m', ht, hlines, hrecords⟩ : ∃ m', t.Holds m' ∧
      (t.lines = s.lines ∨ t.lines = (s.perform edit).lines) ∧
      ∀ key, m' (.record key) = m (.record key) := by
    rcases hcut with ht | ht
    · exact ⟨m, ht, Or.inl (hs.lines_eq ht), fun _ => rfl⟩
    · exact ⟨_, ht, Or.inr ((hs.perform hedit.1).lines_eq ht), after_record hedit.2⟩
  refine ⟨hlines, ht.shows.ascending, ht.liveLines_perm, ?_⟩
  intro key
  rw [ht.record?, hs.record?, hrecords]

/-- Line 10 is replaced and power is lost before its old copy is deleted: the old text is read
again. -/
theorem mount_cut_edit_between_copies :
    let requests : List Request := [.putLine 20 [66], .putLine 10 [65], .putRecord 5 [1, 2]]
    let s := grown 64 32 requests
    let edit : Request := .putLine 10 [67]
    let t := mount (s.flash.applyAll ((s.opsOf edit).take 1)) 32
    Page.ageLength ≤ 32 ∧ (∀ r ∈ requests, r.Valid) ∧ (edit.Valid ∧ edit.editsLine = true) ∧
      (s.opsOf edit).length = 2 ∧ t.lines = [(10, [65]), (20, [66])] ∧
      (t.lines = s.lines ∨ t.lines = (s.perform edit).lines) ∧
      t.ids.Pairwise (· < ·) ∧ ((t.flash.liveLines 32).map t.flash.itemId).Perm t.ids ∧
      ∀ key, t.record? key = s.record? key := by
  intro requests s edit t
  refine ⟨by decide, by decide, by decide, by decide +kernel, by decide +kernel, ?_⟩
  exact mount_cut_edit 64 32 (by decide) requests (by decide) edit (by decide) 1

end Store

end FlashBasic
