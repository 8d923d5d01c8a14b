import FlashBasic.Proofs.Store.Compaction
import FlashBasic.Proofs.Store.Guarded

/-!
No access of the store goes astray, whatever flash held at first. What stands behind a free marker
is not looked at, and a write there only clears bits; so an item may come out with other figures
than were written, and the bookkeeping of its page need not agree with what a scan would find. What
holds in any case is `Store.Fit`: the figures leave room for the age, every address of the index is
readable, and no page has the age of an erased one. A write keeps an address readable since it can
only make the length in a header smaller (`Readable.write`).

`Store.safe_reached` says that in all stores that can be reached no guard stops anything.
-/

namespace FlashBasic

set_option autoImplicit false

open Item (Stored)
open Page (Layout)

/-! ## Writing behind the age of a page -/

theorem Flash.length_header (f : Flash) (addr : Nat) :
    (f.header addr).length = (f.bytes[addr + 2]?).getD 0 := by
  rw [header, Item.Header.decode, List.getD_eq_getElem?_getD, getElem?_slice, if_pos (by decide)]

/-- Writing does not make the length of an item greater. -/
theorem Flash.length_header_write (f : Flash) (addr at' : Nat) (bytes : List UInt8) :
    ((f.write at' bytes).header addr).length.toNat ≤ (f.header addr).length.toNat := by
  rw [length_header, length_header, write, Memory.getElem?_combine]
  split
  · cases f.bytes[addr + 2]? with
    | none => exact Nat.le_refl _
    | some old =>
      rw [Option.map_some, Option.getD_some, Option.getD_some, UInt8.toNat_and]
      exact Nat.and_le_left
  · exact Nat.le_refl _

theorem Readable.write {f : Flash} {pageSize addr : Nat} (h : Readable f pageSize addr) (at' : Nat)
    (bytes : List UInt8) : Readable (f.write at' bytes) pageSize addr :=
  ⟨h.toPlaced.of_size (f.size_apply (.write at' bytes)), h.body,
    Nat.le_trans (Nat.add_le_add_left (f.length_header_write addr at' bytes) _) h.item⟩

/-- Writes whole words behind the age of a page. -/
def Inner (pageSize : Nat) (f : Flash) : Flash.Op → Prop
  | .erase _ _ => False
  | .write addr bytes => Placed pageSize f addr bytes.length ∧ Page.ageLength ≤ addr % pageSize

namespace Inner

variable {pageSize : Nat} {f : Flash}

theorem of_size {f' : Flash} {op : Flash.Op} (hsize : f'.size = f.size) (h : Inner pageSize f op) :
    Inner pageSize f' op := by
  cases op with
  | erase p size => exact h
  | write addr bytes => exact ⟨h.1.of_size hsize, h.2⟩

theorem within {op : Flash.Op} (h : Inner pageSize f op) : Within pageSize f op := by
  cases op with
  | erase p size => exact h.elim
  | write addr bytes => exact h.1

theorem readable {op : Flash.Op} (h : Inner pageSize f op) {a : Nat} (ha : Readable f pageSize a) :
    Readable (f.apply op) pageSize a := by
  cases op with
  | erase p size => exact h.elim
  | write addr bytes => exact ha.write addr bytes

/-- Ages are not touched. -/
theorem age {op : Flash.Op} (h : Inner pageSize f op) (p : Nat) :
    (f.apply op).age pageSize p = f.age pageSize p := by
  cases op with
  | erase q size => exact h.elim
  | write addr bytes => exact f.age_write h.2 h.1.within p

theorem age_applyAll {ops : List Flash.Op} (h : ∀ op ∈ ops, Inner pageSize f op) (p : Nat) :
    (f.applyAll ops).age pageSize p = f.age pageSize p := by
  induction ops generalizing f with
  | nil => rfl
  | cons op ops ih =>
    obtain ⟨hop, hops⟩ := List.forall_mem_cons.mp h
    rw [Flash.applyAll_cons, ih fun o ho => (hops o ho).of_size (f.size_apply op), hop.age]

end Inner

theorem Readable.inner_bury {f g : Flash} {pageSize addr : Nat} (h : Readable f pageSize addr) :
    Inner pageSize f (g.bury addr) :=
  ⟨by rw [Item.Header.length_encode]; exact h.toPlaced, h.body⟩

/-- Where an item was written it can be read, whatever was there. -/
theorem Readable.of_item {f : Flash} {pageSize addr : Nat} {id : UInt16} {data : List UInt8}
    (hplaced : Placed pageSize f addr (Item.length data.length))
    (hbody : Page.ageLength ≤ addr % pageSize) :
    Readable (f.write addr (Item.encode id data)) pageSize addr := by
  have hle := Stored.length_le data.length
  have hwithin := hplaced.within
  have hlen := Stored.length_encode id data
  have hheader : ((f.write addr (Item.encode id data)).header addr).length.toNat ≤
      (Item.length data.length) := by
    have hdecode : (Item.encode id data).getD 2 0 = (Item.length data.length).toUInt8 :=
      congrArg Item.Header.length (Stored.decode_item id data)
    rw [Flash.length_header, Flash.write, Memory.getElem?_combine,
      if_pos ⟨by omega, by unfold Item.headerLength at hle; omega⟩]
    cases f.bytes[addr + 2]? with
    | none => exact Nat.zero_le _
    | some old =>
      rw [Option.map_some, Option.getD_some, UInt8.toNat_and, Nat.add_sub_cancel_left, hdecode,
        Nat.toUInt8_eq, UInt8.toNat_ofNat']
      exact Nat.le_trans Nat.and_le_right (Nat.mod_le _ _)
  have hhead : Placed pageSize f addr Item.headerLength :=
    ⟨hplaced.address, rfl, hplaced.page, by omega⟩
  exact ⟨hhead.of_size (f.size_apply (.write _ _)), hbody, by omega⟩

/-! ## Recovery and renewal -/

namespace Guarded

theorem stampErased_ok (pageSize p : Nat) (ages : List UInt32) (last : UInt32)
    (hbound : last.toNat + ages.count Page.erasedAge < 2 ^ 32) :
    stampErased pageSize p ages last = .ok (Store.stampErased pageSize p ages last) := by
  induction ages generalizing p last with
  | nil => rfl
  | cons age ages ih =>
    rw [stampErased, Store.stampErased]
    by_cases hage : age = Page.erasedAge
    · rw [hage, List.count_cons_self] at hbound
      have hnext : (last + 1).toNat = last.toNat + 1 := toNat_nextAge (by omega)
      rw [if_pos hage, if_pos hage, succ_ok (by omega), ok_bind, ih _ _ (by omega), ok_bind]
      rfl
    · rw [List.count_cons_of_ne hage] at hbound
      rw [if_neg hage, if_neg hage, ih _ _ hbound]

section Recovery

variable {f : Flash} {pageSize : Nat} {vol : List Layout}

theorem infos_ok (h : Reads f pageSize vol) :
    (vol.map fun L => Page.scan L.bytes).mapM (info pageSize) =
      .ok ((vol.map fun L => Page.scan L.bytes).map (·.info pageSize)) := by
  refine mapM_ok ?_
  intro scan hscan
  obtain ⟨L, hL, rfl⟩ := List.mem_map.mp hscan
  obtain ⟨p, hp⟩ := List.mem_iff_getElem?.mp hL
  have hstop := h.stop_le hp
  have hle : L.stop ≤ pageSize := by omega
  refine info_ok ?_
  rw [Layout.scan_bytes]
  exact hle

theorem readable_lineAddresses (hwords : pageSize % 4 = 0) (h : Reads f pageSize vol) :
    ∀ a ∈ lineAddresses (entries pageSize vol), Readable f pageSize a := by
  intro a ha
  obtain ⟨i, n, hi, -⟩ := mem_lineAddresses.mp ha
  exact h.readable hwords hi

theorem sortLines_ok {found : List Nat} (h : ∀ a ∈ found, Readable f pageSize a) :
    sort (fun a b => do
      return decide ((← itemId f pageSize a) < (← itemId f pageSize b))) found.toArray =
      .ok (HeapSort.sort (fun a b => decide (f.itemId a < f.itemId b)) found.toArray) := by
  have hlt : ∀ a b, Readable f pageSize a → Readable f pageSize b →
      (do return decide ((← itemId f pageSize a) < (← itemId f pageSize b)) : Guarded Bool) =
        .ok (decide (f.itemId a < f.itemId b)) := by
    intro a b ha hb
    rw [itemId_ok ha, ok_bind, itemId_ok hb, ok_bind, pure_eq_ok]
  exact sort_ok hlt (by simpa using h)

theorem dropAll_ok {dropped : List Nat} (h : ∀ a ∈ dropped, Readable f pageSize a)
    (pages : List Page.Info) (hcount : pages.length = f.pageCount pageSize) :
    dropped.foldlM (addWaste f pageSize) pages =
      .ok (dropped.foldl (Store.addWaste f pageSize) pages) := by
  refine foldlM_ok (fun pages => pages.length = f.pageCount pageSize) ?_ hcount
  intro a ha pages hlength
  exact ⟨addWaste_ok (h a ha) hlength, by rw [Store.addWaste, List.length_modify, hlength]⟩

/-- Recovery does not stop on any flash, as long as there are ages left. -/
theorem recovery_ok (hsize : Page.ageLength ≤ pageSize) (hwords : pageSize % 4 = 0)
    (h : Reads f pageSize vol)
    (hbound : (Store.newestAge (vol.map (·.ageNumber))).toNat + vol.countP isErased < 2 ^ 32) :
    recovery f pageSize = .ok (Store.recovery f pageSize) := by
  have hread : (List.range (f.size / pageSize)).mapM (age f pageSize) =
      .ok (vol.map (·.ageNumber)) := by
    rw [← h.map_age]
    exact mapM_ok fun p hp => age_ok hsize (List.mem_range.mp hp)
  have hstamps := rewrites_stampAll pageSize vol (Store.newestAge (vol.map (·.ageNumber)))
  have hstamping := hstamps.follows hwords h
  have h1 := hstamps.reads h
  simp only [recovery, Store.recovery, Store.recoveryOn, Flash.foldl_apply, hread, h.map_age,
    ok_bind]
  rw [stampErased_ok _ _ _ _ (by rw [count_erasedAge]; exact hbound), ok_bind]
  generalize Store.stampErased pageSize 0 (vol.map (·.ageNumber))
    (Store.newestAge (vol.map (·.ageNumber))) = stamps at hstamping h1 ⊢
  obtain ⟨ops, last⟩ := stamps
  generalize stampAll vol (Store.newestAge (vol.map (·.ageNumber))) = vol1 at h1
  dsimp only at h1 hstamping ⊢
  rw [applyAll_ok hstamping.within, ok_bind, ← Flash.size_applyAll f ops]
  -- From here on all is read from the flash on which every page has an age.
  generalize f.applyAll ops = g at h1 ⊢
  have hscans := h1.map_scan
  have hread1 : (List.range (g.size / pageSize)).mapM (scanPage g pageSize) =
      .ok (vol1.map fun L => Page.scan L.bytes) := by
    rw [← hscans]
    exact mapM_ok fun p hp => scanPage_ok hsize (List.mem_range.mp hp)
  have hfound := readable_lineAddresses hwords h1
  have hsorted : ∀ a ∈ sortedLines g pageSize vol1, Readable g pageSize a := fun a ha =>
    hfound a ((Reads.sortedLines_perm g pageSize vol1).subset ha)
  have hparts := (splitRepeats_spec g.itemId (sortedLines g pageSize vol1)
    (Reads.sortedLines_pairwise g pageSize vol1)).1
  rw [sortedLines] at hsorted hparts
  rw [hread1, ok_bind, infos_ok h1, ok_bind, hscans, flatten_lines, sortLines_ok hfound, ok_bind,
    splitRepeats_ok fun a ha => itemId_ok (hsorted a ha), ok_bind]
  generalize Store.splitRepeats g.itemId _ = parts at hparts ⊢
  obtain ⟨index, dropped⟩ := parts
  have hdropped : ∀ a ∈ dropped, Readable g pageSize a := fun a ha =>
    hsorted a (hparts.subset (List.mem_append_right _ ha))
  have hpages := dropAll_ok hdropped
    ((vol1.map fun L => Page.scan L.bytes).map (·.info pageSize))
    (by rw [List.length_map, List.length_map, h1.count])
  dsimp only
  rw [mapM_ok fun a ha => bury_ok (hdropped a ha), ok_bind, hpages, ok_bind, pure_eq_ok]

end Recovery

end Guarded

/-! ## The invariant -/

/-- The figures of a page leave room for its age and begin at a word. -/
def Page.Info.Roomy (pageSize : Nat) (info : Page.Info) : Prop :=
  Page.ageLength + info.free ≤ pageSize ∧ info.free % 4 = 0

namespace Store

/-- What holds of a store on any flash. -/
structure Fit (s : Store) : Prop where
  size : Page.ageLength ≤ s.pageSize
  words : s.pageSize % 4 = 0
  count : s.pages.length = s.flash.pageCount s.pageSize
  roomy : ∀ info ∈ s.pages, info.Roomy s.pageSize
  index : ∀ a ∈ s.index, Readable s.flash s.pageSize a
  stamped : ∀ p < s.flash.pageCount s.pageSize, s.flash.age s.pageSize p ≠ Page.erasedAge

variable {s : Store} {vol : List Layout}

/-- A store that agrees with its flash is fit. -/
theorem Coherent.fit (h : s.Coherent vol) (hsize : Page.ageLength ≤ s.pageSize)
    (hwords : s.pageSize % 4 = 0) (hstamped : ∀ a ∈ vol.map (·.ageNumber), a ≠ Page.erasedAge) :
    s.Fit := by
  refine ⟨hsize, hwords, by rw [h.pages, List.length_map, h.reads.count], ?_, ?_, ?_⟩
  · intro info hinfo
    rw [h.pages] at hinfo
    obtain ⟨L, hL, rfl⟩ := List.mem_map.mp hinfo
    obtain ⟨p, hp⟩ := List.mem_iff_getElem?.mp hL
    have hstop := h.reads.stop_le hp
    have hmod := L.stop_mod
    rw [Page.Info.Roomy, Layout.info]
    split
    · exact ⟨by omega, rfl⟩
    · rw [Layout.stop] at hstop hmod
      dsimp only
      omega
  · intro a ha
    obtain ⟨i, n, hi, -⟩ := (h.indexes.mem a).mp ha
    exact h.reads.readable hwords hi
  · intro p hp
    rw [h.reads.count] at hp
    have hL : vol[p]? = some vol[p] := List.getElem?_eq_getElem hp
    rw [h.reads.age hL]
    exact hstamped _ (List.mem_map.mpr ⟨_, List.getElem_mem hp, rfl⟩)

/-- Recovery makes a fit store of any flash, as long as there are ages left. -/
theorem Fit.recover (hreads : Reads s.flash s.pageSize vol) (hsize : Page.ageLength ≤ s.pageSize)
    (hwords : s.pageSize % 4 = 0)
    (hbound : (newestAge (vol.map (·.ageNumber))).toNat + vol.countP isErased < 2 ^ 32 - 1) :
    s.recover.Fit := by
  obtain ⟨dropped, hrecovers⟩ := hreads.exists_recover
  exact hrecovers.coherent.fit hsize hwords (ages_recover hrecovers hbound).1

namespace Fit

/-- What a scan finds in a fit store: pages of which none has the age of an erased one. -/
theorem exists_volume (h : s.Fit) :
    ∃ vol, Reads s.flash s.pageSize vol ∧ ∀ L ∈ vol, isErased L = false := by
  obtain ⟨vol, hreads⟩ := FlashBasic.exists_volume s.flash s.pageSize h.size
  refine ⟨vol, hreads, ?_⟩
  intro L hL
  obtain ⟨p, hp⟩ := List.mem_iff_getElem?.mp hL
  have hage := h.stamped p (hreads.lt_pageCount hp)
  rw [hreads.age hp] at hage
  simpa [isErased] using hage

/-- An address that a scan finds. -/
theorem readable_of_scan (h : s.Fit) {p o : Nat} {hd : Item.Header} (hp : p < s.pages.length)
    (ho : (o, hd) ∈ (Page.scan (s.flash.page s.pageSize p)).items) :
    Readable s.flash s.pageSize (p * s.pageSize + o) := by
  obtain ⟨vol, hreads, -⟩ := h.exists_volume
  rw [h.count] at hp
  obtain ⟨i, hi, -⟩ := hreads.entry_of_scan hp ho
  exact hreads.readable h.words hi

/-- Where a new item goes. -/
theorem place?_eq_some (h : s.Fit) {data : List UInt8} {p addr : Nat}
    (hplace : s.place? data = some (p, addr)) :
    Item.length data.length ≤ Item.maxLength ∧
      (∃ info, s.pages[p]? = some info ∧ Item.length data.length ≤ info.free) ∧
      addr / s.pageSize = p ∧ Placed s.pageSize s.flash addr (Item.length data.length) ∧
      Page.ageLength ≤ addr % s.pageSize := by
  rw [Store.place?] at hplace
  split at hplace
  · rename_i hlen
    obtain ⟨q, hq, hpair⟩ := Option.map_eq_some_iff.mp hplace
    cases hpair
    obtain ⟨info, hinfo, hfree⟩ := pageFor?_eq_some hq
    obtain ⟨hroom, hmod⟩ := h.roomy info (List.mem_of_getElem? hinfo)
    have hmin := Stored.length_le data.length
    have hwords := h.words
    have hitem : Item.length data.length % 4 = 0 := by
      unfold Item.length
      omega
    unfold Item.headerLength at hmin
    have hp : p < s.flash.pageCount s.pageSize := by
      rw [← h.count]
      exact (List.getElem?_eq_some_iff.mp hinfo).1
    have haddr : s.freeAddress p = p * s.pageSize + (s.pageSize - info.free) := by
      rw [freeAddress, List.getD_eq_getElem?_getD, hinfo, Option.getD_some]
    obtain ⟨hpage, hoffset⟩ :=
      Flash.address_div_mod p (show s.pageSize - info.free < s.pageSize by omega)
    rw [haddr]
    exact ⟨hlen, ⟨info, hinfo, hfree⟩, hpage,
      Placed.of_page h.words hp (by omega) (by omega) (by omega) hitem, by omega⟩
  · cases hplace

/-- The address of a record is one that a scan finds, and its payload begins with the key. -/
theorem recordAddress?_eq_some (h : s.Fit) {key : RecordKey} {a : Nat}
    (ha : s.recordAddress? key = some a) :
    Readable s.flash s.pageSize a ∧ 4 ≤ (s.flash.payload a).length := by
  obtain ⟨p, hp, hpage⟩ := List.exists_of_findSome?_eq_some ha
  obtain ⟨⟨o, hd⟩, ho, hitem⟩ := List.exists_of_findSome?_eq_some hpage
  dsimp only at hitem
  split at hitem
  · rename_i hkey
    cases hitem
    have hprefix := (List.isPrefixOf_iff_prefix.mp hkey.2).length_le
    rw [LittleEndian.length_ofUInt32] at hprefix
    exact ⟨h.readable_of_scan (List.mem_range.mp hp) ho, hprefix⟩
  · cases hitem

end Fit

end Store

/-! ## Looking things up -/

namespace Guarded

variable {s : Store} (h : s.Fit)
include h

theorem find?_ok (id : UInt16) : find? s id = .ok (s.find? id) := by
  rw [find?, lowerBound_ok h.index, ok_bind, lineAt?_ok h.index, ok_bind, pure_eq_ok, Store.find?,
    Store.lineNumber?, Store.closest]
  generalize Store.lowerBound s.flash s.index id = pos
  cases s.index[pos]? with
  | none => rfl
  | some addr =>
    rw [Option.filter_some, Option.map_some]
    by_cases hid : s.flash.itemId addr = id
    · simp [hid]
    · simp [hid]

theorem line?_ok (pos : Nat) : line? s pos = .ok (s.line? pos) := by
  rw [line?, Store.line?]
  cases hget : s.index[pos]? with
  | none => rfl
  | some addr =>
    have haddr := h.index addr (List.mem_of_getElem? hget)
    dsimp only
    rw [itemId_ok haddr, ok_bind, payload_ok haddr, ok_bind, pure_eq_ok, Option.map_some]

omit h in
/-- The guards are not idle: of an item that would end behind its page the text is not read. -/
example :
    let s : Store := {
      flash := ⟨#[1, 0, 0, 0, 0, 0, 8, 0, 0, 0, 0, 0, 10, 0, 8, 0,
        2, 0, 0, 0, 0, 0, 12, 0, 0, 0, 0, 0, 0, 0, 0, 0]⟩
      pageSize := 16
      pages := [⟨0, 8⟩, ⟨0, 12⟩]
      index := [12]
      lastAge := 2 }
    line? s 0 = .error .access := rfl

theorem pageAge_ok {p : Nat} (hp : p < s.pages.length) :
    age s.flash s.pageSize p = .ok (s.age p) :=
  age_ok h.size (by rwa [← h.count])

theorem pageFor?_ok (length : Nat) : pageFor? s length = .ok (s.pageFor? length) := by
  refine choose_ok ?_
  intro p q hp hq
  rw [pageAge_ok h hp, ok_bind, pageAge_ok h hq, ok_bind, pure_eq_ok]

theorem place?_ok (payload : List UInt8) : place? s payload = .ok (s.place? payload) := by
  rw [place?, Store.place?]
  split
  · rw [pageFor?_ok h, ok_bind]
    cases hp : s.pageFor? (Item.length payload.length) with
    | none => rfl
    | some p =>
      obtain ⟨info, hinfo, -⟩ := Store.pageFor?_eq_some hp
      have hroom := (h.roomy info (List.mem_of_getElem? hinfo)).1
      dsimp only
      rw [hinfo, present_some, ok_bind, minus_ok (by omega), ok_bind, pure_eq_ok, Option.map_some,
        Store.freeAddress, List.getD_eq_getElem?_getD, hinfo, Option.getD_some]
  · rfl

theorem recordOnPage?_ok (key : List UInt8) {p : Nat} (hp : p < s.pages.length) :
    recordOnPage? s key p = .ok (s.recordOnPage? key p) := by
  rw [recordOnPage?, scanPage_ok h.size (by rwa [← h.count]), ok_bind]
  refine findSomeM?_ok ?_
  rintro ⟨o, hd⟩ ho
  dsimp only
  by_cases hkind : hd.kind = .record
  · rw [if_pos hkind, payload_ok (h.readable_of_scan hp ho), ok_bind, pure_eq_ok]
    simp only [hkind, true_and]
  · rw [if_neg hkind, if_neg (fun hboth => hkind hboth.1)]

theorem recordAddress?_ok (key : RecordKey) :
    recordAddress? s key = .ok (s.recordAddress? key) :=
  findSomeM?_ok fun _ hp => recordOnPage?_ok h _ (List.mem_range.mp hp)

theorem record?_ok (key : RecordKey) : record? s key = .ok (s.record? key) := by
  rw [record?, recordAddress?_ok h, ok_bind, Store.record?]
  cases ha : s.recordAddress? key with
  | none => rfl
  | some addr =>
    obtain ⟨haddr, hlong⟩ := h.recordAddress?_eq_some ha
    dsimp only
    rw [payload_ok haddr, ok_bind, ensure_ok hlong, ok_bind, pure_eq_ok, Option.map_some]

omit h in
theorem compactionTarget?_ok (length scratch : Nat) :
    compactionTarget? s length scratch = .ok (s.compactionTarget? length scratch) := by
  rw [compactionTarget?, Store.compactionTarget?]
  split
  · refine choose_ok ?_
    intro p q hp hq
    rw [List.getElem?_eq_getElem hp, List.getElem?_eq_getElem hq, present_some, ok_bind,
      present_some, ok_bind, pure_eq_ok]
    refine congrArg Except.ok (decide_eq_decide.mpr ?_)
    dsimp only
    rw [List.getD_eq_getElem _ _ hp, List.getD_eq_getElem _ _ hq]
  · rfl

end Guarded

/-! ## Changing lines and records -/

theorem Page.Info.Roomy.modify {pageSize : Nat} {pages : List Page.Info}
    (h : ∀ info ∈ pages, info.Roomy pageSize) {g : Page.Info → Page.Info}
    (hg : ∀ info, info.Roomy pageSize → (g info).Roomy pageSize) (p : Nat) :
    ∀ info ∈ pages.modify p g, info.Roomy pageSize := by
  intro info hinfo
  obtain ⟨k, hk⟩ := List.mem_iff_getElem?.mp hinfo
  rw [List.getElem?_modify] at hk
  obtain ⟨old, hold, rfl⟩ := Option.map_eq_some_iff.mp hk
  have hroomy := h old (List.mem_of_getElem? hold)
  split
  · exact hg old hroomy
  · exact hroomy

namespace Store

theorem roomy_addWaste {f : Flash} {pageSize : Nat} {pages : List Page.Info}
    (h : ∀ info ∈ pages, info.Roomy pageSize) (addr : Nat) :
    ∀ info ∈ addWaste f pageSize pages addr, info.Roomy pageSize := by
  refine Page.Info.Roomy.modify h ?_ _
  intro info hinfo
  exact hinfo

theorem roomy_takeFree {pageSize : Nat} {pages : List Page.Info}
    (h : ∀ info ∈ pages, info.Roomy pageSize) (p : Nat) {length : Nat} (hlength : length % 4 = 0) :
    ∀ info ∈ takeFree pages p length, info.Roomy pageSize := by
  refine Page.Info.Roomy.modify h ?_ p
  rintro info ⟨hroom, hmod⟩
  constructor
  · dsimp only
    omega
  · dsimp only
    omega

/-- Writing behind the ages keeps a store fit if the new figures and the new index are. -/
theorem Fit.of_inner {s : Store} (h : s.Fit) {c : Change}
    (hops : ∀ op ∈ c.ops, Inner s.pageSize s.flash op) (hcount : c.pages.length = s.pages.length)
    (hroomy : ∀ info ∈ c.pages, info.Roomy s.pageSize)
    (hindex : ∀ a ∈ c.index, Readable (s.flash.applyAll c.ops) s.pageSize a) :
    (∀ op ∈ c.ops, Within s.pageSize s.flash op) ∧ (s.commit c).Fit := by
  have hpages := Flash.pageCount_congr (Flash.size_applyAll s.flash c.ops) s.pageSize
  refine ⟨fun op hop => (hops op hop).within, h.size, h.words, ?_, hroomy, hindex, ?_⟩
  · exact hcount.trans (h.count.trans hpages.symm)
  · intro p hp
    have hage := Inner.age_applyAll hops p
    show (s.flash.applyAll c.ops).age s.pageSize p ≠ Page.erasedAge
    rw [hage]
    exact h.stamped p (hpages ▸ hp)

/-- The figures once an item was put on a page. -/
theorem Fit.figures_takeFree {s : Store} (h : s.Fit) (data : List UInt8) (p : Nat) :
    (takeFree s.pages p (Item.length data.length)).length = s.pages.length ∧
      ∀ info ∈ takeFree s.pages p (Item.length data.length), info.Roomy s.pageSize := by
  refine ⟨List.length_modify .., roomy_takeFree h.roomy p ?_⟩
  unfold Item.length
  omega

section Putting

variable {s : Store} (h : s.Fit) {data : List UInt8} {p addr : Nat}
  (hplace : s.place? data = some (p, addr)) (id : UInt16)
include h hplace

/-- A new item is written behind the age of its page. -/
theorem Fit.inner_item :
    Inner s.pageSize s.flash (.write addr (Item.encode id data)) := by
  obtain ⟨-, -, -, hplaced, hbody⟩ := h.place?_eq_some hplace
  exact ⟨by rw [Stored.length_encode]; exact hplaced, hbody⟩

theorem Fit.readable_item :
    Readable (s.flash.apply (.write addr (Item.encode id data))) s.pageSize addr := by
  obtain ⟨-, -, -, hplaced, hbody⟩ := h.place?_eq_some hplace
  exact Readable.of_item hplaced hbody

/-- Putting an item and deleting another, which is readable. -/
theorem Fit.replace {old : Nat} (hold : Readable s.flash s.pageSize old) {index : List Nat}
    (hindex : ∀ a ∈ index, a = addr ∨ a ∈ s.index) :
    let item := Flash.Op.write addr (Item.encode id data)
    let c : Change := {
      ops := [item, (s.flash.apply item).bury old]
      pages := addWaste (s.flash.apply item) s.pageSize
        (takeFree s.pages p (Item.length data.length)) old
      index
      lastAge := s.lastAge }
    (∀ op ∈ c.ops, Within s.pageSize s.flash op) ∧ (s.commit c).Fit := by
  intro item c
  obtain ⟨hcount, hroomy⟩ := h.figures_takeFree data p
  have hitem : Inner s.pageSize s.flash item := h.inner_item hplace id
  have hbury : Inner s.pageSize s.flash ((s.flash.apply item).bury old) := hold.inner_bury
  refine h.of_inner ?_ ?_ (roomy_addWaste hroomy old) ?_
  · simp only [c, List.forall_mem_cons]
    exact ⟨hitem, hbury, by simp⟩
  · exact (List.length_modify ..).trans hcount
  · intro a ha
    have hnext : Readable (s.flash.apply item) s.pageSize a := by
      obtain rfl | ha := hindex a ha
      · exact h.readable_item hplace id
      · exact hitem.readable (h.index a ha)
    exact hnext.write _ _

/-- Putting an item. -/
theorem Fit.append {index : List Nat} (hindex : ∀ a ∈ index, a = addr ∨ a ∈ s.index) :
    let c : Change := {
      ops := [.write addr (Item.encode id data)]
      pages := takeFree s.pages p (Item.length data.length)
      index
      lastAge := s.lastAge }
    (∀ op ∈ c.ops, Within s.pageSize s.flash op) ∧ (s.commit c).Fit := by
  intro c
  obtain ⟨hcount, hroomy⟩ := h.figures_takeFree data p
  have hitem := h.inner_item hplace id
  refine h.of_inner ?_ hcount hroomy ?_
  · simp only [c, List.forall_mem_cons]
    exact ⟨hitem, by simp⟩
  · intro a ha
    obtain rfl | ha := hindex a ha
    · exact h.readable_item hplace id
    · exact hitem.readable (h.index a ha)

end Putting

/-- Deleting an item that is readable. -/
theorem Fit.burial {s : Store} (h : s.Fit) {addr : Nat} (haddr : Readable s.flash s.pageSize addr)
    {index : List Nat} (hindex : ∀ a ∈ index, a ∈ s.index) :
    (∀ op ∈ (s.burial addr index).ops, Within s.pageSize s.flash op) ∧
      (s.commit (s.burial addr index)).Fit := by
  refine h.of_inner ?_ (List.length_modify ..) (roomy_addWaste h.roomy addr) ?_
  · simp only [Store.burial, List.forall_mem_cons]
    exact ⟨haddr.inner_bury, by simp⟩
  · intro a ha
    exact (h.index a (hindex a ha)).write _ _

end Store

namespace Guarded

variable {s : Store} (h : s.Fit)
include h

theorem takeFree_ok {data : List UInt8} {p addr : Nat}
    (hplace : s.place? data = some (p, addr)) :
    takeFree s.pages p (Item.length data.length) =
      .ok (Store.takeFree s.pages p (Item.length data.length)) := by
  obtain ⟨-, ⟨info, hinfo, hfree⟩, -⟩ := h.place?_eq_some hplace
  exact modify_ok hinfo (by rw [minus_ok hfree, ok_bind, pure_eq_ok])

theorem putLineChange?_ok (id : UInt16) (text : List UInt8) :
    putLineChange? s id text = .ok (s.putLineChange? id text) := by
  rw [putLineChange?, place?_ok h, ok_bind, Store.putLineChange?, Store.putLineChangeOn?]
  cases hplace : s.place? text with
  | none => rfl
  | some place =>
    obtain ⟨p, addr⟩ := place
    have hitem := h.inner_item hplace id
    have hindex : ∀ a ∈ s.index, Readable (s.flash.apply (.write addr (Item.encode id text)))
        s.pageSize a := fun a ha => hitem.readable (h.index a ha)
    have hcount := (h.figures_takeFree text p).1.trans h.count
    have hpage : OnPage s.pageSize p (.write addr (Item.encode id text)) :=
      (h.place?_eq_some hplace).2.2.1
    dsimp only [Option.map_some]
    rw [encode_ok (h.place?_eq_some hplace).1, ok_bind, ensure_ok hpage, ok_bind,
      apply_ok hitem.within, ok_bind, takeFree_ok h hplace, ok_bind, lowerBound_ok hindex, ok_bind,
      lineAt?_ok hindex, ok_bind]
    have hsize := s.flash.size_apply (.write addr (Item.encode id text))
    have hpos : Store.lowerBound (s.flash.apply (.write addr (Item.encode id text))) s.index id ≤
      s.index.length := Search.boundary_le_length _ _
    generalize s.flash.apply (.write addr (Item.encode id text)) = g at hindex hsize hpos ⊢
    generalize Store.lowerBound g s.index id = pos at hpos ⊢
    cases hold : s.index[pos]?.filter (g.itemId · = id) with
    | none =>
      dsimp only
      rw [ensure_ok hpos, ok_bind, pure_eq_ok]
    | some old =>
      have hread := hindex old (List.mem_of_getElem? (Option.filter_eq_some_iff.mp hold).1)
      dsimp only
      rw [bury_ok hread, ok_bind, addWaste_ok hread, ok_bind, pure_eq_ok]
      rw [hcount, Flash.pageCount_congr hsize]

theorem burial_ok {addr : Nat} (haddr : Readable s.flash s.pageSize addr) (index : List Nat) :
    burial s addr index = .ok (s.burial addr index) := by
  rw [burial, bury_ok haddr, ok_bind, addWaste_ok haddr h.count, ok_bind, pure_eq_ok, Store.burial]

theorem deleteLineChange?_ok (id : UInt16) :
    deleteLineChange? s id = .ok (s.deleteLineChange? id) := by
  rw [deleteLineChange?, find?_ok h, ok_bind, Store.deleteLineChange?]
  cases hfind : s.find? id with
  | none => rfl
  | some pos =>
    rw [Store.find?] at hfind
    split at hfind
    · rename_i hnumber
      cases hfind
      obtain ⟨addr, haddr, -⟩ := Option.map_eq_some_iff.mp hnumber
      have hburial := burial_ok h (h.index addr (List.mem_of_getElem? haddr))
        (s.index.eraseIdx (s.closest id))
      simp only [Option.bind_eq_bind, Option.bind_some, haddr, present_some, ok_bind, hburial]
      rfl
    · cases hfind

theorem putRecordChange?_ok (key : RecordKey) (data : List UInt8) :
    putRecordChange? s key data = .ok (s.putRecordChange? key data) := by
  rw [putRecordChange?, place?_ok h, ok_bind, Store.putRecordChange?, Store.putRecordChangeOn?]
  cases hplace : s.place? (LittleEndian.ofUInt32 key ++ data) with
  | none => rfl
  | some place =>
    obtain ⟨p, addr⟩ := place
    have hitem := h.inner_item hplace Item.recordId
    have hcount := (h.figures_takeFree (LittleEndian.ofUInt32 key ++ data) p).1.trans h.count
    have hpage : OnPage s.pageSize p
        (.write addr (Item.encode Item.recordId (LittleEndian.ofUInt32 key ++ data))) :=
      (h.place?_eq_some hplace).2.2.1
    dsimp only [Option.map_some]
    rw [encode_ok (h.place?_eq_some hplace).1, ok_bind, ensure_ok hpage, ok_bind,
      apply_ok hitem.within, ok_bind, takeFree_ok h hplace, ok_bind, recordAddress?_ok h, ok_bind]
    cases hold : s.recordAddress? key with
    | none => rfl
    | some old =>
      have hread := hitem.readable (h.recordAddress?_eq_some hold).1
      have hsize := s.flash.size_apply
        (.write addr (Item.encode Item.recordId (LittleEndian.ofUInt32 key ++ data)))
      dsimp only
      rw [bury_ok hread, ok_bind, addWaste_ok hread, ok_bind, pure_eq_ok]
      rw [hcount, Flash.pageCount_congr hsize]

theorem deleteRecordChange?_ok (key : RecordKey) :
    deleteRecordChange? s key = .ok (s.deleteRecordChange? key) := by
  rw [deleteRecordChange?, recordAddress?_ok h, ok_bind, Store.deleteRecordChange?]
  cases hold : s.recordAddress? key with
  | none => rfl
  | some addr =>
    dsimp only
    rw [burial_ok h (h.recordAddress?_eq_some hold).1, ok_bind, pure_eq_ok, Option.map_some]

end Guarded

/-! ## Erasing -/

section Erasing

variable {f : Flash} {pageSize : Nat}

theorem within_stamp (hsize : Page.ageLength ≤ pageSize) (hwords : pageSize % 4 = 0) {p : Nat}
    (hp : p < f.pageCount pageSize) (age : UInt32) :
    Within pageSize f (Flash.stamp pageSize p age) := by
  have hplaced : Placed pageSize f (p * pageSize + 0) Page.ageLength :=
    Placed.of_page hwords hp (by omega) (by decide) rfl rfl
  exact hplaced

/-- Ages once page `p` was erased and stamped. -/
theorem age_renewed (hsize : Page.ageLength ≤ pageSize) {p q : Nat} (hp : p < f.pageCount pageSize)
    (hq : q < f.pageCount pageSize) (age : UInt32) :
    (f.applyAll [.erase p pageSize, Flash.stamp pageSize p age]).age pageSize q =
      if q = p then age else f.age pageSize q := by
  obtain ⟨vol, h⟩ := exists_volume f pageSize hsize
  rw [h.count] at hp hq
  have hL : vol[p]? = some vol[p] := List.getElem?_eq_getElem hp
  have hget : (vol.set p (Layout.blank pageSize))[p]? = some (Layout.blank pageSize) := by
    simp [hp]
  have hstamped := (h.erase hL).stamp hget rfl age
  rw [List.set_set] at hstamped
  rw [Flash.applyAll_cons, Flash.applyAll_cons, Flash.applyAll_nil]
  by_cases hqp : q = p
  · have hget' : (vol.set p ((Layout.blank pageSize).stamp age))[p]? =
        some ((Layout.blank pageSize).stamp age) := by
      simp [hp]
    rw [if_pos hqp, hqp, hstamped.age hget', Layout.ageNumber_stamp]
  · have hkept : vol[q]? = some vol[q] := List.getElem?_eq_getElem hq
    have hget' : (vol.set p ((Layout.blank pageSize).stamp age))[q]? = some vol[q] := by
      rw [List.getElem?_set_ne (Ne.symm hqp), hkept]
    rw [if_neg hqp, hstamped.age hget', h.age hkept]

/-- A used page is erased and gets the next age. -/
theorem ops_eraseUsed_cons {info : Page.Info} (hused : info.free ≠ (Store.blankPage pageSize).free)
    (p : Nat) (pages : List Page.Info) (last : UInt32) :
    (Store.eraseUsed pageSize p (info :: pages) last).1 =
      [.erase p pageSize, Flash.stamp pageSize p (last + 1)] ++
        (Store.eraseUsed pageSize (p + 1) pages (last + 1)).1 := by
  rw [Store.eraseUsed, if_neg hused]
  rfl

theorem countP_eraseUsed_cons {info : Page.Info}
    (hused : info.free ≠ (Store.blankPage pageSize).free) (p : Nat) (pages : List Page.Info)
    (last : UInt32) :
    (Store.eraseUsed pageSize p (info :: pages) last).1.countP (Store.isStamp pageSize) =
      1 + (Store.eraseUsed pageSize (p + 1) pages (last + 1)).1.countP
        (Store.isStamp pageSize) := by
  have hpair : [Flash.Op.erase p pageSize, Flash.stamp pageSize p (last + 1)].countP
      (Store.isStamp pageSize) = 1 := by
    simp
  rw [ops_eraseUsed_cons hused, List.countP_append, hpair]

/-- Clearing keeps within flash and leaves no page without an age. -/
theorem stamped_eraseUsed (hsize : Page.ageLength ≤ pageSize) (hwords : pageSize % 4 = 0)
    (pages : List Page.Info) (p : Nat) (last : UInt32) (f : Flash)
    (hp : p + pages.length ≤ f.pageCount pageSize)
    (hbound : last.toNat + (Store.eraseUsed pageSize p pages last).1.countP
      (Store.isStamp pageSize) < 2 ^ 32 - 1)
    (hstamped : ∀ q < f.pageCount pageSize, f.age pageSize q ≠ Page.erasedAge) :
    (∀ op ∈ (Store.eraseUsed pageSize p pages last).1, Within pageSize f op) ∧
      ∀ q < f.pageCount pageSize,
        (f.applyAll (Store.eraseUsed pageSize p pages last).1).age pageSize q ≠ Page.erasedAge := by
  induction pages generalizing p last f with
  | nil => exact ⟨by simp [Store.eraseUsed], hstamped⟩
  | cons info pages ih =>
    rw [List.length_cons] at hp
    by_cases hblank : info.free = (Store.blankPage pageSize).free
    · rw [Store.eraseUsed, if_pos hblank] at hbound ⊢
      exact ih (p + 1) last f (by omega) hbound hstamped
    · rw [countP_eraseUsed_cons hblank] at hbound
      rw [ops_eraseUsed_cons hblank, Flash.applyAll_append]
      have hhere : p < f.pageCount pageSize := by omega
      have hnext : (last + 1).toNat = last.toNat + 1 := toNat_nextAge (by omega)
      have hages : ∀ q < f.pageCount pageSize,
          (f.applyAll [.erase p pageSize, Flash.stamp pageSize p (last + 1)]).age pageSize q ≠
            Page.erasedAge := by
        intro q hq
        rw [age_renewed hsize hhere hq]
        split
        · exact nextAge_ne_erased (by omega)
        · exact hstamped q hq
      have hsame : (f.applyAll [.erase p pageSize, Flash.stamp pageSize p (last + 1)]).size =
        f.size := Flash.size_applyAll f _
      generalize f.applyAll [.erase p pageSize, Flash.stamp pageSize p (last + 1)] = g
        at hages hsame ⊢
      have hpages := Flash.pageCount_congr hsame pageSize
      obtain ⟨hwithin, hrest⟩ := ih (p + 1) (last + 1) g (by rw [hpages]; omega) (by omega)
        (by rwa [hpages])
      rw [hpages] at hrest
      refine ⟨?_, hrest⟩
      refine List.forall_mem_append.mpr ⟨?_, fun op hop => (hwithin op hop).of_size hsame.symm⟩
      refine List.forall_mem_cons.mpr ⟨⟨rfl, hhere⟩, List.forall_mem_cons.mpr ⟨?_, by simp⟩⟩
      exact within_stamp hsize hwords hhere _

end Erasing

namespace Store

variable {s : Store}

theorem Fit.clearChange (h : s.Fit)
    (hbound : s.lastAge.toNat + s.clearChange.stamps s.pageSize < 2 ^ 32 - 1) :
    (∀ op ∈ s.clearChange.ops, Within s.pageSize s.flash op) ∧ (s.commit s.clearChange).Fit := by
  obtain ⟨hwithin, hages⟩ := stamped_eraseUsed h.size h.words s.pages 0 s.lastAge s.flash
    (by rw [h.count]; omega) hbound h.stamped
  have hpages := Flash.pageCount_congr (Flash.size_applyAll s.flash s.clearChange.ops) s.pageSize
  have hsize := h.size
  have hwords := h.words
  refine ⟨hwithin, h.size, h.words, ?_, ?_, by simp [commit, commitOn, Store.clearChange], ?_⟩
  · exact (List.length_map _).trans (h.count.trans hpages.symm)
  · intro info hinfo
    obtain ⟨_, _, rfl⟩ := List.mem_map.mp hinfo
    show (blankPage s.pageSize).Roomy s.pageSize
    rw [Page.Info.Roomy, blankPage]
    unfold Page.ageLength at *
    dsimp only
    omega
  · intro p hp
    exact hages p (hpages ▸ hp)

/-- Recovery of a fit store finds no erased age. -/
theorem Fit.bound_newestAge (vol : List Layout) (hnone : ∀ L ∈ vol, isErased L = false) :
    (newestAge (vol.map (·.ageNumber))).toNat + vol.countP isErased < 2 ^ 32 - 1 := by
  have hzero : vol.countP isErased = 0 :=
    List.countP_eq_zero.mpr fun L hL => by simp [hnone L hL]
  have hnewest := newestAge_succ_lt (vol.map (·.ageNumber))
  omega

theorem Fit.recovery (h : s.Fit) :
    (∀ op ∈ (Store.recovery s.flash s.pageSize).ops, Within s.pageSize s.flash op) ∧
      (s.commit (Store.recovery s.flash s.pageSize)).Fit := by
  obtain ⟨vol, hreads, hnone⟩ := h.exists_volume
  exact ⟨(hreads.follows_recovery h.words).within,
    Fit.recover hreads h.size h.words (bound_newestAge vol hnone)⟩

/-- Items that fit behind an offset of a page are written on that page. -/
theorem onPage_writeItems {pageSize : Nat} (p : Nat) (items : List Stored) (o : Nat)
    (hin : o + Page.span items ≤ pageSize) :
    ∀ op ∈ writeItems (p * pageSize + o) (items.map (·.bytes)), OnPage pageSize p op := by
  induction items generalizing o with
  | nil => simp [writeItems]
  | cons i items ih =>
    have hpos := i.length_pos
    rw [Page.span_cons] at hin
    have hrest := ih (o + i.length) (by omega)
    rw [← Nat.add_assoc] at hrest
    exact List.forall_mem_cons.mpr
      ⟨(Flash.address_div_mod p (show o < pageSize by omega)).1, hrest⟩

/-- The volume on which a fit store is rebuilt after page `p` was renewed. -/
theorem Fit.exists_renewed (h : s.Fit) {p : Nat} (hp : p < s.pages.length)
    (hbound : s.lastAge.toNat + 1 < 2 ^ 32 - 1) :
    let renewal := Flash.Op.erase p s.pageSize :: Flash.stamp s.pageSize p (s.lastAge + 1) ::
      writeItems (p * s.pageSize + Page.ageLength) (liveItems (s.flash.page s.pageSize p))
    Follows s.pageSize s.flash renewal ∧ (∀ op ∈ renewal, OnPage s.pageSize p op) ∧
      ∃ vol, Reads (s.flash.applyAll renewal) s.pageSize vol ∧
        ∀ L ∈ vol, isErased L = false := by
  intro renewal
  obtain ⟨vol, hreads, hnone⟩ := h.exists_volume
  rw [h.count, hreads.count] at hp
  have hL : vol[p]? = some vol[p] := List.getElem?_eq_getElem hp
  have hpos : 0 < s.pageSize := Nat.lt_of_lt_of_le (by decide) h.size
  have hrenewal := hreads.rewrites_renewal hL (s.lastAge + 1)
  refine ⟨hrenewal.follows h.words hreads, ?_, _, hrenewal.reads hreads, ?_⟩
  · have hstop := hreads.stop_le hL
    have hspan := Page.span_filter vol[p].items
    have hstart := (Flash.address_div_mod p hpos).1
    rw [Layout.stop] at hstop
    rw [Nat.add_zero] at hstart
    refine List.forall_mem_cons.mpr ⟨rfl, List.forall_mem_cons.mpr ⟨hstart, ?_⟩⟩
    rw [hreads.page p _ hL, liveItems_bytes]
    exact onPage_writeItems p _ _ (by omega)
  intro L hmem
  obtain hmem | rfl := List.mem_or_eq_of_mem_set hmem
  · exact hnone L hmem
  · rw [isErased, Layout.ageNumber_compacted, decide_eq_false_iff_not]
    exact nextAge_ne_erased hbound

theorem Fit.compaction (h : s.Fit) {p : Nat} (hp : p < s.pages.length)
    (hbound : s.lastAge.toNat + 1 < 2 ^ 32 - 1) :
    (∀ op ∈ (s.compaction p).ops, Within s.pageSize s.flash op) ∧
      (s.commit (s.compaction p)).Fit := by
  obtain ⟨hfollows, -, vol, hreads, hnone⟩ := h.exists_renewed hp hbound
  refine ⟨(hfollows.append (hreads.follows_recovery h.words)).within, ?_⟩
  rw [commit_compaction]
  refine Fit.recover ?_ h.size h.words (bound_newestAge vol hnone)
  dsimp only
  exact hreads

end Store

namespace Guarded

theorem eraseUsed_ok (pageSize p : Nat) (pages : List Page.Info) (last : UInt32)
    (hbound : last.toNat + (Store.eraseUsed pageSize p pages last).1.countP
      (Store.isStamp pageSize) < 2 ^ 32) :
    eraseUsed pageSize (Store.blankPage pageSize).free p pages last =
      .ok (Store.eraseUsed pageSize p pages last) := by
  induction pages generalizing p last with
  | nil => rfl
  | cons info pages ih =>
    by_cases hblank : info.free = (Store.blankPage pageSize).free
    · rw [Store.eraseUsed, if_pos hblank] at hbound
      rw [eraseUsed, Store.eraseUsed, if_pos hblank, if_pos hblank, ih _ _ hbound]
    · rw [countP_eraseUsed_cons hblank] at hbound
      have hnext : (last + 1).toNat = last.toNat + 1 := toNat_nextAge (by omega)
      rw [eraseUsed, Store.eraseUsed, if_neg hblank, if_neg hblank, succ_ok (by omega), ok_bind,
        ih _ _ (by omega), ok_bind]
      rfl

theorem liveItems_ok {page : List UInt8} (hage : Page.ageLength ≤ page.length) :
    liveItems page = .ok (Store.liveItems page) := by
  have hpieces : ∀ e ∈ (Page.scan page).items,
      (if e.2.kind = .tombstone then .ok none
      else do
        ensure (e.1 + e.2.length.toNat ≤ page.length) .position
        return some ((page.drop e.1).take e.2.length.toNat) : Guarded (Option (List UInt8))) =
      .ok (if e.2.kind = .tombstone then none
        else some ((page.drop e.1).take e.2.length.toNat)) := by
    intro e he
    split
    · rfl
    · rw [ensure_ok (item_end_le hage e he), ok_bind, pure_eq_ok]
  rw [liveItems, scan_ok hage, ok_bind, mapM_ok hpieces, ok_bind, pure_eq_ok, Store.liveItems,
    List.filterMap_map]
  rfl

variable {s : Store} (h : s.Fit)
include h

theorem clearChange_ok (hbound : s.lastAge.toNat + s.clearChange.stamps s.pageSize < 2 ^ 32) :
    clearChange s = .ok s.clearChange := by
  have herase : eraseUsed s.pageSize (s.pageSize - Page.ageLength) 0 s.pages s.lastAge =
    .ok (Store.eraseUsed s.pageSize 0 s.pages s.lastAge) := eraseUsed_ok _ _ _ _ hbound
  rw [clearChange, minus_ok h.size, ok_bind, herase, ok_bind]
  rfl

theorem compaction_ok {p : Nat} (hp : p < s.pages.length)
    (hbound : s.lastAge.toNat + 1 < 2 ^ 32 - 1) : compaction s p = .ok (s.compaction p) := by
  obtain ⟨hfollows, hpage, vol, hreads, hnone⟩ := h.exists_renewed hp hbound
  have hlast := Store.Fit.bound_newestAge vol hnone
  have hp' : p < s.flash.pageCount s.pageSize := by rwa [← h.count]
  have hage : Page.ageLength ≤ (s.flash.page s.pageSize p).length := by
    rw [s.flash.length_page hp']
    exact h.size
  rw [compaction, page_ok h.size hp', ok_bind, succ_ok (by omega), ok_bind, liveItems_ok hage,
    ok_bind]
  dsimp only
  rw [ensure_ok hpage, ok_bind, applyAll_ok hfollows.within, ok_bind,
    recovery_ok h.size h.words hreads (by omega), ok_bind, pure_eq_ok]
  rfl

end Guarded

/-! ## Every request -/

theorem Store.Fit.exists_target {s : Store} {length scratch p : Nat}
    (hp : s.compactionTarget? length scratch = some p) : p < s.pages.length := by
  obtain ⟨-, info, hinfo, -⟩ := Store.compactionTarget?_eq_some hp
  exact (List.getElem?_eq_some_iff.mp hinfo).1

/-- Whatever is asked of a fit store, what it does to flash is within flash and leaves it fit. -/
theorem Store.Fit.change? {s : Store} (h : s.Fit) {r : Store.Request}
    (hbound : s.lastAge.toNat + s.stampsOf r < 2 ^ 32 - 1) {c : Store.Change}
    (hc : s.change? r = some c) :
    (∀ op ∈ c.ops, Within s.pageSize s.flash op) ∧ (s.commit c).Fit := by
  rw [stampsOf, hc, Option.map_some, Option.getD_some] at hbound
  cases r with
  | putLine n text =>
    obtain ⟨⟨p, addr⟩, hplace, hchange⟩ := Option.map_eq_some_iff.mp hc
    dsimp only at hchange
    split at hchange
    · rename_i old hold
      subst hchange
      have hmem := List.mem_of_getElem? (Option.filter_eq_some_iff.mp hold).1
      refine h.replace hplace n (h.index old hmem) ?_
      intro a ha
      exact (List.mem_or_eq_of_mem_set ha).symm
    · subst hchange
      refine h.append hplace n ?_
      intro a ha
      exact (List.mem_insertIdx (Search.boundary_le_length _ _)).mp ha
  | deleteLine n =>
    obtain ⟨pos, -, hc⟩ := Option.bind_eq_some_iff.mp hc
    obtain ⟨a, ha, hc⟩ := Option.bind_eq_some_iff.mp hc
    cases hc
    exact h.burial (h.index a (List.mem_of_getElem? ha)) fun b hb => List.mem_of_mem_eraseIdx hb
  | putRecord key data =>
    obtain ⟨⟨p, addr⟩, hplace, hchange⟩ := Option.map_eq_some_iff.mp hc
    dsimp only at hchange
    split at hchange
    · rename_i old hold
      subst hchange
      exact h.replace hplace _ (h.recordAddress?_eq_some hold).1 fun a ha => Or.inr ha
    · subst hchange
      exact h.append hplace _ fun a ha => Or.inr ha
  | deleteRecord key =>
    obtain ⟨a, ha, rfl⟩ := Option.map_eq_some_iff.mp hc
    exact h.burial (h.recordAddress?_eq_some ha).1 fun b hb => hb
  | compact length scratch =>
    rw [change?_compact] at hc
    obtain ⟨p, hp, rfl⟩ := Option.map_eq_some_iff.mp hc
    have hone := one_le_stamps_compaction s p
    exact h.compaction (exists_target hp) (by omega)
  | clear =>
    cases hc
    exact h.clearChange hbound
  | recover =>
    cases hc
    exact h.recovery

namespace Guarded

theorem commit_ok {s : Store} {c : Store.Change} (h : ∀ op ∈ c.ops, Within s.pageSize s.flash op) :
    commit s c = .ok (s.commit c) := by
  rw [commit, applyAll_ok h, ok_bind, pure_eq_ok]
  rfl

theorem change?_ok {s : Store} (h : s.Fit) {r : Store.Request}
    (hbound : s.lastAge.toNat + s.stampsOf r < 2 ^ 32 - 1) : change? s r = .ok (s.change? r) := by
  cases r with
  | putLine n text => exact putLineChange?_ok h n text
  | deleteLine n => exact deleteLineChange?_ok h n
  | putRecord key data => exact putRecordChange?_ok h key data
  | deleteRecord key => exact deleteRecordChange?_ok h key
  | compact length scratch =>
    rw [Store.stampsOf, Store.change?_compact] at hbound
    rw [change?, compactionTarget?_ok, ok_bind, Store.change?_compact]
    cases hp : s.compactionTarget? length scratch with
    | none => rfl
    | some p =>
      rw [hp, Option.map_some, Option.map_some, Option.getD_some] at hbound
      have hone := Store.one_le_stamps_compaction s p
      dsimp only
      rw [compaction_ok h (Store.Fit.exists_target hp) (by omega), ok_bind, pure_eq_ok,
        Option.map_some]
  | clear =>
    have hclear : s.lastAge.toNat + s.clearChange.stamps s.pageSize < 2 ^ 32 - 1 := hbound
    rw [change?, clearChange_ok h (by omega), ok_bind, pure_eq_ok]
    rfl
  | recover =>
    obtain ⟨vol, hreads, hnone⟩ := h.exists_volume
    have hlast := Store.Fit.bound_newestAge vol hnone
    rw [change?, recovery_ok h.size h.words hreads (by omega), ok_bind, pure_eq_ok]
    rfl

theorem perform_ok {s : Store} (h : s.Fit) {r : Store.Request}
    (hbound : s.lastAge.toNat + s.stampsOf r < 2 ^ 32 - 1) : perform s r = .ok (s.perform r) := by
  rw [perform, change?_ok h hbound, ok_bind, Store.perform_eq]
  cases hc : s.change? r with
  | none => rfl
  | some c =>
    dsimp only
    rw [commit_ok (h.change? hbound hc).1, Option.map_some, Option.getD_some]

end Guarded

namespace Store

theorem Fit.perform {s : Store} (h : s.Fit) {r : Request}
    (hbound : s.lastAge.toNat + s.stampsOf r < 2 ^ 32 - 1) : (s.perform r).Fit := by
  rw [perform_eq]
  cases hc : s.change? r with
  | none => exact h
  | some c => exact (h.change? hbound hc).2

/-- Mounting does not stop on any image, and the store is fit. -/
theorem mount_fit {image : Flash} {pageSize : Nat} (hsize : Page.ageLength ≤ pageSize)
    (hwords : pageSize % 4 = 0)
    (hages : (newestAge ((List.range (image.size / pageSize)).map (image.age pageSize))).toNat +
      (recovery image pageSize).stamps pageSize < 2 ^ 32 - 1) :
    Guarded.mount image pageSize = .ok (mount image pageSize) ∧ (mount image pageSize).Fit := by
  obtain ⟨vol, hreads⟩ := exists_volume image pageSize hsize
  rw [hreads.map_age] at hages
  obtain ⟨dropped, hrecovers⟩ := Reads.exists_recover
    (s := { flash := image, pageSize, pages := [], index := [], lastAge := 0 }) hreads
  have hcount := countP_isErased_le hrecovers
  dsimp only at hcount
  constructor
  · rw [Guarded.mount, Guarded.recovery_ok hsize hwords hreads (by omega), Guarded.ok_bind]
    exact Guarded.commit_ok (hreads.follows_recovery hwords).within
  · exact Fit.recover hreads hsize hwords (by omega)

theorem Reached.fit {image : Flash} {pageSize : Nat} {s : Store} (h : Reached image pageSize s)
    (hsize : Page.ageLength ≤ pageSize) (hwords : pageSize % 4 = 0) : s.Fit := by
  induction h with
  | mount hages => exact (mount_fit hsize hwords hages).2
  | perform _ _ hbound ih => exact ih.perform hbound

/-- On any image, as long as there are ages left, mounting the store and everything that is asked of
it afterwards keeps within flash and within the pages meant, subtracts nothing from less, and comes
to an end. -/
theorem safe_reached (image : Flash) (pageSize : Nat) (hsize : Page.ageLength ≤ pageSize)
    (hwords : pageSize % 4 = 0)
    (hages : (newestAge ((List.range (image.size / pageSize)).map (image.age pageSize))).toNat +
      (recovery image pageSize).stamps pageSize < 2 ^ 32 - 1) :
    Guarded.mount image pageSize = .ok (mount image pageSize) ∧
      ∀ s, Reached image pageSize s →
        (∀ r, s.lastAge.toNat + s.stampsOf r < 2 ^ 32 - 1 →
          Guarded.change? s r = .ok (s.change? r) ∧ Guarded.perform s r = .ok (s.perform r)) ∧
        (∀ key, Guarded.record? s key = .ok (s.record? key)) ∧
        (∀ pos, Guarded.line? s pos = .ok (s.line? pos)) ∧
        (∀ id, Guarded.find? s id = .ok (s.find? id)) := by
  refine ⟨(mount_fit hsize hwords hages).1, ?_⟩
  intro s hs
  have hfit := hs.fit hsize hwords
  refine ⟨?_, Guarded.record?_ok hfit, Guarded.line?_ok hfit, Guarded.find?_ok hfit⟩
  intro r hbound
  exact ⟨Guarded.change?_ok hfit hbound, Guarded.perform_ok hfit hbound⟩

/-- Behind the free marker of the first page bits are cleared, so that the line put there comes out
with the length 0; the second page is damaged and has no age. -/
theorem safe_reached_leftover :
    let image : Flash := ⟨#[1, 0, 0, 0, 255, 255, 4, 0, 0, 0, 0, 0, 255, 255, 255, 255,
      255, 255, 255, 255, 10, 0, 8, 3, 66, 255, 255, 255, 5, 0, 7, 0]⟩
    let s := ((mount image 16).perform (.putLine 20 [65])).perform (.deleteLine 10)
    Page.ageLength ≤ 16 ∧ 16 % 4 = 0 ∧ Reached image 16 s ∧
      (s.flash.header 4).length = 0 ∧ s.index = [4] ∧
      Guarded.mount image 16 = .ok (mount image 16) ∧
      Guarded.perform s (.compact 8 16) = .ok (s.perform (.compact 8 16)) ∧
      Guarded.line? s 0 = .ok (s.line? 0) := by
  intro image s
  have hages : (newestAge ((List.range (image.size / 16)).map (image.age 16))).toNat +
      (recovery image 16).stamps 16 < 2 ^ 32 - 1 := by decide +kernel
  have hs : Reached image 16 s :=
    .perform (.perform (.mount hages) (by decide) (by decide +kernel)) (by decide)
      (by decide +kernel)
  obtain ⟨hmount, hall⟩ := safe_reached image 16 (by decide) rfl hages
  obtain ⟨hrequests, -, hlines, -⟩ := hall s hs
  exact ⟨by decide, rfl, hs, by decide +kernel, by decide +kernel, hmount,
    (hrequests _ (by decide +kernel)).2, hlines 0⟩

end Store

end FlashBasic
