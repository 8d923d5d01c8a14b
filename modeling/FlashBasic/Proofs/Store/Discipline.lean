import FlashBasic.Proofs.Store.PowerLoss

/-!
The store never relies on how flash combines what is written with what it held. Where free space is
erased, everything that the store does to flash is allowed (`Allowed`): it erases whole pages, it
writes on erased bytes, and it clears the id of an item that is not deleted; and what it writes are
whole words within one page. Such operations have the same effect on memory that simply takes the
new value (`Flash.applyPlain`).

`Store.plain_memory` says that over plain memory the store goes through the same states as over
flash.
-/

namespace FlashBasic

set_option autoImplicit false

open Item (Stored)
open Page (Layout)

/-! ## Plain memory -/

namespace Flash

/-- Writing on memory whose bytes take any value. -/
def overwrite (f : Flash) (addr : Nat) (bytes : List UInt8) : Flash :=
  ⟨Memory.overwrite bytes addr f.bytes⟩

def applyPlain (f : Flash) : Op → Flash
  | .erase page pageSize => f.erase page pageSize
  | .write addr bytes => f.overwrite addr bytes

/-- Bytes of which every bit is still set in flash are written as on plain memory. -/
theorem overwrite_eq_write {f : Flash} {addr : Nat} {bytes : List UInt8} (h : f.Takes addr bytes) :
    f.overwrite addr bytes = f.write addr bytes := by
  have hbyte : ∀ k old, k < bytes.length → f.bytes[addr + k]? = some old →
      old &&& bytes.getD k 0 = bytes.getD k 0 := by
    intro k old hk hold
    have hget := congrArg (·[k]?) h
    simp only [List.getElem?_zipWith, getElem?_slice, if_pos hk, hold,
      List.getElem?_eq_getElem hk] at hget
    rw [List.getD_eq_getElem _ _ hk]
    exact Option.some.inj hget
  rw [overwrite, write, Memory.overwrite, Flash.mk.injEq]
  apply Array.ext_getElem?
  intro i
  rw [Memory.getElem?_combine, Memory.getElem?_combine]
  by_cases hin : addr ≤ i ∧ i < addr + bytes.length
  · rw [if_pos hin, if_pos hin]
    cases hold : f.bytes[i]? with
    | none => rfl
    | some old =>
      have hsum : addr + (i - addr) = i := by omega
      rw [Option.map_some, Option.map_some, hbyte (i - addr) old (by omega) (by rw [hsum, hold])]
  · rw [if_neg hin, if_neg hin]

end Flash

/-! ## What is allowed -/

/-- Whole words within one page. -/
structure Placed (pageSize : Nat) (f : Flash) (addr length : Nat) : Prop where
  address : addr % 4 = 0
  words : length % 4 = 0
  page : addr / pageSize < f.pageCount pageSize
  within : addr % pageSize + length ≤ pageSize

/-- The bytes are the header of an item of the page that is not deleted, with its id cleared. -/
def Deletes (pageSize : Nat) (f : Flash) (addr : Nat) (bytes : List UInt8) : Prop :=
  ∃ h, (addr % pageSize, h) ∈ (Page.scan (f.page pageSize (addr / pageSize))).items ∧
    h.kind ≠ .tombstone ∧ bytes = h.tombstone.encode

/-- What the store may do to flash. -/
def Allowed (pageSize : Nat) (f : Flash) : Flash.Op → Prop
  | .erase page size => size = pageSize ∧ page < f.pageCount pageSize
  | .write addr bytes => Placed pageSize f addr bytes.length ∧
      (f.slice addr bytes.length = List.replicate bytes.length Flash.erased ∨
        Deletes pageSize f addr bytes)

/-- Each operation is allowed on what the ones before it leave. -/
def Follows (pageSize : Nat) : Flash → List Flash.Op → Prop
  | _, [] => True
  | f, op :: ops => Allowed pageSize f op ∧ Follows pageSize (f.apply op) ops

theorem Follows.append {pageSize : Nat} {f : Flash} {ops ops' : List Flash.Op}
    (h : Follows pageSize f ops) (h' : Follows pageSize (f.applyAll ops) ops') :
    Follows pageSize f (ops ++ ops') := by
  induction ops generalizing f with
  | nil => exact h'
  | cons op ops ih => exact ⟨h.1, ih h.2 h'⟩

/-- An item that a scan finds is an item of the volume. -/
theorem Reads.entry_of_scan {f : Flash} {pageSize : Nat} {vol : List Layout}
    (h : Reads f pageSize vol) {p o : Nat} {hd : Item.Header} (hp : p < f.pageCount pageSize)
    (ho : (o, hd) ∈ (Page.scan (f.page pageSize p)).items) :
    ∃ i, (p * pageSize + o, i) ∈ entries pageSize vol ∧ i.header = hd := by
  rw [h.count] at hp
  have hL : vol[p]? = some vol[p] := List.getElem?_eq_getElem hp
  rw [h.page p _ hL, Layout.scan_bytes] at ho
  obtain ⟨⟨o', i⟩, hi, he⟩ := List.mem_map.mp ho
  cases he
  exact ⟨i, mem_entries.mpr ⟨p, _, _, hL, hi, rfl⟩, rfl⟩

/-- What is allowed does not show how flash combines bytes. -/
theorem Allowed.applyPlain_eq {pageSize : Nat} {f : Flash} {op : Flash.Op}
    (hsize : Page.ageLength ≤ pageSize) (h : Allowed pageSize f op) :
    f.applyPlain op = f.apply op := by
  cases op with
  | erase page size => rfl
  | write addr bytes =>
    refine Flash.overwrite_eq_write ?_
    obtain ⟨hplaced, herased | ⟨hd, hmem, -, rfl⟩⟩ := h
    · rw [Flash.Takes, herased, Flash.zipWith_and_erased]
    · obtain ⟨vol, hreads⟩ := exists_volume f pageSize hsize
      obtain ⟨i, hi, rfl⟩ := hreads.entry_of_scan hplaced.page hmem
      rw [Nat.mul_comm, Nat.div_add_mod] at hi
      have hslice := f.slice_slice addr i.length 0 Item.headerLength (by
        have := i.header_le
        rw [Stored.length]
        omega)
      rw [Nat.add_zero, List.drop_zero, hreads.slice_entry hi] at hslice
      rw [Flash.Takes, Item.Header.length_encode, hslice, i.and_tombstone]

theorem Follows.foldl_eq {pageSize : Nat} {f : Flash} {ops : List Flash.Op}
    (hsize : Page.ageLength ≤ pageSize) (h : Follows pageSize f ops) :
    ops.foldl Flash.applyPlain f = f.applyAll ops := by
  induction ops generalizing f with
  | nil => rfl
  | cons op ops ih =>
    rw [List.foldl_cons, h.1.applyPlain_eq hsize, ih h.2, Flash.applyAll_cons]

/-! ## The few things that are done to flash -/

/-- Items begin and end at words. -/
theorem Page.span_mod (items : List Stored) : span items % 4 = 0 := by
  induction items with
  | nil => rfl
  | cons i items ih =>
    have := i.aligned
    rw [span_cons, Stored.length]
    omega

theorem Page.Layout.stop_mod (L : Layout) : L.stop % 4 = 0 := by
  have := Page.span_mod L.items
  rw [stop, ageLength]
  omega

theorem Placed.of_page {pageSize p o n : Nat} {f : Flash} (hwords : pageSize % 4 = 0)
    (hp : p < f.pageCount pageSize) (hin : o + n ≤ pageSize) (hn : 0 < n) (ho : o % 4 = 0)
    (hlength : n % 4 = 0) : Placed pageSize f (p * pageSize + o) n := by
  obtain ⟨hdiv, hmod⟩ := Flash.address_div_mod p (show o < pageSize by omega)
  have hstart : p * pageSize % 4 = 0 := by rw [Nat.mul_mod, hwords, Nat.mul_zero]
  exact ⟨by omega, hlength, by rw [hdiv]; exact hp, by rw [hmod]; exact hin⟩

namespace Reads

variable {f : Flash} {pageSize : Nat} {vol : List Layout} (h : Reads f pageSize vol)
include h

theorem allowed_erase {p : Nat} {L : Layout} (hL : vol[p]? = some L) :
    Allowed pageSize f (.erase p pageSize) :=
  ⟨rfl, h.lt_pageCount hL⟩

theorem allowed_stamp (hwords : pageSize % 4 = 0) {p : Nat} {L : Layout} (hL : vol[p]? = some L)
    (hage : L.age = List.replicate Page.ageLength Flash.erased) (age : UInt32) :
    Allowed pageSize f (Flash.stamp pageSize p age) := by
  have hstop := h.stop_le hL
  rw [Layout.stop] at hstop
  have hplaced : Placed pageSize f (p * pageSize + 0) Page.ageLength :=
    Placed.of_page hwords (h.lt_pageCount hL) (by omega) (by decide) rfl rfl
  have hslice := f.slice_page pageSize p 0 Page.ageLength (by omega)
  rw [Nat.add_zero, h.page p L hL, List.drop_zero, Layout.bytes,
    List.take_append_of_le_length (Nat.le_of_eq L.age_length.symm),
    List.take_of_length_le (Nat.le_of_eq L.age_length), hage] at hslice
  exact ⟨hplaced, Or.inl hslice⟩

theorem allowed_append (hwords : pageSize % 4 = 0) {p : Nat} {L : Layout} (hL : vol[p]? = some L)
    (htail : L.tail = List.replicate L.tail.length Flash.erased) {i : Stored}
    (hle : i.length ≤ L.tail.length) :
    Allowed pageSize f (.write (p * pageSize + L.stop) i.bytes) := by
  have hstop := h.stop_le hL
  have hlen : i.bytes.length = i.length := rfl
  refine ⟨Placed.of_page hwords (h.lt_pageCount hL) (by omega) i.length_pos L.stop_mod i.aligned,
    Or.inl ?_⟩
  rw [h.slice_tail hL (by omega), htail, List.take_replicate, Nat.min_eq_left (by omega)]

theorem allowed_bury (hwords : pageSize % 4 = 0) {a : Nat} {i : Stored}
    (hi : (a, i) ∈ entries pageSize vol) (hlive : i.isLive = true) :
    Allowed pageSize f (f.bury a) := by
  obtain ⟨L, hL, ho⟩ := h.exists_place hi
  have hstop := h.stop_le hL
  have hbound := (Page.places_bounds ho).2
  have hfour := i.four_le_length
  rw [Layout.stop] at hstop
  obtain ⟨before, after, -, hoffset⟩ := Page.places_split ho
  have hmod := Page.span_mod before
  rw [Flash.bury, h.header_entry hi]
  have hplaced : Placed pageSize f (a / pageSize * pageSize + a % pageSize) 4 :=
    Placed.of_page hwords (h.lt_pageCount hL) (by omega) (by decide)
      (by rw [hoffset, Page.ageLength]; omega) rfl
  rw [Nat.mul_comm, Nat.div_add_mod] at hplaced
  refine ⟨hplaced, Or.inr ⟨i.header, ?_, of_decide_eq_true hlive, rfl⟩⟩
  rw [h.page _ L hL, Layout.scan_bytes]
  exact List.mem_map.mpr ⟨_, ho, rfl⟩

end Reads

/-! ## Operations one after the other -/

theorem Rewrite.allowed {f : Flash} {pageSize : Nat} {vol vol₁ : List Layout} {op : Flash.Op}
    (h : Rewrite pageSize vol op vol₁) (hwords : pageSize % 4 = 0) (hreads : Reads f pageSize vol) :
    Allowed pageSize f op := by
  cases h with
  | erase hL => exact hreads.allowed_erase hL
  | stamp hL hage age => exact hreads.allowed_stamp hwords hL hage age
  | append hL htail hle => exact hreads.allowed_append hwords hL htail hle
  | bury hi hlive =>
    have hbury := hreads.allowed_bury hwords hi hlive
    rwa [Flash.bury, hreads.header_entry hi] at hbury

/-- All that is done to a volume follows the rules. -/
theorem Rewrites.follows {f : Flash} {pageSize : Nat} {vol vol₁ : List Layout}
    {ops : List Flash.Op} (h : Rewrites pageSize vol ops vol₁) (hwords : pageSize % 4 = 0)
    (hreads : Reads f pageSize vol) : Follows pageSize f ops := by
  induction h generalizing f with
  | nil vol => trivial
  | cons hop _ ih => exact ⟨hop.allowed hwords hreads, ih (hop.reads hreads)⟩

theorem Reads.follows_recovery {f : Flash} {pageSize : Nat} {vol : List Layout}
    (hwords : pageSize % 4 = 0) (h : Reads f pageSize vol) :
    Follows pageSize f (Store.recovery f pageSize).ops := by
  obtain ⟨dropped, hrewrites⟩ := h.rewrites_recovery
  exact hrewrites.follows hwords h

/-! ## Every operation of the store -/

theorem Reads.recoveryOn_plain {f : Flash} {pageSize : Nat} {vol : List Layout}
    (hsize : Page.ageLength ≤ pageSize) (hwords : pageSize % 4 = 0) (h : Reads f pageSize vol) :
    Store.recoveryOn Flash.applyPlain f pageSize = Store.recovery f pageSize := by
  have hstamps := rewrites_stampAll pageSize vol (Store.newestAge (vol.map (·.ageNumber)))
  have hplain := (hstamps.follows hwords h).foldl_eq hsize
  simp only [Store.recoveryOn, Store.recovery, Flash.foldl_apply, h.map_age, hplain]

namespace Store

variable {s : Store} {vol : List Layout}

/-- An item is written on erased bytes. -/
theorem Sound.allowed_item (h : s.Sound vol) (hwords : s.pageSize % 4 = 0) {data : List UInt8}
    {p addr : Nat} (hplace : s.place? data = some (p, addr)) {id : UInt16}
    (hid : id ≠ Item.freeId) : Allowed s.pageSize s.flash (.write addr (Item.encode id data)) := by
  obtain ⟨hmax, L, hL, hbroken, rfl, hfits⟩ := h.place?_eq_some hplace
  exact h.reads.allowed_append (i := .ofPayload id data hid hmax) hwords hL
    (h.clean L (List.mem_of_getElem? hL) hbroken)
    (by rw [Stored.length_ofPayload]; exact hfits)

/-- Whatever is asked of a sound store, all that it does to flash is allowed. -/
theorem Sound.follows_change? (h : s.Sound vol) (hwords : s.pageSize % 4 = 0) {r : Request}
    (hr : r.Valid) {c : Change} (hc : s.change? r = some c) :
    Follows s.pageSize s.flash c.ops := by
  obtain ⟨vol', hedits⟩ | ⟨p, L, hL, rfl⟩ | rfl | rfl := h.change?_cases hr hc
  · exact hedits.rewrites.follows hwords h.reads
  · have hrenewal := h.reads.rewrites_renewal hL (s.lastAge + 1)
    exact (hrenewal.follows hwords h.reads).append ((hrenewal.reads h.reads).follows_recovery hwords)
  · rw [clearChange, h.pages]
    exact (rewrites_clearAll s.pageSize vol s.lastAge).follows hwords h.reads
  · exact h.reads.follows_recovery hwords

/-- Over plain memory the same change is worked out. -/
theorem Sound.changeOn?_plain (h : s.Sound vol) (hsize : Page.ageLength ≤ s.pageSize)
    (hwords : s.pageSize % 4 = 0) {r : Request} (hr : r.Valid) :
    s.changeOn? Flash.applyPlain r = s.change? r := by
  cases r with
  | putLine n text =>
    obtain ⟨-, -, -, hne2⟩ := Item.Kind.ofId_eq_line.mp (ofId_eq_line hr)
    refine Option.map_congr ?_
    rintro ⟨p, addr⟩ hplace
    have hflash := (h.allowed_item hwords hplace hne2).applyPlain_eq hsize
    dsimp only
    generalize s.flash.applyPlain (.write addr (Item.encode n text)) = g at hflash ⊢
    subst hflash
    rfl
  | putRecord key data =>
    refine Option.map_congr ?_
    rintro ⟨p, addr⟩ hplace
    have hflash := (h.allowed_item hwords hplace (show Item.recordId ≠ Item.freeId by
      decide)).applyPlain_eq hsize
    dsimp only
    generalize s.flash.applyPlain (.write addr (Item.encode Item.recordId
      (LittleEndian.ofUInt32 key ++ data))) = g at hflash ⊢
    subst hflash
    rfl
  | compact length scratch =>
    refine Option.map_congr ?_
    intro p hp
    obtain ⟨L, hL⟩ := h.exists_target hp
    have hrenewal := h.reads.rewrites_renewal hL (s.lastAge + 1)
    have hplain := (hrenewal.follows hwords h.reads).foldl_eq hsize
    have hrecovery := (hrenewal.reads h.reads).recoveryOn_plain hsize hwords
    simp only [compactionOn, Flash.foldl_apply, hplain, hrecovery, recovery]
  | recover => exact congrArg some (h.reads.recoveryOn_plain hsize hwords)
  | deleteLine n => rfl
  | deleteRecord key => rfl
  | clear => rfl

theorem Sound.performOn_plain (h : s.Sound vol) (hsize : Page.ageLength ≤ s.pageSize)
    (hwords : s.pageSize % 4 = 0) {r : Request} (hr : r.Valid) :
    s.performOn Flash.applyPlain r = s.perform r := by
  rw [performOn_eq, h.changeOn?_plain hsize hwords hr, perform_eq]
  cases hc : s.change? r with
  | none => rfl
  | some c =>
    rw [Option.map_some, Option.map_some, commitOn,
      (h.follows_change? hwords hr hc).foldl_eq hsize]
    rfl

theorem IsSound.foldl_perform (h : s.IsSound) {requests : List Request}
    (hvalid : ∀ r ∈ requests, r.Valid) : (requests.foldl Store.perform s).IsSound := by
  induction requests generalizing s with
  | nil => exact h
  | cons r requests ih =>
    obtain ⟨hr, hrest⟩ := List.forall_mem_cons.mp hvalid
    exact ih (h.perform hr) hrest

theorem IsSound.foldl_performOn_plain (h : s.IsSound) (hsize : Page.ageLength ≤ s.pageSize)
    (hwords : s.pageSize % 4 = 0) {requests : List Request} (hvalid : ∀ r ∈ requests, r.Valid) :
    requests.foldl (performOn Flash.applyPlain) s = requests.foldl Store.perform s := by
  induction requests generalizing s with
  | nil => rw [List.foldl_nil, List.foldl_nil]
  | cons r requests ih =>
    obtain ⟨hr, hrest⟩ := List.forall_mem_cons.mp hvalid
    have hnext := h.perform hr
    obtain ⟨vol, hsound⟩ := h
    rw [List.foldl_cons, List.foldl_cons, hsound.performOn_plain hsize hwords hr]
    exact ih hnext (by rwa [pageSize_perform]) (by rwa [pageSize_perform]) hrest

/-- Mounting an image whose free space is erased, and every request after it, does to flash only
what is allowed; and over plain memory the store goes through the same states, byte for byte. -/
theorem plain_memory (image : Flash) (pageSize : Nat) (hsize : Page.ageLength ≤ pageSize)
    (hwords : pageSize % 4 = 0) (hclean : CleanTailed image pageSize) (requests : List Request)
    (hvalid : ∀ r ∈ requests, r.Valid) :
    let s := requests.foldl perform (mount image pageSize)
    Follows pageSize image (recovery image pageSize).ops ∧
      (∀ r : Request, r.Valid → Follows pageSize s.flash (s.opsOf r)) ∧
      requests.foldl (performOn Flash.applyPlain) (mountOn Flash.applyPlain image pageSize) = s := by
  intro s
  obtain ⟨vol, hreads⟩ := exists_volume image pageSize hsize
  have hfollows := hreads.follows_recovery hwords
  have hmount : mountOn Flash.applyPlain image pageSize = mount image pageSize := by
    rw [mountOn, recoverOn, hreads.recoveryOn_plain hsize hwords, commitOn,
      hfollows.foldl_eq hsize]
    rfl
  have hsound : (mount image pageSize).IsSound := IsSound.mount hsize hclean
  have hpage : s.pageSize = pageSize := pageSize_foldl_perform requests _
  refine ⟨hfollows, ?_, ?_⟩
  · intro r hr
    obtain ⟨vol', hs⟩ := hsound.foldl_perform hvalid
    rw [opsOf]
    cases hc : s.change? r with
    | none => trivial
    | some c =>
      have := hs.follows_change? (hpage.symm ▸ hwords) hr hc
      rwa [hpage] at this
  · rw [hmount]
    exact hsound.foldl_performOn_plain hsize hwords hvalid

/-- Two copies of line 10 on pages of which one is damaged and one has no age; a line is replaced, a
page compacted, a record put and a line deleted. -/
theorem plain_memory_damaged :
    let image : Flash := ⟨#[1, 0, 0, 0, 10, 0, 8, 3, 65, 255, 255, 255, 255, 255, 255, 255,
      255, 255, 255, 255, 10, 0, 8, 3, 66, 255, 255, 255, 5, 0, 7, 0]⟩
    let requests : List Request :=
      [.compact 8 16, .putLine 10 [67], .putRecord 5 [], .deleteLine 10, .clear]
    let s := requests.foldl perform (mount image 16)
    Page.ageLength ≤ 16 ∧ 16 % 4 = 0 ∧ CleanTailed image 16 ∧ (∀ r ∈ requests, r.Valid) ∧
      Follows 16 image (recovery image 16).ops ∧
      (∀ r : Request, r.Valid → Follows 16 s.flash (s.opsOf r)) ∧
      requests.foldl (performOn Flash.applyPlain) (mountOn Flash.applyPlain image 16) = s := by
  intro image requests s
  have hclean : CleanTailed image 16 := by decide +kernel
  have hvalid : ∀ r ∈ requests, r.Valid := by decide
  exact ⟨by decide, rfl, hclean, hvalid,
    plain_memory image 16 (by decide) rfl hclean requests hvalid⟩

end Store

end FlashBasic
