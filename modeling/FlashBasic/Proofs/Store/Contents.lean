import FlashBasic.Proofs.Store.Renewal
import Mathlib.Logic.Function.Basic

/-!
A store seen as two finite maps: texts by line number and data by record key. `Contents` is both in
one, as a name is a line number or a record key.

`Store.Holds s m` says that the sound store `s` holds exactly `m`. Every request acts on `m` as it
should (`Store.Holds.perform`), and so does any number of requests to a store made of blank flash.
What can be seen of a store that holds `m` is listed by `Store.Shows`.
-/

namespace FlashBasic

set_option autoImplicit false

open Item (Stored)
open Page (Layout)

/-- What is stored under each name. -/
abbrev Contents := Name → Option (List UInt8)

namespace Contents

def empty : Contents := fun _ => none

end Contents

/-! ## Volumes -/

/-- The volume holds `m`, each name once. -/
structure Represents (vol : List Layout) (m : Contents) : Prop where
  nodup : ((bindings vol).map (·.1)).Nodup
  mem : ∀ x data, (x, data) ∈ bindings vol ↔ m x = some data

namespace Represents

variable {vol vol' : List Layout} {m : Contents}

theorem count_le (h : Represents vol m) (x : Name) : ((bindings vol).map (·.1)).count x ≤ 1 :=
  List.nodup_iff_count_le_one.mp h.nodup x

theorem congr (h : Represents vol m) (hbindings : bindings vol' = bindings vol) :
    Represents vol' m := by
  constructor
  · rw [hbindings]
    exact h.nodup
  · rw [hbindings]
    exact h.mem

theorem of_bindings_nil (hbindings : bindings vol = []) : Represents vol Contents.empty := by
  constructor
  · rw [hbindings]
    exact List.nodup_nil
  · intro x data
    rw [hbindings]
    simp [Contents.empty]

theorem nodup_filter (h : Represents vol m) (x : Name) :
    (((bindings vol).filter (·.1 ≠ x)).map (·.1)).Nodup :=
  h.nodup.sublist (List.filter_sublist.map _)

theorem delete (h : Represents vol m) {x : Name}
    (hperm : (bindings vol').Perm ((bindings vol).filter (·.1 ≠ x))) :
    Represents vol' (Function.update m x none) := by
  constructor
  · rw [(hperm.map (·.1)).nodup_iff]
    exact h.nodup_filter x
  · intro y data
    rw [hperm.mem_iff, List.mem_filter, h.mem]
    by_cases hy : y = x
    · simp [hy]
    · simp [hy]

theorem put (h : Represents vol m) {x : Name} {data : List UInt8}
    (hperm : (bindings vol').Perm ((x, data) :: (bindings vol).filter (·.1 ≠ x))) :
    Represents vol' (Function.update m x (some data)) := by
  constructor
  · rw [(hperm.map (·.1)).nodup_iff, List.map_cons, List.nodup_cons]
    refine ⟨?_, h.nodup_filter x⟩
    intro hx
    obtain ⟨b, hb, hbx⟩ := List.mem_map.mp hx
    have hne := (List.mem_filter.mp hb).2
    simp [hbx] at hne
  · intro y e
    rw [hperm.mem_iff, List.mem_cons, List.mem_filter, h.mem]
    by_cases hy : y = x
    · simp [hy, eq_comm]
    · simp [hy]

end Represents

namespace Store

/-! ## Stores -/

/-- A sound store that holds `m`. -/
def Holds (s : Store) (m : Contents) : Prop := ∃ vol, s.Sound vol ∧ Represents vol m

theorem ofId_eq_line {n : UInt16} (h : 1 ≤ n ∧ n ≤ 0xFFFD) : Item.Kind.ofId n = .line n := by
  obtain ⟨hlow, hhigh⟩ := h
  rw [UInt16.le_iff_toNat_le] at hlow hhigh
  refine Item.Kind.ofId_eq_line.mpr ⟨rfl, ?_, ?_, ?_⟩
  · rintro rfl
    exact absurd hlow (by decide)
  · rintro rfl
    exact absurd hhigh (by decide)
  · rintro rfl
    exact absurd hhigh (by decide)

/-- The store takes an item of so many bytes. -/
def hasRoom (s : Store) (length : Nat) : Bool :=
  length ≤ Item.maxLength && s.pages.any (length ≤ ·.free)

theorem hasRoom_eq_false_iff {s : Store} {length : Nat} :
    s.hasRoom length = false ↔
      Item.maxLength < length ∨ ∀ info ∈ s.pages, info.free < length := by
  simp only [hasRoom, Bool.and_eq_false_iff, decide_eq_false_iff_not, List.any_eq_false,
    decide_eq_true_eq, Nat.not_le]

theorem putLine?_eq_none_iff {s : Store} {n : UInt16} {text : List UInt8} :
    s.putLine? n text = none ↔ s.hasRoom (Item.length text.length) = false := by
  rw [putLine?, putLineOn?, Option.map_eq_none_iff, putLineChangeOn?, Option.map_eq_none_iff,
    place?_eq_none_iff, hasRoom_eq_false_iff]

theorem putRecord?_eq_none_iff {s : Store} {key : RecordKey} {data : List UInt8} :
    s.putRecord? key data = none ↔ s.hasRoom (Item.length (4 + data.length)) = false := by
  rw [putRecord?, putRecordOn?, Option.map_eq_none_iff, putRecordChangeOn?, Option.map_eq_none_iff,
    place?_eq_none_iff, hasRoom_eq_false_iff, List.length_append, LittleEndian.length_ofUInt32]

namespace Holds

variable {s s' : Store} {m : Contents}

theorem lineText? (h : s.Holds m) (n : UInt16) : s.lineText? n = m (.line n) := by
  obtain ⟨vol, hsound, hrep⟩ := h
  apply Option.ext
  intro text
  rw [hsound.lineText?_eq_some_iff, hrep.mem]

theorem record? (h : s.Holds m) (key : RecordKey) : s.record? key = m (.record key) := by
  obtain ⟨vol, hsound, hrep⟩ := h
  apply Option.ext
  intro data
  rw [hsound.record?_eq_some_iff hrep.nodup, hrep.mem]

theorem putLine? (h : s.Holds m) {n : UInt16} {text : List UInt8} (hn : 1 ≤ n ∧ n ≤ 0xFFFD)
    (hput : s.putLine? n text = some s') : s'.Holds (Function.update m (.line n) (some text)) := by
  obtain ⟨vol, hsound, hrep⟩ := h
  obtain ⟨c, hc, rfl⟩ := Option.map_eq_some_iff.mp hput
  obtain ⟨vol', hedits, hperm⟩ := hsound.putLineChange? (ofId_eq_line hn) hc
  exact ⟨vol', hedits.sound, hrep.put hperm⟩

theorem deleteLine (h : s.Holds m) (n : UInt16) :
    (s.deleteLine n).Holds (Function.update m (.line n) none) := by
  obtain ⟨vol, hsound, hrep⟩ := h
  rw [Store.deleteLine, deleteLineOn]
  cases hc : s.deleteLineChange? n with
  | none =>
    refine ⟨vol, hsound, hrep.delete ?_⟩
    rw [hsound.filter_of_deleteLineChange? hc]
  | some c =>
    obtain ⟨vol', hedits, hperm⟩ := hsound.deleteLineChange? hc
    exact ⟨vol', hedits.sound, hrep.delete hperm⟩

theorem putRecord? (h : s.Holds m) {key : RecordKey} {data : List UInt8}
    (hput : s.putRecord? key data = some s') :
    s'.Holds (Function.update m (.record key) (some data)) := by
  obtain ⟨vol, hsound, hrep⟩ := h
  obtain ⟨c, hc, rfl⟩ := Option.map_eq_some_iff.mp hput
  obtain ⟨vol', hedits, -, hperm⟩ := hsound.putRecordChange? hc
  exact ⟨vol', hedits.sound, hrep.put (hperm (hrep.count_le _))⟩

theorem deleteRecord? (h : s.Holds m) {key : RecordKey} (hdelete : s.deleteRecord? key = some s') :
    s'.Holds (Function.update m (.record key) none) := by
  obtain ⟨vol, hsound, hrep⟩ := h
  obtain ⟨c, hc, rfl⟩ := Option.map_eq_some_iff.mp hdelete
  obtain ⟨vol', hedits, -, hperm⟩ := hsound.deleteRecordChange? hc
  exact ⟨vol', hedits.sound, hrep.delete (hperm (hrep.count_le _))⟩

theorem deleteRecord?_eq_none_iff (h : s.Holds m) {key : RecordKey} :
    s.deleteRecord? key = none ↔ m (.record key) = none := by
  rw [← h.record?, Store.deleteRecord?, deleteRecordOn?, deleteRecordChange?, Store.record?]
  simp

theorem compact? (h : s.Holds m) {length scratch : Nat} (hc : s.compact? length scratch = some s') :
    s'.Holds m ∧ ∃ info ∈ s'.pages, length ≤ info.free := by
  obtain ⟨vol, hsound, hrep⟩ := h
  obtain ⟨vol', hsound', hbindings, -, hroom⟩ := hsound.compact? hc
  exact ⟨⟨vol', hsound', hrep.congr hbindings⟩, hroom⟩

theorem clear (h : s.Holds m) : s.clear.Holds Contents.empty := by
  obtain ⟨vol, hsound, -⟩ := h
  obtain ⟨hsound', hbindings⟩ := hsound.clear
  exact ⟨_, hsound', .of_bindings_nil hbindings⟩

theorem of_recover {vol : List Layout} (hreads : Reads s.flash s.pageSize vol)
    (hclean : ∀ L ∈ vol, L.IsClean) (hrep : Represents vol m) : s.recover.Holds m := by
  have hnumbers : (numbers vol).Nodup := by
    rw [List.nodup_iff_count_le_one]
    intro n
    rw [← count_line_bindings]
    exact hrep.count_le _
  refine ⟨_, ⟨(hreads.recovers_nil hnumbers).coherent, isClean_recovered hclean _⟩, hrep.congr ?_⟩
  exact congrArg (List.filterMap _) (contents_stampAll vol _)

theorem recover (h : s.Holds m) : s.recover.Holds m := by
  obtain ⟨vol, hsound, hrep⟩ := h
  exact of_recover hsound.reads hsound.clean hrep

end Holds

/-! ## Blank flash -/

theorem reads_blank (size pageSize : Nat) (h : Page.ageLength ≤ pageSize) :
    Reads (Flash.blank size) pageSize
      (List.replicate (size / pageSize) (Layout.blank pageSize)) := by
  have hsize : (Flash.blank size).size = size := Array.size_replicate
  have hbytes : (Layout.blank pageSize).bytes = List.replicate pageSize Flash.erased := by
    simp only [Layout.bytes, Layout.blank, List.flatMap_nil, List.nil_append,
      List.replicate_append_replicate, Nat.add_sub_cancel' h]
  constructor
  · rw [Flash.pageCount, hsize, List.length_replicate]
  · intro p L hL
    obtain ⟨hp, rfl⟩ := List.getElem?_eq_some_iff.mp hL
    rw [List.length_replicate] at hp
    have hcount : p < (Flash.blank size).pageCount pageSize := by
      rw [Flash.pageCount, hsize]
      exact hp
    have hend := (Flash.blank size).page_end_le hcount
    rw [hsize] at hend
    rw [List.getElem_replicate, hbytes]
    apply List.ext_getElem?
    intro k
    rw [Flash.page, Flash.getElem?_slice, List.getElem?_replicate]
    split
    · rw [Flash.blank, Array.getElem?_replicate, if_pos (by omega)]
    · rfl

theorem contents_blank (count pageSize : Nat) :
    contents (List.replicate count (Layout.blank pageSize)) = [] := by
  rw [contents, List.flatMap_eq_nil_iff]
  intro L hL
  rw [List.eq_of_mem_replicate hL]
  rfl

theorem isClean_blank (count pageSize : Nat) :
    ∀ L ∈ List.replicate count (Layout.blank pageSize), L.IsClean := by
  intro L hL
  rw [List.eq_of_mem_replicate hL]
  exact Layout.isClean_blank _

theorem Holds.mount_blank (size : Nat) {pageSize : Nat} (h : Page.ageLength ≤ pageSize) :
    (mount (Flash.blank size) pageSize).Holds Contents.empty :=
  Holds.of_recover (reads_blank size pageSize h) (isClean_blank _ _)
    (.of_bindings_nil (by rw [bindings, contents_blank]; rfl))

/-! ## Requests -/

/-- What a store is asked to do. -/
inductive Request where
  | putLine (number : UInt16) (text : List UInt8)
  | deleteLine (number : UInt16)
  | putRecord (key : RecordKey) (data : List UInt8)
  | deleteRecord (key : RecordKey)
  | compact (length scratch : Nat)
  | clear
  | recover

/-- Line numbers are 1 to 65533. -/
def Request.Valid : Request → Prop
  | .putLine n _ => 1 ≤ n ∧ n ≤ 0xFFFD
  | _ => True

instance (r : Request) : Decidable r.Valid := by
  cases r <;> unfold Request.Valid <;> infer_instance

section

variable (apply : Flash → Flash.Op → Flash)

/-- A request that is refused leaves the store as it is. -/
def performOn (s : Store) : Request → Store
  | .putLine n text => (s.putLineOn? apply n text).getD s
  | .deleteLine n => s.deleteLineOn apply n
  | .putRecord key data => (s.putRecordOn? apply key data).getD s
  | .deleteRecord key => (s.deleteRecordOn? apply key).getD s
  | .compact length scratch => (s.compactOn? apply length scratch).getD s
  | .clear => s.clearOn apply
  | .recover => s.recoverOn apply

/-- The change that a request makes. -/
def changeOn? (s : Store) : Request → Option Change
  | .putLine n text => s.putLineChangeOn? apply n text
  | .deleteLine n => s.deleteLineChange? n
  | .putRecord key data => s.putRecordChangeOn? apply key data
  | .deleteRecord key => s.deleteRecordChange? key
  | .compact length scratch => (s.compactionTarget? length scratch).map (s.compactionOn apply)
  | .clear => some s.clearChange
  | .recover => some (recoveryOn apply s.flash s.pageSize)

theorem performOn_eq (s : Store) (r : Request) :
    s.performOn apply r = ((s.changeOn? apply r).map (s.commitOn apply)).getD s := by
  cases r with
  | compact length scratch =>
    rw [performOn, compactOn?, changeOn?, Option.map_map]
    rfl
  | _ => rfl

end

def perform (s : Store) (r : Request) : Store := s.performOn Flash.apply r

def change? (s : Store) (r : Request) : Option Change := s.changeOn? Flash.apply r

theorem perform_eq (s : Store) (r : Request) :
    s.perform r = ((s.change? r).map s.commit).getD s :=
  performOn_eq Flash.apply s r

theorem perform_putLine (s : Store) (n : UInt16) (text : List UInt8) :
    s.perform (.putLine n text) = (s.putLine? n text).getD s := rfl

theorem perform_putRecord (s : Store) (key : RecordKey) (data : List UInt8) :
    s.perform (.putRecord key data) = (s.putRecord? key data).getD s := rfl

theorem perform_deleteRecord (s : Store) (key : RecordKey) :
    s.perform (.deleteRecord key) = (s.deleteRecord? key).getD s := rfl

theorem perform_compact (s : Store) (length scratch : Nat) :
    s.perform (.compact length scratch) = (s.compact? length scratch).getD s := rfl

theorem change?_compact (s : Store) (length scratch : Nat) :
    s.change? (.compact length scratch) =
      (s.compactionTarget? length scratch).map s.compaction := rfl

theorem pageSize_perform (s : Store) (r : Request) : (s.perform r).pageSize = s.pageSize := by
  rw [perform_eq]
  cases s.change? r <;> rfl

theorem size_flash_perform (s : Store) (r : Request) : (s.perform r).flash.size = s.flash.size := by
  rw [perform_eq]
  cases s.change? r with
  | none => rfl
  | some c => exact Flash.size_applyAll _ _

theorem pageSize_foldl_perform (requests : List Request) (s : Store) :
    (requests.foldl perform s).pageSize = s.pageSize := by
  induction requests generalizing s with
  | nil => rfl
  | cons r requests ih => rw [List.foldl_cons, ih, pageSize_perform]

theorem size_flash_foldl_perform (requests : List Request) (s : Store) :
    (requests.foldl perform s).flash.size = s.flash.size := by
  induction requests generalizing s with
  | nil => rfl
  | cons r requests ih => rw [List.foldl_cons, ih, size_flash_perform]

end Store

/-- What a request does to the maps. Something new is taken only where there is room for it. -/
def Contents.after (m : Contents) (room : Nat → Bool) : Store.Request → Contents
  | .putLine n text =>
    if room (Item.length text.length) then Function.update m (.line n) (some text) else m
  | .deleteLine n => Function.update m (.line n) none
  | .putRecord key data =>
    if room (Item.length (4 + data.length)) then Function.update m (.record key) (some data) else m
  | .deleteRecord key => Function.update m (.record key) none
  | .compact _ _ => m
  | .clear => Contents.empty
  | .recover => m

namespace Store

/-- A request keeps the store and the maps together. -/
theorem Holds.perform {s : Store} {m : Contents} (h : s.Holds m) {r : Request} (hr : r.Valid) :
    (s.perform r).Holds (m.after s.hasRoom r) := by
  cases r with
  | putLine n text =>
    rw [perform_putLine, Contents.after]
    cases hput : s.putLine? n text with
    | none =>
      rw [putLine?_eq_none_iff.mp hput]
      exact h
    | some s' =>
      have hroom : s.hasRoom (Item.length text.length) = true := by
        by_contra hc
        rw [putLine?_eq_none_iff.mpr (Bool.not_eq_true _ ▸ hc)] at hput
        cases hput
      rw [if_pos hroom]
      exact h.putLine? hr hput
  | deleteLine n => exact h.deleteLine n
  | putRecord key data =>
    rw [perform_putRecord, Contents.after]
    cases hput : s.putRecord? key data with
    | none =>
      rw [putRecord?_eq_none_iff.mp hput]
      exact h
    | some s' =>
      have hroom : s.hasRoom (Item.length (4 + data.length)) = true := by
        by_contra hc
        rw [putRecord?_eq_none_iff.mpr (Bool.not_eq_true _ ▸ hc)] at hput
        cases hput
      rw [if_pos hroom]
      exact h.putRecord? hput
  | deleteRecord key =>
    rw [perform_deleteRecord, Contents.after]
    cases hdelete : s.deleteRecord? key with
    | none =>
      have hnone := h.deleteRecord?_eq_none_iff.mp hdelete
      rw [Option.getD_none, ← hnone, Function.update_eq_self]
      exact h
    | some s' => exact h.deleteRecord? hdelete
  | compact length scratch =>
    rw [perform_compact, Contents.after]
    cases hc : s.compact? length scratch with
    | none => exact h
    | some s' => exact (h.compact? hc).1
  | clear => exact h.clear
  | recover => exact h.recover

/-! ## What can be seen -/

theorem Coherent.figures {s : Store} {vol : List Layout} (h : s.Coherent vol) :
    s.pages = (List.range (s.flash.size / s.pageSize)).map fun p =>
      (Page.scan (s.flash.page s.pageSize p)).info s.pageSize := by
  rw [h.pages, h.reads.map_info]

theorem Coherent.page_total {s : Store} {vol : List Layout} (h : s.Coherent vol) {p : Nat}
    (hp : p < s.flash.pageCount s.pageSize) :
    ∃ info, s.pages[p]? = some info ∧
      Page.ageLength + (Page.scan (s.flash.page s.pageSize p)).liveBytes + info.waste + info.free =
        s.pageSize := by
  rw [h.reads.count] at hp
  have hL : vol[p]? = some vol[p] := List.getElem?_eq_getElem hp
  refine ⟨vol[p].info, by rw [h.pages, List.getElem?_map, hL, Option.map_some], ?_⟩
  rw [h.reads.page p _ hL, Layout.liveBytes_scan, Layout.info_total, h.reads.length_bytes hL]

/-- All that lookups tell about a store is what the maps say. Only lack of room makes it refuse
something new, and room is what the pages of flash have left: their figures are those that a walk
over their items gives, and add up to the size of a page. -/
structure Shows (s : Store) (m : Contents) : Prop where
  ascending : s.ids.Pairwise (· < ·)
  ids : ∀ n, n ∈ s.ids ↔ (m (.line n)).isSome
  closest : ∀ n, s.closest n = (s.ids.filter (· < n)).length
  line : ∀ n, (s.find? n).bind s.line? = (m (.line n)).map fun text => (n, text)
  record : ∀ key, s.record? key = m (.record key)
  putLine : ∀ n text, s.putLine? n text = none ↔
    252 < Item.length text.length ∨ ∀ info ∈ s.pages, info.free < Item.length text.length
  putRecord : ∀ key data, s.putRecord? key data = none ↔
    252 < Item.length (4 + data.length) ∨
      ∀ info ∈ s.pages, info.free < Item.length (4 + data.length)
  figures : s.pages = (List.range (s.flash.size / s.pageSize)).map fun p =>
    (Page.scan (s.flash.page s.pageSize p)).info s.pageSize
  total : ∀ p < s.flash.size / s.pageSize, ∃ info, s.pages[p]? = some info ∧
    Page.ageLength + (Page.scan (s.flash.page s.pageSize p)).liveBytes + info.waste + info.free =
      s.pageSize

theorem Holds.shows {s : Store} {m : Contents} (h : s.Holds m) : s.Shows m := by
  obtain ⟨vol, hsound, hrep⟩ := id h
  refine ⟨hsound.ids_sorted, ?_, ?_, ?_, h.record?, ?_, ?_, hsound.figures,
    fun p hp => hsound.page_total hp⟩
  · intro n
    rw [hsound.mem_ids, ← h.lineText?, Option.isSome_iff_exists]
    simp only [hsound.lineText?_eq_some_iff, mem_bindings, Stored.binding?_eq_line_iff]
    constructor
    · rintro ⟨i, hi, hn⟩
      exact ⟨i.payload, i, hi, hn, rfl⟩
    · rintro ⟨-, i, hi, hn, -⟩
      exact ⟨i, hi, hn⟩
  · intro n
    rw [hsound.closest_eq, List.countP_eq_length_filter]
  · intro n
    rw [← h.lineText?, Store.lineText?]
    cases hpos : s.find? n with
    | none => rfl
    | some pos =>
      have hid := hsound.find?_eq_some_iff.mp hpos
      rw [Store.ids, List.getElem?_map] at hid
      obtain ⟨a, ha, rfl⟩ := Option.map_eq_some_iff.mp hid
      simp [line?, ha]
  · intro n text
    rw [putLine?_eq_none_iff, hasRoom_eq_false_iff]
    rfl
  · intro key data
    rw [putRecord?_eq_none_iff, hasRoom_eq_false_iff]
    rfl

/-- A store and the maps it should hold, after one more request. -/
def track (state : Store × Contents) (r : Request) : Store × Contents :=
  (state.1.perform r, state.2.after state.1.hasRoom r)

theorem Holds.foldl_track {state : Store × Contents} (h : state.1.Holds state.2)
    {requests : List Request} (hvalid : ∀ r ∈ requests, r.Valid) :
    (requests.foldl track state).1.Holds (requests.foldl track state).2 := by
  induction requests generalizing state with
  | nil => exact h
  | cons r requests ih =>
    obtain ⟨hr, hrest⟩ := List.forall_mem_cons.mp hvalid
    exact ih (h.perform hr) hrest

theorem fst_foldl_track (requests : List Request) (state : Store × Contents) :
    (requests.foldl track state).1 = requests.foldl perform state.1 := by
  induction requests generalizing state with
  | nil => rfl
  | cons r requests ih => exact ih (track state r)

/-- A store made of blank flash acts as two finite maps on all of its pages, whatever it is asked to
do. -/
theorem blank_acts_as_maps (size pageSize : Nat) (hsize : Page.ageLength ≤ pageSize)
    (requests : List Request) (hvalid : ∀ r ∈ requests, r.Valid) :
    let state := requests.foldl track (mount (Flash.blank size) pageSize, Contents.empty)
    state.1.Shows state.2 ∧ state.1.pages.length = size / pageSize := by
  intro state
  have hshows : state.1.Shows state.2 :=
    Holds.shows (Holds.foldl_track (Holds.mount_blank size hsize) hvalid)
  have hflash : (mount (Flash.blank size) pageSize).flash.size = size :=
    (Flash.size_applyAll _ _).trans Array.size_replicate
  have hpage : (mount (Flash.blank size) pageSize).pageSize = pageSize := rfl
  refine ⟨hshows, ?_⟩
  rw [hshows.figures, List.length_map, List.length_range, fst_foldl_track,
    size_flash_foldl_perform, pageSize_foldl_perform, hflash, hpage]

/-- Two pages of 32 bytes; the line 10 is replaced, and its page compacted. -/
theorem blank_acts_as_maps_two_pages :
    let requests : List Request := [.putLine 10 [65], .putLine 20 [66, 67], .putLine 10 [68],
      .putRecord 5 [1, 2], .deleteLine 20, .compact 8 32, .putLine 30 [1, 2, 3], .recover]
    let state := requests.foldl track (mount (Flash.blank 64) 32, Contents.empty)
    Page.ageLength ≤ 32 ∧ (∀ r ∈ requests, r.Valid) ∧
      state.1.Shows state.2 ∧ state.1.pages.length = 2 ∧ state.1.ids = [10, 30] ∧
      state.2 (.line 10) = some [68] ∧ state.2 (.line 20) = none ∧
      state.2 (.line 30) = some [1, 2, 3] ∧ state.2 (.record 5) = some [1, 2] := by
  intro requests state
  obtain ⟨hshows, hpages⟩ := blank_acts_as_maps 64 32 (by decide) requests (by decide)
  exact ⟨by decide, by decide, hshows, hpages, by decide +kernel, by decide +kernel,
    by decide +kernel, by decide +kernel, by decide +kernel⟩

end Store

end FlashBasic
