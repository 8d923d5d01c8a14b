import FlashBasic.Proofs.Store.FlashPage
import FlashBasic.Proofs.Store.Layout
import Mathlib.Data.List.Nodup
import Mathlib.Data.List.Pairwise
import Mathlib.Tactic.Common

/-!
Flash as a volume: a list of pages taken apart. `Reads f pageSize vol` says that the whole pages of
`f` are those of `vol`. Each of the few things that are done to flash turns a volume that flash
reads as into another:

* `Reads.bury` deletes an item,
* `Reads.append` adds one to the free space of a page,
* `Reads.stamp` gives an age to a page that has none,
* `Reads.erase` clears a page.

`Rewrite` is any of these, and `Rewrites` is any number of them one after the other.

`entries` lists the items of a volume with their addresses, which is how an index names them.
-/

namespace FlashBasic

set_option autoImplicit false

open Item (Stored)
open Page (Layout)

/-! ## Changing one page -/

namespace Page.Layout

/-- Replaces items by others of the same length. -/
def mapItems (g : Nat × Stored → Stored) (L : Layout) : Layout :=
  { L with items := L.places.map g }

/-- Deletes the item at an offset. -/
def buryAt (offset : Nat) (L : Layout) : Layout :=
  L.mapItems fun p => if p.1 = offset then p.2.bury else p.2

/-- Puts an item at the start of the free space. -/
def append (L : Layout) (i : Stored) : Layout :=
  { L with
    items := L.items ++ [i]
    tail := List.replicate (L.tail.length - i.length) Flash.erased
    ended := ended_replicate _ }

def stamp (L : Layout) (age : UInt32) : Layout :=
  { L with age := LittleEndian.ofUInt32 age, age_length := rfl }

/-- A page of `size` bytes without items and age. -/
def blank (size : Nat) : Layout where
  age := List.replicate ageLength Flash.erased
  items := []
  tail := List.replicate (size - ageLength) Flash.erased
  age_length := List.length_replicate
  ended := ended_replicate _

theorem places_buryAt (offset : Nat) (L : Layout) :
    (L.buryAt offset).places =
      L.places.map fun p => (p.1, if p.1 = offset then p.2.bury else p.2) := by
  refine places_map _ _ _ ?_
  intro p
  split
  · exact p.2.length_bury
  · rfl

theorem buryAt_items {L : Layout} {before after : List Stored} {i : Stored}
    (h : L.items = before ++ i :: after) :
    (L.buryAt (ageLength + span before)).items = before ++ i.bury :: after := by
  have hpos := i.length_pos
  -- Items before the one at the offset start below it, those after it above.
  have hbefore : ∀ p ∈ Page.places ageLength before, p.1 ≠ ageLength + span before := by
    rintro ⟨o, j⟩ hj
    have := (places_bounds hj).2
    have := j.length_pos
    show o ≠ _
    omega
  have hafter : ∀ p ∈ Page.places (ageLength + span before + i.length) after,
      p.1 ≠ ageLength + span before := by
    rintro ⟨o, j⟩ hj
    have := (places_bounds hj).1
    show o ≠ _
    omega
  have hkeep : ∀ (offset : Nat) (items : List Stored) (target : Nat),
      (∀ p ∈ Page.places offset items, p.1 ≠ target) →
      (Page.places offset items).map (fun p => if p.1 = target then p.2.bury else p.2) = items := by
    intro offset items target hne
    rw [List.map_congr_left (g := fun p => p.2) (fun p hp => if_neg (hne p hp)), map_snd_places]
  simp only [buryAt, mapItems, places, h, places_append, Page.places, List.map_append,
    List.map_cons, if_true]
  rw [hkeep _ _ _ hbefore, hkeep _ _ _ hafter]

theorem places_append_item (L : Layout) (i : Stored) :
    (L.append i).places = L.places ++ [(L.stop, i)] := by
  simp [places, append, places_append, Page.places, stop]

@[simp] theorem places_stamp (L : Layout) (age : UInt32) : (L.stamp age).places = L.places := rfl

@[simp] theorem info_stamp (L : Layout) (age : UInt32) : (L.stamp age).info = L.info := rfl

@[simp] theorem places_blank (size : Nat) : (blank size).places = [] := rfl

theorem info_buryAt {L : Layout} {before after : List Stored} {i : Stored}
    (h : L.items = before ++ i :: after) (hlive : i.isLive = true) :
    (L.buryAt (ageLength + span before)).info =
      { L.info with waste := L.info.waste + i.length } := by
  have hburied : (L.buryAt (ageLength + span before)).buried = L.buried + i.length := by
    rw [buried, buried, buryAt_items h, h]
    simp only [List.filter_append, List.filter_cons, Stored.isLive_bury, hlive, Bool.not_false,
      Bool.not_true, if_true, Bool.false_eq_true, if_false, span_append, span_cons,
      Stored.length_bury]
    omega
  have htail : (L.buryAt (ageLength + span before)).tail = L.tail := rfl
  rw [info, info, htail, hburied]
  split
  · simp only [Nat.add_assoc]
  · rfl

theorem info_append (L : Layout) (i : Stored) (hlive : i.isLive = true)
    (hclean : broken L.tail = false) :
    (L.append i).info = { L.info with free := L.info.free - i.length } := by
  have hburied : (L.append i).buried = L.buried := by
    simp [buried, append, hlive]
  have hbroken : broken (L.append i).tail = false := broken_replicate _
  have hlen : (L.append i).tail.length = L.tail.length - i.length := List.length_replicate
  rw [info, info, hburied, hbroken, hlen, hclean]
  rfl

theorem isClean_append (L : Layout) (i : Stored) : (L.append i).IsClean :=
  fun _ => by simp [append]

theorem isClean_buryAt {L : Layout} (offset : Nat) (h : L.IsClean) : (L.buryAt offset).IsClean := h

theorem isClean_stamp {L : Layout} (age : UInt32) (h : L.IsClean) : (L.stamp age).IsClean := h

theorem isClean_blank (size : Nat) : (blank size).IsClean := fun _ => by simp [blank]

/-! ## The same on bytes -/

theorem bytes_append (L : Layout) (i : Stored)
    (htail : L.tail = List.replicate L.tail.length Flash.erased) (hle : i.length ≤ L.tail.length) :
    L.bytes = (L.age ++ L.items.flatMap (·.bytes)) ++ List.replicate i.bytes.length Flash.erased ++
        List.replicate (L.tail.length - i.length) Flash.erased ∧
      (L.append i).bytes = (L.age ++ L.items.flatMap (·.bytes)) ++ i.bytes ++
        List.replicate (L.tail.length - i.length) Flash.erased := by
  constructor
  · have hsum : i.bytes.length + (L.tail.length - i.length) = L.tail.length := by
      have : i.length = i.bytes.length := rfl
      omega
    rw [List.append_assoc, List.replicate_append_replicate, hsum, ← htail, bytes, List.append_assoc]
  · simp [bytes, append]

theorem length_head (L : Layout) : (L.age ++ L.items.flatMap (·.bytes)).length = L.stop := by
  rw [List.length_append, length_flatMap_bytes, L.age_length, stop]

end Page.Layout

/-- Clearing the id of an item only clears bits. -/
theorem Item.Stored.and_tombstone (i : Stored) :
    List.zipWith (· &&& ·) (i.bytes.take headerLength) i.header.tombstone.encode =
      i.header.tombstone.encode := by
  have hle := i.header_le
  unfold headerLength at hle ⊢
  have hheader : i.header = .decode i.bytes := rfl
  rw [hheader]
  obtain ⟨a, b, c, d, rest, hbytes⟩ : ∃ a b c d rest, i.bytes = a :: b :: c :: d :: rest := by
    match i.bytes, hle with
    | a :: b :: c :: d :: rest, _ => exact ⟨a, b, c, d, rest, rfl⟩
  have henc : (Header.decode i.bytes).tombstone.encode = [0, 0, c, d] := by
    rw [hbytes]
    simp [Header.decode, Header.tombstone, Header.encode, LittleEndian.ofUInt16, tombstoneId]
  rw [henc, hbytes]
  simp

/-! ## Reading an item -/

namespace Flash

variable {f : Flash} {a : Nat} {i : Stored}

/-- Flash that holds the bytes of an item shows its header. -/
theorem header_of_slice (h : f.slice a i.length = i.bytes) : f.header a = i.header := by
  have hle := i.header_le
  have hslice := f.slice_slice a i.length 0 Item.headerLength (by rw [Stored.length]; omega)
  rw [Nat.add_zero, List.drop_zero, h] at hslice
  have hdecode := Item.Header.decode_append (i.bytes.take Item.headerLength)
    (i.bytes.drop Item.headerLength) (Nat.le_of_eq (List.length_take_of_le hle).symm)
  rw [List.take_append_drop] at hdecode
  rw [header, hslice, ← hdecode]
  rfl

theorem payload_of_slice (h : f.slice a i.length = i.bytes) : f.payload a = i.payload := by
  have hle := i.header_le
  have hlen := i.header_length
  rw [payload, header_of_slice h, f.slice_slice a i.length _ _ ?_, h]
  · rfl
  · rw [Item.Header.payloadLength, hlen]
    rw [Stored.length] at *
    omega

end Flash

/-! ## Volumes -/

/-- The whole pages of flash are those of the volume. -/
structure Reads (f : Flash) (pageSize : Nat) (vol : List Layout) : Prop where
  count : f.pageCount pageSize = vol.length
  page : ∀ p L, vol[p]? = some L → f.page pageSize p = L.bytes

/-- The items of the pages of a volume, counted from `p`, with their addresses. -/
def entriesFrom (pageSize : Nat) : (p : Nat) → List Layout → List (Nat × Stored)
  | _, [] => []
  | p, L :: vol =>
    L.places.map (fun e => (p * pageSize + e.1, e.2)) ++ entriesFrom pageSize (p + 1) vol

/-- The items of a volume with their addresses. -/
def entries (pageSize : Nat) (vol : List Layout) : List (Nat × Stored) := entriesFrom pageSize 0 vol

theorem exists_volume (f : Flash) (pageSize : Nat) (h : Page.ageLength ≤ pageSize) :
    ∃ vol, Reads f pageSize vol := by
  have hpage : ∀ p : Fin (f.pageCount pageSize), ∃ L : Layout, L.bytes = f.page pageSize p :=
    fun p => Page.exists_layout _ (by rw [f.length_page p.isLt]; exact h)
  choose layout hlayout using hpage
  refine ⟨List.ofFn layout, by simp, ?_⟩
  intro p L hL
  rw [List.getElem?_ofFn] at hL
  split at hL
  · rename_i hp
    cases hL
    exact (hlayout ⟨p, hp⟩).symm
  · cases hL

theorem entriesFrom_append (pageSize p : Nat) (vol vol' : List Layout) :
    entriesFrom pageSize p (vol ++ vol') =
      entriesFrom pageSize p vol ++ entriesFrom pageSize (p + vol.length) vol' := by
  induction vol generalizing p with
  | nil => rfl
  | cons L vol ih =>
    rw [List.cons_append, entriesFrom, ih, entriesFrom, List.append_assoc, List.length_cons,
      Nat.add_right_comm, Nat.add_assoc]

/-- Replacing one page of a volume replaces its part of the entries. -/
theorem entries_set {pageSize p : Nat} {vol : List Layout} {L : Layout} (h : vol[p]? = some L) :
    ∃ before after, entries pageSize vol =
        before ++ L.places.map (fun e => (p * pageSize + e.1, e.2)) ++ after ∧
      ∀ L', entries pageSize (vol.set p L') =
        before ++ L'.places.map (fun e => (p * pageSize + e.1, e.2)) ++ after := by
  obtain ⟨hp, hL⟩ := List.getElem?_eq_some_iff.mp h
  refine ⟨entriesFrom pageSize 0 (vol.take p), entriesFrom pageSize (p + 1) (vol.drop (p + 1)),
    ?_, ?_⟩
  · have hsplit : vol = vol.take p ++ L :: vol.drop (p + 1) := by
      rw [← hL, List.getElem_cons_drop, List.take_append_drop]
    conv_lhs => rw [hsplit]
    rw [entries, entriesFrom_append, List.length_take_of_le (Nat.le_of_lt hp), entriesFrom,
      List.append_assoc, Nat.zero_add]
  · intro L'
    rw [List.set_eq_take_append_cons_drop, if_pos hp, entries, entriesFrom_append,
      List.length_take_of_le (Nat.le_of_lt hp), entriesFrom, List.append_assoc, Nat.zero_add]

theorem entries_append (pageSize : Nat) {p : Nat} {vol : List Layout} {L : Layout}
    (hL : vol[p]? = some L) (i : Stored) :
    (entries pageSize (vol.set p (L.append i))).Perm
      ((p * pageSize + L.stop, i) :: entries pageSize vol) := by
  obtain ⟨before, after, hentries, hset⟩ := @entries_set pageSize _ _ _ hL
  rw [hset, hentries, Layout.places_append_item, List.map_append, List.map_singleton,
    ← List.append_assoc, List.append_assoc _ _ after]
  exact List.perm_middle

theorem mem_entriesFrom {pageSize p a : Nat} {vol : List Layout} {i : Stored} :
    (a, i) ∈ entriesFrom pageSize p vol ↔
      ∃ k L o, vol[k]? = some L ∧ (o, i) ∈ L.places ∧ a = (p + k) * pageSize + o := by
  induction vol generalizing p with
  | nil => simp [entriesFrom]
  | cons L vol ih =>
    rw [entriesFrom, List.mem_append, ih]
    constructor
    · rintro (h | ⟨k, L', o, hL', ho, ha⟩)
      · obtain ⟨⟨o, j⟩, hj, he⟩ := List.mem_map.mp h
        cases he
        exact ⟨0, L, o, rfl, hj, rfl⟩
      · exact ⟨k + 1, L', o, hL', ho, by rw [ha, Nat.add_right_comm, Nat.add_assoc]⟩
    · rintro ⟨k, L', o, hL', ho, ha⟩
      cases k with
      | zero =>
        cases hL'
        exact Or.inl (List.mem_map.mpr ⟨(o, i), ho, by rw [ha]; rfl⟩)
      | succ k => exact Or.inr ⟨k, L', o, hL', ho, by rw [ha, Nat.add_right_comm, Nat.add_assoc]⟩

theorem mem_entries {pageSize a : Nat} {vol : List Layout} {i : Stored} :
    (a, i) ∈ entries pageSize vol ↔
      ∃ p L o, vol[p]? = some L ∧ (o, i) ∈ L.places ∧ a = p * pageSize + o := by
  rw [entries, mem_entriesFrom]
  simp only [Nat.zero_add]

namespace Reads

variable {f : Flash} {pageSize : Nat} {vol : List Layout} (h : Reads f pageSize vol)
include h

theorem lt_pageCount {p : Nat} {L : Layout} (hL : vol[p]? = some L) : p < f.pageCount pageSize := by
  rw [h.count]
  exact (List.getElem?_eq_some_iff.mp hL).1

theorem length_bytes {p : Nat} {L : Layout} (hL : vol[p]? = some L) :
    L.bytes.length = pageSize := by
  rw [← h.page p L hL]
  exact f.length_page (h.lt_pageCount hL)

theorem stop_le {p : Nat} {L : Layout} (hL : vol[p]? = some L) :
    L.stop + L.tail.length = pageSize := by
  rw [← L.length_bytes, h.length_bytes hL]

/-- Flash holds the tail of a page where its items end. -/
theorem slice_tail {p : Nat} {L : Layout} (hL : vol[p]? = some L) {n : Nat}
    (hn : n ≤ L.tail.length) : f.slice (p * pageSize + L.stop) n = L.tail.take n := by
  have hstop := h.stop_le hL
  rw [f.slice_page pageSize p L.stop n (by omega), h.page p L hL, Layout.bytes,
    ← List.append_assoc, ← L.length_head, List.drop_left]

/-- Flash that differs in one page reads as the volume with that page replaced. -/
theorem replace {f' : Flash} {p : Nat} {L' : Layout} (hsize : f'.size = f.size)
    (hother : ∀ q, q ≠ p → f'.page pageSize q = f.page pageSize q)
    (hpage : f'.page pageSize p = L'.bytes) : Reads f' pageSize (vol.set p L') := by
  constructor
  · rw [Flash.pageCount, hsize, List.length_set]
    exact h.count
  · intro q L hL
    by_cases hq : q = p
    · subst hq
      rw [List.getElem?_set] at hL
      split at hL
      · split at hL
        · cases hL
          exact hpage
        · cases hL
      · rename_i hne
        exact absurd rfl hne
    · rw [List.getElem?_set_ne (Ne.symm hq)] at hL
      rw [hother q hq]
      exact h.page q L hL

/-! ## Reading entries -/

/-- Flash holds the bytes of an item at its address. -/
theorem slice_entry {a : Nat} {i : Stored} (hi : (a, i) ∈ entries pageSize vol) :
    f.slice a i.length = i.bytes := by
  obtain ⟨p, L, o, hL, ho, rfl⟩ := mem_entries.mp hi
  obtain ⟨rest, hdrop⟩ := L.drop_place ho
  have hstop := h.stop_le hL
  have hbound := (Page.places_bounds ho).2
  rw [Layout.stop] at hstop
  rw [f.slice_page pageSize p o i.length (by omega), h.page p L hL, hdrop, Stored.length,
    List.take_left]

theorem header_entry {a : Nat} {i : Stored} (hi : (a, i) ∈ entries pageSize vol) :
    f.header a = i.header :=
  Flash.header_of_slice (h.slice_entry hi)

theorem itemId_entry {a : Nat} {i : Stored} (hi : (a, i) ∈ entries pageSize vol) :
    f.itemId a = i.header.id := by
  rw [Flash.itemId, h.header_entry hi]

theorem payload_entry {a : Nat} {i : Stored} (hi : (a, i) ∈ entries pageSize vol) :
    f.payload a = i.payload :=
  Flash.payload_of_slice (h.slice_entry hi)

/-- Entries follow one another without overlap. -/
theorem entries_apart :
    (entries pageSize vol).Pairwise fun e e' => e.1 + e.2.length ≤ e'.1 := by
  have hstop : ∀ (p : Nat) (L : Layout), vol[p]? = some L → L.stop ≤ pageSize :=
    fun p L hL => by have := h.stop_le hL; omega
  clear h
  rw [entries]
  generalize 0 = p
  induction vol generalizing p with
  | nil => exact List.Pairwise.nil
  | cons L vol ih =>
    rw [entriesFrom, List.pairwise_append]
    refine ⟨?_, ih (fun q L' hL' => hstop (q + 1) L' hL') (p + 1), ?_⟩
    · rw [List.pairwise_map]
      refine (Page.places_apart _ _).imp ?_
      intro e e' hle
      rw [Nat.add_assoc]
      exact Nat.add_le_add_left hle _
    · intro e he e' he'
      obtain ⟨⟨o, j⟩, hj, rfl⟩ := List.mem_map.mp he
      obtain ⟨k, L', o', -, -, ha'⟩ := mem_entriesFrom.mp (show (e'.1, e'.2) ∈ _ from he')
      have hbound := (Page.places_bounds hj).2
      have hL := hstop 0 L rfl
      rw [Layout.stop] at hL
      have hpage : (p + 1) * pageSize ≤ (p + 1 + k) * pageSize :=
        Nat.mul_le_mul_right _ (Nat.le_add_right _ _)
      rw [Nat.succ_mul] at hpage
      show p * pageSize + o + j.length ≤ e'.1
      omega

/-- Addresses grow from entry to entry. -/
theorem entries_pairwise : (entries pageSize vol).Pairwise fun e e' => e.1 < e'.1 := by
  refine h.entries_apart.imp ?_
  intro e e' hle
  have := e.2.length_pos
  omega

/-- Different items do not overlap. -/
theorem entry_apart {a b : Nat} {i j : Stored} (hi : (a, i) ∈ entries pageSize vol)
    (hj : (b, j) ∈ entries pageSize vol) (hne : a ≠ b) : a + i.length ≤ b ∨ b + j.length ≤ a := by
  have hapart : (entries pageSize vol).Pairwise fun e e' =>
      e.1 + e.2.length ≤ e'.1 ∨ e'.1 + e'.2.length ≤ e.1 :=
    h.entries_apart.imp Or.inl
  have : Std.Symm fun e e' : Nat × Stored =>
      e.1 + e.2.length ≤ e'.1 ∨ e'.1 + e'.2.length ≤ e.1 := ⟨fun _ _ => Or.symm⟩
  exact hapart.forall hi hj fun hc => hne (congrArg Prod.fst hc)

/-- The tail of a page holds no item. -/
theorem tail_apart {p b : Nat} {L : Layout} {j : Stored} (hL : vol[p]? = some L)
    (hj : (b, j) ∈ entries pageSize vol) :
    b + j.length ≤ p * pageSize + L.stop ∨ p * pageSize + pageSize ≤ b := by
  obtain ⟨q, L', o, hL', ho, rfl⟩ := mem_entries.mp hj
  have hbound := (Page.places_bounds ho).2
  have hstop := h.stop_le hL'
  rw [Layout.stop] at hstop
  by_cases hq : q = p
  · subst hq
    rw [hL] at hL'
    cases hL'
    left
    rw [Layout.stop]
    omega
  · have := Flash.page_disjoint pageSize hq
    omega

/-- An address belongs to one item. -/
theorem entry_unique {a : Nat} {i j : Stored} (hi : (a, i) ∈ entries pageSize vol)
    (hj : (a, j) ∈ entries pageSize vol) : i = j := by
  have hnodup : ((entries pageSize vol).map (·.1)).Nodup := by
    rw [List.Nodup, List.pairwise_map]
    exact h.entries_pairwise.imp Nat.ne_of_lt
  exact congrArg Prod.snd (List.inj_on_of_nodup_map hnodup hi hj rfl)

/-! ## Changing flash -/

/-- Deleting an item. -/
theorem bury {p o : Nat} {L : Layout} {i : Stored} (hL : vol[p]? = some L)
    (ho : (o, i) ∈ L.places) :
    Reads (f.write (p * pageSize + o) i.header.tombstone.encode) pageSize
      (vol.set p (L.buryAt o)) := by
  obtain ⟨before, after, hitems, rfl⟩ := Page.places_split ho
  have hle := i.header_le
  have hstop := h.stop_le hL
  have hbound := (Page.places_bounds ho).2
  have hlen := i.four_le_length
  rw [Layout.stop] at hstop
  refine h.replace (Flash.size_apply f (.write _ _)) ?_ ?_
  · intro q hq
    refine f.page_write_other pageSize q p _ _ hq ?_
    rw [Item.Header.length_encode, Item.headerLength]
    omega
  · have hhead : (L.age ++ before.flatMap (·.bytes)).length =
        Page.ageLength + Page.span before := by
      rw [List.length_append, Page.length_flatMap_bytes, L.age_length]
    have hcut : f.page pageSize p = (L.age ++ before.flatMap (·.bytes)) ++
        i.bytes.take Item.headerLength ++
        (i.bytes.drop Item.headerLength ++ (after.flatMap (·.bytes) ++ L.tail)) := by
      rw [h.page p L hL, List.append_assoc _ (i.bytes.take _), ← List.append_assoc (i.bytes.take _),
        List.take_append_drop]
      simp [Layout.bytes, hitems]
    have hwrite := f.page_write pageSize p _ _ _ i.header.tombstone.encode hcut
      (by rw [List.length_take_of_le hle, Item.Header.length_encode])
    rw [← hhead, hwrite, i.and_tombstone, hhead, Layout.bytes, Layout.buryAt_items hitems]
    simp [Layout.buryAt, Layout.mapItems, Stored.bury]

/-- Writing an item on the free space of a page. -/
theorem append {p : Nat} {L : Layout} {i : Stored} (hL : vol[p]? = some L)
    (htail : L.tail = List.replicate L.tail.length Flash.erased) (hle : i.length ≤ L.tail.length) :
    Reads (f.write (p * pageSize + L.stop) i.bytes) pageSize (vol.set p (L.append i)) := by
  obtain ⟨hold, hnew⟩ := L.bytes_append i htail hle
  have hstop := h.stop_le hL
  refine h.replace (Flash.size_apply f (.write _ _)) ?_ ?_
  · intro q hq
    refine f.page_write_other pageSize q p _ _ hq ?_
    have : i.length = i.bytes.length := rfl
    omega
  · have hwrite := f.page_write pageSize p _ _ _ i.bytes ((h.page p L hL).trans hold)
      List.length_replicate
    rw [L.length_head] at hwrite
    rw [hwrite, Flash.zipWith_and_erased, hnew]

/-- Giving an age to a page that has none. -/
theorem stamp {p : Nat} {L : Layout} (hL : vol[p]? = some L)
    (hage : L.age = List.replicate Page.ageLength Flash.erased) (age : UInt32) :
    Reads (f.apply (Flash.stamp pageSize p age)) pageSize (vol.set p (L.stamp age)) := by
  have hstop := h.stop_le hL
  rw [Layout.stop, Page.ageLength] at hstop
  refine h.replace (Flash.size_apply f _) ?_ ?_
  · intro q hq
    refine f.page_write_other pageSize q p 0 _ hq ?_
    rw [LittleEndian.length_ofUInt32]
    omega
  · have hcut : f.page pageSize p = [] ++
        List.replicate (LittleEndian.ofUInt32 age).length Flash.erased ++
        (L.items.flatMap (·.bytes) ++ L.tail) := by
      rw [h.page p L hL, Layout.bytes, hage]
      rfl
    have hwrite := f.page_write pageSize p _ _ _ (LittleEndian.ofUInt32 age) hcut
      List.length_replicate
    rw [Flash.zipWith_and_erased] at hwrite
    exact hwrite

/-- Erasing a page. -/
theorem erase {p : Nat} {L : Layout} (hL : vol[p]? = some L) :
    Reads (f.apply (.erase p pageSize)) pageSize (vol.set p (Layout.blank pageSize)) := by
  have hstop := h.stop_le hL
  rw [Layout.stop] at hstop
  refine h.replace (Flash.size_apply f _) ?_ ?_
  · intro q hq
    exact f.page_erase_other pageSize q p hq
  · have herase := f.page_erase pageSize p (h.lt_pageCount hL)
    refine herase.trans ?_
    simp only [Layout.bytes, Layout.blank, List.flatMap_nil, List.nil_append,
      List.replicate_append_replicate]
    congr 1
    omega

end Reads

/-! ## Items by address -/

theorem modify_eq_set {α : Type} {xs : List α} {p : Nat} {x : α} (h : xs[p]? = some x) (g : α → α) :
    xs.modify p g = xs.set p (g x) := by
  obtain ⟨hp, rfl⟩ := List.getElem?_eq_some_iff.mp h
  rw [List.modify_eq_set_getElem?, h]
  rfl

/-- The volume once the item at an address is deleted. -/
def buryEntry (pageSize : Nat) (vol : List Layout) (a : Nat) : List Layout :=
  vol.modify (a / pageSize) (·.buryAt (a % pageSize))

/-- An entry once the item at address `a` is deleted. -/
def buryIf (a : Nat) (e : Nat × Stored) : Nat × Stored := (e.1, if e.1 = a then e.2.bury else e.2)

theorem map_age_buryEntry (pageSize : Nat) (vol : List Layout) (a : Nat) :
    (buryEntry pageSize vol a).map (·.age) = vol.map (·.age) := by
  apply List.ext_getElem?
  intro p
  rw [buryEntry, List.getElem?_map, List.getElem?_map, List.getElem?_modify]
  cases vol[p]? with
  | none => rfl
  | some L =>
    simp only [Option.map_eq_map, Option.map_some]
    split <;> rfl

theorem isClean_buryEntry {pageSize a : Nat} {vol : List Layout} (h : ∀ L ∈ vol, L.IsClean) :
    ∀ L ∈ buryEntry pageSize vol a, L.IsClean := by
  intro L hL
  obtain ⟨p, hp⟩ := List.mem_iff_getElem?.mp hL
  rw [buryEntry, List.getElem?_modify] at hp
  obtain ⟨L', hL', rfl⟩ := Option.map_eq_some_iff.mp hp
  have hclean := h L' (List.mem_of_getElem? hL')
  split
  · exact Layout.isClean_buryAt _ hclean
  · exact hclean

namespace Reads

variable {f : Flash} {pageSize : Nat} {vol : List Layout} (h : Reads f pageSize vol)
include h

/-- The page and the offset of an entry. -/
theorem exists_place {a : Nat} {i : Stored} (hi : (a, i) ∈ entries pageSize vol) :
    ∃ L, vol[a / pageSize]? = some L ∧ (a % pageSize, i) ∈ L.places := by
  obtain ⟨p, L, o, hL, ho, rfl⟩ := mem_entries.mp hi
  have hstop := h.stop_le hL
  have hbound := (Page.places_bounds ho).2
  have hpos := i.length_pos
  rw [Layout.stop] at hstop
  obtain ⟨hdiv, hmod⟩ := Flash.address_div_mod p (show o < pageSize by omega)
  rw [hdiv, hmod]
  exact ⟨L, hL, ho⟩

theorem bury_address {a : Nat} {i : Stored} (hi : (a, i) ∈ entries pageSize vol) :
    Reads (f.apply (f.bury a)) pageSize (buryEntry pageSize vol a) := by
  obtain ⟨L, hL, ho⟩ := h.exists_place hi
  have hbury := h.bury hL ho
  rw [Nat.mul_comm, Nat.div_add_mod] at hbury
  rw [Flash.bury, h.header_entry hi, buryEntry, modify_eq_set hL]
  exact hbury

theorem entries_buryEntry {a : Nat} {i : Stored} (hi : (a, i) ∈ entries pageSize vol) :
    entries pageSize (buryEntry pageSize vol a) =
      (entries pageSize vol).map (buryIf a) := by
  obtain ⟨L, hL, ho⟩ := h.exists_place hi
  obtain ⟨before, after, hentries, hset⟩ := @entries_set pageSize _ _ _ hL
  have hsorted := h.entries_pairwise
  rw [hentries, List.append_assoc, List.pairwise_append] at hsorted
  obtain ⟨-, hrest, hbefore⟩ := hsorted
  obtain ⟨-, -, hafter⟩ := List.pairwise_append.mp hrest
  have hsum : a / pageSize * pageSize + a % pageSize = a := by
    rw [Nat.mul_comm, Nat.div_add_mod]
  have hmid : (a, i) ∈ L.places.map fun e => (a / pageSize * pageSize + e.1, e.2) :=
    List.mem_map.mpr ⟨_, ho, by rw [hsum]⟩
  have hkeep : ∀ es : List (Nat × Stored), (∀ e ∈ es, e.1 ≠ a) → es.map (buryIf a) = es := by
    intro es hne
    rw [List.map_congr_left (g := id), List.map_id]
    intro e he
    rw [buryIf, if_neg (hne e he)]
    rfl
  rw [buryEntry, modify_eq_set hL, hset, hentries, List.map_append, List.map_append,
    hkeep before fun e he => Nat.ne_of_lt (hbefore e he _ (List.mem_append_left _ hmid)),
    hkeep after fun e he => Nat.ne_of_gt (hafter _ hmid e he), Layout.places_buryAt, List.map_map,
    List.map_map]
  congr 2
  refine List.map_congr_left ?_
  intro e he
  simp only [Function.comp_apply, buryIf, Prod.mk.injEq, true_and]
  congr 1
  rw [eq_iff_iff]
  omega

theorem info_buryEntry {a : Nat} {i : Stored} (hi : (a, i) ∈ entries pageSize vol)
    (hlive : i.isLive = true) :
    (buryEntry pageSize vol a).map (·.info) =
      Store.addWaste f pageSize (vol.map (·.info)) a := by
  obtain ⟨L, hL, ho⟩ := h.exists_place hi
  obtain ⟨before, after, hitems, hoffset⟩ := Page.places_split ho
  have hinfo : (vol.map (·.info))[a / pageSize]? = some L.info := by
    rw [List.getElem?_map, hL]
    rfl
  rw [buryEntry, modify_eq_set hL, List.map_set, Store.addWaste, modify_eq_set hinfo,
    h.header_entry hi, i.header_length, hoffset, Layout.info_buryAt hitems hlive]

end Reads

/-! ## Operations one after the other -/

/-- What one operation makes of a volume. -/
inductive Rewrite (pageSize : Nat) (vol : List Layout) : Flash.Op → List Layout → Prop where
  | erase {p : Nat} {L : Layout} (hL : vol[p]? = some L) :
      Rewrite pageSize vol (.erase p pageSize) (vol.set p (Layout.blank pageSize))
  | stamp {p : Nat} {L : Layout} (hL : vol[p]? = some L)
      (hage : L.age = List.replicate Page.ageLength Flash.erased) (age : UInt32) :
      Rewrite pageSize vol (Flash.stamp pageSize p age) (vol.set p (L.stamp age))
  | append {p : Nat} {L : Layout} {i : Stored} (hL : vol[p]? = some L)
      (htail : L.tail = List.replicate L.tail.length Flash.erased)
      (hle : i.length ≤ L.tail.length) :
      Rewrite pageSize vol (.write (p * pageSize + L.stop) i.bytes) (vol.set p (L.append i))
  | bury {a : Nat} {i : Stored} (hi : (a, i) ∈ entries pageSize vol) (hlive : i.isLive = true) :
      Rewrite pageSize vol (.write a i.header.tombstone.encode) (buryEntry pageSize vol a)

/-- What operations make of a volume, each of what the ones before it left. -/
inductive Rewrites (pageSize : Nat) : List Layout → List Flash.Op → List Layout → Prop where
  | nil (vol : List Layout) : Rewrites pageSize vol [] vol
  | cons {vol vol₁ vol₂ : List Layout} {op : Flash.Op} {ops : List Flash.Op}
      (hop : Rewrite pageSize vol op vol₁) (hops : Rewrites pageSize vol₁ ops vol₂) :
      Rewrites pageSize vol (op :: ops) vol₂

theorem Rewrite.reads {pageSize : Nat} {vol vol₁ : List Layout} {op : Flash.Op}
    (h : Rewrite pageSize vol op vol₁) {f : Flash} (hreads : Reads f pageSize vol) :
    Reads (f.apply op) pageSize vol₁ := by
  cases h with
  | erase hL => exact hreads.erase hL
  | stamp hL hage age => exact hreads.stamp hL hage age
  | append hL htail hle => exact hreads.append hL htail hle
  | bury hi hlive =>
    have hbury := hreads.bury_address hi
    rwa [Flash.bury, hreads.header_entry hi] at hbury

/-- Deleting an item, as worked out on a flash where it looks the same. -/
theorem Rewrite.bury_of_header {pageSize a : Nat} {vol : List Layout} {i : Stored} {g : Flash}
    (hi : (a, i) ∈ entries pageSize vol) (hlive : i.isLive = true) (hhead : g.header a = i.header) :
    Rewrite pageSize vol (g.bury a) (buryEntry pageSize vol a) := by
  rw [Flash.bury, hhead]
  exact .bury hi hlive

namespace Rewrites

variable {pageSize : Nat} {vol vol₁ vol₂ : List Layout} {ops ops' : List Flash.Op}

theorem single {op : Flash.Op} (h : Rewrite pageSize vol op vol₁) :
    Rewrites pageSize vol [op] vol₁ :=
  .cons h (.nil vol₁)

theorem trans (h : Rewrites pageSize vol ops vol₁) (h' : Rewrites pageSize vol₁ ops' vol₂) :
    Rewrites pageSize vol (ops ++ ops') vol₂ := by
  induction h with
  | nil vol => exact h'
  | cons hop _ ih => exact .cons hop (ih h')

theorem reads (h : Rewrites pageSize vol ops vol₁) {f : Flash} (hreads : Reads f pageSize vol) :
    Reads (f.applyAll ops) pageSize vol₁ := by
  induction h generalizing f with
  | nil vol => exact hreads
  | cons hop _ ih => exact ih (hop.reads hreads)

/-- A page that is erased and gets an age. -/
theorem renew {p : Nat} {L : Layout} (hL : vol[p]? = some L) (age : UInt32) :
    Rewrites pageSize vol [.erase p pageSize, Flash.stamp pageSize p age]
      (vol.set p ((Layout.blank pageSize).stamp age)) := by
  have hp : p < vol.length := (List.getElem?_eq_some_iff.mp hL).1
  have hget : (vol.set p (Layout.blank pageSize))[p]? = some (Layout.blank pageSize) := by
    simp [hp]
  have hstamp : Rewrite pageSize _ _ _ := .stamp hget rfl age
  rw [List.set_set] at hstamp
  exact .cons (.erase hL) (single hstamp)

end Rewrites

end FlashBasic
