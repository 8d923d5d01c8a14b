import FlashBasic.Proofs.Store.PowerLoss

/-!
Mounting whatever flash holds. The image may be damaged, may hold any number of copies of a line and
need not come from a store at all. What is made of it is in order (`Store.mount_image`): one copy of
each line that the pages show is indexed and its other copies are deleted, the figures of every page
add up to its size, and mounting the result once more changes nothing.
-/

namespace FlashBasic

set_option autoImplicit false

open Item (Stored)
open Page (Layout)

/-! ## Lines -/

/-- What becomes of an item when the items at the `dropped` addresses are deleted. -/
theorem mem_buryIfAny {es : List (Nat × Stored)} {dropped : List Nat} {a : Nat} {i : Stored}
    (hi : (a, i) ∈ es) :
    (a ∈ dropped → (a, i.bury) ∈ es.map (buryIfAny dropped)) ∧
      (a ∉ dropped → (a, i) ∈ es.map (buryIfAny dropped)) := by
  constructor
  · intro ha
    exact List.mem_map.mpr ⟨(a, i), hi, by rw [buryIfAny, if_pos ha]⟩
  · intro ha
    exact List.mem_map.mpr ⟨(a, i), hi, by rw [buryIfAny, if_neg ha]⟩

namespace Recovers

variable {s : Store} {vol : List Layout} {dropped : List Nat}

theorem mem_ids (h : Recovers s vol dropped) (hreads : Reads s.flash s.pageSize vol) {n : UInt16} :
    n ∈ s.recover.ids ↔ ∃ a ∈ s.flash.liveLines s.pageSize, s.flash.itemId a = n := by
  rw [h.coherent.mem_ids, hreads.liveLines_eq]
  simp only [@mem_contents s.pageSize, h.entries]
  constructor
  · rintro ⟨i, ⟨a, ha⟩, hn⟩
    obtain ⟨-, hi, -⟩ := mem_map_buryIfAny.mp ⟨ha, hn⟩
    refine ⟨a, mem_lineAddresses.mpr ⟨i, n, hi, hn⟩, ?_⟩
    rw [hreads.itemId_entry hi, Stored.id_of_number? hn]
  · rintro ⟨a, ha, rfl⟩
    obtain ⟨i, n, hi, hn⟩ := mem_lineAddresses.mp ha
    obtain ⟨b, j, hb, hj, hm⟩ := h.repeated.kept a i n hi hn
    rw [hreads.itemId_entry hi, Stored.id_of_number? hn]
    exact ⟨j, ⟨b, (mem_buryIfAny hj).2 hb⟩, hm⟩

/-- Every line of flash is indexed and left alone, or it is deleted. -/
theorem copies (h : Recovers s vol dropped) (hreads : Reads s.flash s.pageSize vol) {a : Nat}
    (ha : a ∈ s.flash.liveLines s.pageSize) :
    (a ∈ s.recover.index ∧ s.recover.flash.header a = s.flash.header a ∧
        s.recover.flash.payload a = s.flash.payload a) ∨
      (a ∉ s.recover.index ∧ s.recover.flash.header a = (s.flash.header a).tombstone) := by
  rw [hreads.liveLines_eq] at ha
  obtain ⟨i, n, hi, hn⟩ := mem_lineAddresses.mp ha
  have hfound : Reads s.recover.flash s.pageSize (recovered s.pageSize vol dropped) :=
    h.coherent.reads
  by_cases hdropped : a ∈ dropped
  · right
    have hburied := (mem_buryIfAny hi).1 hdropped
    rw [← h.entries] at hburied
    constructor
    · intro hmem
      obtain ⟨j, m, hj, hm⟩ := (h.coherent.indexes.mem a).mp hmem
      rw [hfound.entry_unique hj hburied, Stored.number?_bury] at hm
      cases hm
    · rw [hfound.header_entry hburied, hreads.header_entry hi, Stored.header_bury]
  · left
    have hkept := (mem_buryIfAny hi).2 hdropped
    rw [← h.entries] at hkept
    refine ⟨(h.coherent.indexes.mem a).mpr ⟨i, n, hkept, hn⟩, ?_, ?_⟩
    · rw [hfound.header_entry hkept, hreads.header_entry hi]
    · rw [hfound.payload_entry hkept, hreads.payload_entry hi]

end Recovers

namespace Store

/-! ## Mounting -/

/-- A store mounted from any image, the ages that are given staying below that of an erased page. Its
lines are those that the pages of the image show, in strict order; of several copies of a line one is
indexed and untouched and the others are deleted; the figures of a page add up; and what is mounted
is found again as it is. -/
theorem mount_image (image : Flash) (pageSize : Nat) (hsize : Page.ageLength ≤ pageSize)
    (hages : (newestAge ((List.range (image.size / pageSize)).map (image.age pageSize))).toNat +
      ((List.range (image.size / pageSize)).map (image.age pageSize)).count Page.erasedAge <
        2 ^ 32 - 1) :
    let t := mount image pageSize
    t.ids.Pairwise (· < ·) ∧
      (∀ n, n ∈ t.ids ↔ ∃ a ∈ image.liveLines pageSize, image.itemId a = n) ∧
      (t.flash.liveLines pageSize).Perm t.index ∧
      (∀ a ∈ image.liveLines pageSize,
        (a ∈ t.index ∧ t.flash.header a = image.header a ∧
            t.flash.payload a = image.payload a) ∨
          (a ∉ t.index ∧ t.flash.header a = (image.header a).tombstone)) ∧
      (∀ p < image.size / pageSize, ∃ info, t.pages[p]? = some info ∧
        Page.ageLength + (Page.scan (t.flash.page pageSize p)).liveBytes + info.waste + info.free =
          pageSize) ∧
      t.recover = t := by
  intro t
  obtain ⟨vol, hreads⟩ := exists_volume image pageSize hsize
  obtain ⟨dropped, hrecovers⟩ := Reads.exists_recover
    (s := { flash := image, pageSize, pages := [], index := [], lastAge := 0 }) hreads
  have hcoherent : t.Coherent (recovered pageSize vol dropped) := hrecovers.coherent
  rw [hreads.map_age, count_erasedAge] at hages
  obtain ⟨hstamped, hnewest⟩ := ages_recover hrecovers hages
  refine ⟨hcoherent.ids_sorted, fun n => hrecovers.mem_ids hreads, hcoherent.liveLines_perm,
    fun a ha => hrecovers.copies hreads ha, ?_, ?_⟩
  · intro p hp
    refine hcoherent.page_total ?_
    show p < t.flash.size / pageSize
    have hflash : t.flash.size = image.size := Flash.size_applyAll _ _
    rwa [hflash]
  · refine hcoherent.mount_eq (fun L hL => ?_) hnewest
    have := hstamped _ (List.mem_map.mpr ⟨L, hL, rfl⟩)
    simpa [isErased] using this

/-- Two copies of line 10, one of them on a damaged page without an age, and a page with a deleted
item. -/
theorem mount_image_damaged :
    let image : Flash := ⟨#[1, 0, 0, 0, 10, 0, 8, 3, 65, 255, 255, 255, 255, 255, 255, 255,
      255, 255, 255, 255, 10, 0, 8, 3, 66, 255, 255, 255, 5, 0, 7, 0,
      7, 0, 0, 0, 0, 0, 4, 0, 20, 0, 8, 3, 67, 0, 0, 0, 9]⟩
    let ages := (List.range (image.size / 16)).map (image.age 16)
    let t := mount image 16
    Page.ageLength ≤ 16 ∧ (newestAge ages).toNat + ages.count Page.erasedAge < 2 ^ 32 - 1 ∧
      image.liveLines 16 = [4, 20, 40] ∧ t.index = [20, 40] ∧
      t.pages = [⟨4, 8⟩, ⟨0, 4⟩, ⟨0, 4⟩] ∧
      t.ids.Pairwise (· < ·) ∧
      (∀ n, n ∈ t.ids ↔ ∃ a ∈ image.liveLines 16, image.itemId a = n) ∧
      (t.flash.liveLines 16).Perm t.index ∧
      (∀ a ∈ image.liveLines 16,
        (a ∈ t.index ∧ t.flash.header a = image.header a ∧
            t.flash.payload a = image.payload a) ∨
          (a ∉ t.index ∧ t.flash.header a = (image.header a).tombstone)) ∧
      (∀ p < image.size / 16, ∃ info, t.pages[p]? = some info ∧
        Page.ageLength + (Page.scan (t.flash.page 16 p)).liveBytes + info.waste + info.free =
          16) ∧
      t.recover = t := by
  intro image ages t
  have hages : (newestAge ages).toNat + ages.count Page.erasedAge < 2 ^ 32 - 1 := by
    decide +kernel
  refine ⟨by decide, hages, by decide +kernel, by decide +kernel, by decide +kernel, ?_⟩
  exact mount_image image 16 (by decide) hages

end Store

end FlashBasic
