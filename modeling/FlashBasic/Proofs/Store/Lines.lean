import FlashBasic.Proofs.Store.Reopening

/-!
The lines of a store, in the order of their numbers. Sound stores with the same lines on flash have
the same index positions for them, so nothing that happens to records moves a line:

* `Store.IsSound.putRecord?`, `Store.IsSound.deleteRecord?` and `Store.IsSound.compact?`.
-/

namespace FlashBasic

set_option autoImplicit false

open Page (Layout)

namespace Store

/-- Numbers and texts of all lines. -/
def lines (s : Store) : List (UInt16 × List UInt8) :=
  s.index.map fun addr => (s.flash.itemId addr, s.flash.payload addr)

@[simp] theorem length_lines (s : Store) : s.lines.length = s.size := List.length_map _

theorem line?_eq (s : Store) (pos : Nat) : s.line? pos = s.lines[pos]? := by
  rw [line?, lines, List.getElem?_map]

theorem exists_line {s : Store} {pos : Nat} (h : pos < s.size) : ∃ line, s.line? pos = some line := by
  rw [line?_eq]
  exact ⟨_, List.getElem?_eq_getElem (by rwa [length_lines])⟩

variable {s s' : Store} {vol vol' : List Layout}

namespace Coherent

theorem lines_sorted (h : s.Coherent vol) : s.lines.Pairwise fun x y => x.1 < y.1 := by
  rw [lines, List.pairwise_map]
  exact h.sorted

theorem lines_nodup (h : s.Coherent vol) : s.lines.Nodup := by
  refine h.lines_sorted.imp ?_
  rintro x y hlt rfl
  exact UInt16.lt_irrefl _ hlt

theorem mem_lines (h : s.Coherent vol) {n : UInt16} {text : List UInt8} :
    (n, text) ∈ s.lines ↔ (.line n, text) ∈ bindings vol := by
  rw [← h.lineText?_eq_some_iff, lineText?, List.mem_iff_getElem?]
  simp only [← line?_eq, Option.bind_eq_some_iff, Option.map_eq_some_iff]
  constructor
  · rintro ⟨pos, hpos⟩
    refine ⟨pos, h.find?_eq_some_iff.mpr ?_, _, hpos, rfl⟩
    obtain ⟨a, ha, hline⟩ := Option.map_eq_some_iff.mp hpos
    rw [ids, List.getElem?_map, ha, Option.map_some, (Prod.mk.inj hline).1]
  · rintro ⟨pos, hfind, ⟨m, t⟩, hline, rfl⟩
    obtain ⟨a, ha, heq⟩ := Option.map_eq_some_iff.mp hline
    have hid := h.find?_eq_some_iff.mp hfind
    rw [ids, List.getElem?_map, ha, Option.map_some, (Prod.mk.inj heq).1] at hid
    exact ⟨pos, Option.some.inj hid ▸ hline⟩

/-- A volume has its lines in one order only. -/
theorem lines_eq (h : s.Coherent vol) (h' : s'.Coherent vol')
    (hbindings : ∀ n text, (.line n, text) ∈ bindings vol' ↔ (.line n, text) ∈ bindings vol) :
    s'.lines = s.lines := by
  have hperm : s'.lines.Perm s.lines := by
    rw [List.perm_ext_iff_of_nodup h'.lines_nodup h.lines_nodup]
    rintro ⟨n, text⟩
    rw [h'.mem_lines, h.mem_lines, hbindings]
  refine hperm.eq_of_pairwise ?_ h'.lines_sorted h.lines_sorted
  intro x y _ _ hxy hyx
  exact absurd hxy (UInt16.lt_asymm hyx)

end Coherent

theorem Holds.lines_congr {m m' : Contents} (hs : s.Holds m) (hs' : s'.Holds m')
    (h : ∀ n, m' (.line n) = m (.line n)) : s'.lines = s.lines := by
  obtain ⟨vol, hsound, hrep⟩ := hs
  obtain ⟨vol', hsound', hrep'⟩ := hs'
  exact hsound.lines_eq hsound'.toCoherent fun n text => by rw [hrep.mem, hrep'.mem, h]

theorem Holds.lines_eq {m : Contents} (hs : s.Holds m) (hs' : s'.Holds m) :
    s'.lines = s.lines :=
  hs.lines_congr hs' fun _ => rfl

/-- The store knows what its flash holds, and free flash is erased. -/
def IsSound (s : Store) : Prop := ∃ vol, s.Sound vol

namespace IsSound

theorem putRecord? (h : s.IsSound) {key : RecordKey} {data : List UInt8}
    (hput : s.putRecord? key data = some s') : s'.IsSound ∧ s'.lines = s.lines := by
  obtain ⟨vol, hsound⟩ := h
  obtain ⟨c, hc, rfl⟩ := Option.map_eq_some_iff.mp hput
  obtain ⟨vol', hedits, hbindings, -⟩ := hsound.putRecordChange? hc
  have hsound' := hedits.sound
  exact ⟨⟨vol', hsound'⟩, hsound.lines_eq hsound'.toCoherent fun n text => hbindings _ (by simp)⟩

theorem deleteRecord? (h : s.IsSound) {key : RecordKey}
    (hdelete : s.deleteRecord? key = some s') : s'.IsSound ∧ s'.lines = s.lines := by
  obtain ⟨vol, hsound⟩ := h
  obtain ⟨c, hc, rfl⟩ := Option.map_eq_some_iff.mp hdelete
  obtain ⟨vol', hedits, hbindings, -⟩ := hsound.deleteRecordChange? hc
  have hsound' := hedits.sound
  exact ⟨⟨vol', hsound'⟩, hsound.lines_eq hsound'.toCoherent fun n text => hbindings _ (by simp)⟩

theorem compact? (h : s.IsSound) {length scratch : Nat}
    (hcompact : s.compact? length scratch = some s') : s'.IsSound ∧ s'.lines = s.lines := by
  obtain ⟨vol, hsound⟩ := h
  obtain ⟨vol', hsound', hbindings, -⟩ := hsound.compact? hcompact
  exact ⟨⟨vol', hsound'⟩, hsound.lines_eq hsound'.toCoherent fun n text => by rw [hbindings]⟩

theorem of_recover (hreads : Reads s.flash s.pageSize vol) (hclean : ∀ L ∈ vol, L.IsClean) :
    s.recover.IsSound := by
  obtain ⟨dropped, hrecovers⟩ := hreads.exists_recover
  exact ⟨_, hrecovers.coherent, isClean_recovered hclean dropped⟩

theorem mount {image : Flash} {pageSize : Nat} (hsize : Page.ageLength ≤ pageSize)
    (hclean : CleanTailed image pageSize) : (mount image pageSize).IsSound := by
  obtain ⟨vol, hreads⟩ := exists_volume image pageSize hsize
  exact of_recover hreads (hclean.isClean hreads)

theorem perform (h : s.IsSound) {r : Request} (hr : r.Valid) : (s.perform r).IsSound := by
  obtain ⟨vol, hsound⟩ := h
  rw [perform_eq]
  cases hc : s.change? r with
  | none => exact ⟨vol, hsound⟩
  | some c =>
    simp only [Option.map_some, Option.getD_some]
    obtain ⟨vol', hedits⟩ | ⟨p, L, hL, rfl⟩ | rfl | rfl := hsound.change?_cases hr hc
    · exact ⟨vol', hedits.sound⟩
    · exact ⟨_, (hsound.compaction hL).1⟩
    · exact ⟨_, hsound.clear.1⟩
    · exact of_recover hsound.reads hsound.clean

end IsSound

end Store

end FlashBasic
