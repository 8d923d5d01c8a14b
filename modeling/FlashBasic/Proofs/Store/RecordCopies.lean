import FlashBasic.Proofs.Store.PowerLoss

/-!
Losing power while a record is replaced. The new copy of the record is on flash and the old one is
not deleted yet, and recovery, which drops extra copies of lines, leaves both.

`recordCopies` lists the copies of a record in the order of their addresses. A lookup finds the first
of them, a deletion deletes the first, and a replacement deletes the first and adds one where there is
room for it. So after such a loss of power one deletion is not enough, and what was put may be hidden
by the copy that is left (`Store.mount_cut_replacement`).
-/

namespace FlashBasic

set_option autoImplicit false

open Item (Stored)
open Page (Layout)

/-! ## The copies of a record -/

/-- The address and the data of an entry that is a record of the key. -/
def copy? (key : RecordKey) (e : Nat × Stored) : Option (Nat × List UInt8) :=
  if e.2.kind = .record ∧ (LittleEndian.ofUInt32 key).isPrefixOf e.2.payload then
    some (e.1, e.2.payload.drop 4)
  else none

/-- The records of a key among some entries. -/
def recordCopies (key : RecordKey) (es : List (Nat × Stored)) : List (Nat × List UInt8) :=
  es.filterMap (copy? key)

theorem copy?_of_isRecord {key : RecordKey} {data : List UInt8} {a : Nat} {i : Stored}
    (h : i.IsRecord key data) : copy? key (a, i) = some (a, data) := by
  rw [copy?, if_pos h.isPrefixOf, h.2]
  rfl

theorem copy?_of_isRecord_ne {key key' : RecordKey} {data : List UInt8} {a : Nat} {i : Stored}
    (h : i.IsRecord key data) (hne : key' ≠ key) : copy? key' (a, i) = none := by
  rw [copy?, if_neg]
  intro hrec
  have hboth := Stored.binding?_eq_record_iff.mpr (Stored.isRecord_of_isPrefixOf hrec)
  rw [Stored.binding?_eq_record_iff.mpr h] at hboth
  cases hboth
  exact hne rfl

theorem copy?_eq_some {key : RecordKey} {e : Nat × Stored} {x : Nat × List UInt8}
    (h : copy? key e = some x) : e.1 = x.1 ∧ e.2.IsRecord key x.2 := by
  rw [copy?] at h
  split at h
  · rename_i hrec
    cases h
    exact ⟨rfl, Stored.isRecord_of_isPrefixOf hrec⟩
  · cases h

theorem recordCopies_buryIf (key : RecordKey) (a : Nat) (es : List (Nat × Stored)) :
    recordCopies key (es.map (buryIf a)) = (recordCopies key es).filter (·.1 ≠ a) := by
  induction es with
  | nil => rfl
  | cons e es ih =>
    rw [recordCopies] at ih
    rw [List.map_cons, recordCopies, recordCopies]
    by_cases hb : e.1 = a
    · have hburied : copy? key (buryIf a e) = none := by simp [copy?, buryIf, hb]
      rw [List.filterMap_cons_none hburied, ih]
      cases hcopy : copy? key e with
      | none => rw [List.filterMap_cons_none hcopy, recordCopies]
      | some x =>
        rw [List.filterMap_cons_some hcopy, List.filter_cons_of_neg, recordCopies]
        simp [← (copy?_eq_some hcopy).1, hb]
    · rw [buryIf, if_neg hb]
      cases hcopy : copy? key e with
      | none => rw [List.filterMap_cons_none hcopy, List.filterMap_cons_none hcopy, ih, recordCopies]
      | some x =>
        rw [List.filterMap_cons_some hcopy, List.filterMap_cons_some hcopy, List.filter_cons_of_pos,
          ih, recordCopies]
        simp [← (copy?_eq_some hcopy).1, hb]

/-- There are as many copies as bindings of the key. -/
theorem length_recordCopies (key : RecordKey) (pageSize : Nat) (vol : List Layout) :
    (recordCopies key (entries pageSize vol)).length =
      ((bindings vol).map (·.1)).count (.record key) := by
  rw [bindings, ← map_snd_entries pageSize vol, recordCopies]
  induction entries pageSize vol with
  | nil => rfl
  | cons e es ih =>
    rw [List.map_cons]
    cases hcopy : copy? key e with
    | none =>
      rw [List.filterMap_cons_none hcopy, ih]
      cases hb : e.2.binding? with
      | none => rw [List.filterMap_cons_none hb]
      | some b =>
        have hne : b.1 ≠ .record key := by
          intro hkey
          obtain ⟨name, data⟩ := b
          cases hkey
          have := copy?_of_isRecord (a := e.1) (Stored.binding?_eq_record_iff.mp hb)
          rw [hcopy] at this
          cases this
        rw [List.filterMap_cons_some hb, List.map_cons, List.count_cons_of_ne hne]
    | some x =>
      have hb := Stored.binding?_eq_record_iff.mpr (copy?_eq_some hcopy).2
      rw [List.filterMap_cons_some hcopy, List.filterMap_cons_some hb, List.length_cons, ih,
        List.map_cons, List.count_cons_self]

theorem Reads.recordCopies_pairwise {f : Flash} {pageSize : Nat} {vol : List Layout}
    (h : Reads f pageSize vol) (key : RecordKey) :
    (recordCopies key (entries pageSize vol)).Pairwise fun x y => x.1 < y.1 := by
  rw [recordCopies, List.pairwise_filterMap]
  refine h.entries_pairwise.imp ?_
  intro e e' hlt x hx y hy
  rwa [(copy?_eq_some hx).1, (copy?_eq_some hy).1] at hlt

/-- Copies that are the same up to order are the same. -/
theorem eq_of_perm_of_pairwise {xs ys : List (Nat × List UInt8)} (hperm : xs.Perm ys)
    (hxs : xs.Pairwise fun x y => x.1 < y.1) (hys : ys.Pairwise fun x y => x.1 < y.1) : xs = ys :=
  hperm.eq_of_pairwise (fun _ _ _ _ hlt hgt => absurd hgt (Nat.lt_asymm hlt)) hxs hys

theorem eq_pair_of_perm {xs : List (Nat × List UInt8)} {a b : Nat} {x y : List UInt8}
    (hperm : xs.Perm [(a, x), (b, y)]) (hsorted : xs.Pairwise fun x y => x.1 < y.1) :
    xs = if a < b then [(a, x), (b, y)] else [(b, y), (a, x)] := by
  split
  · rename_i hlt
    exact eq_of_perm_of_pairwise hperm hsorted (by simpa using hlt)
  · rename_i hnot
    have hswap := hperm.trans (List.Perm.swap (b, y) (a, x) [])
    refine eq_of_perm_of_pairwise hswap hsorted ?_
    have hne : a ≠ b := by
      rintro rfl
      have hsame : xs.Pairwise fun x y => x.1 ≠ y.1 := hsorted.imp Nat.ne_of_lt
      rw [hperm.pairwise_iff fun h => Ne.symm h] at hsame
      simp at hsame
    simp only [List.pairwise_cons, List.mem_singleton, forall_eq, List.not_mem_nil, false_imp_iff,
      implies_true, List.Pairwise.nil, and_true]
    omega

namespace Store

variable {s : Store} {vol : List Layout}

/-! ## What is done to them -/

theorem Coherent.recordAddress?_eq_head? (h : s.Coherent vol) (key : RecordKey) :
    s.recordAddress? key = (recordCopies key (entries s.pageSize vol)).head?.map (·.1) := by
  rw [h.recordAddress?_eq, recordCopies, List.head?_filterMap, ← List.head?_filterMap,
    ← List.head?_filterMap, ← List.head?_map, List.map_filterMap]
  refine congrArg List.head? (List.filterMap_congr fun e _ => ?_)
  rw [keyedAddress?, copy?]
  split <;> rfl

/-- A lookup finds the first copy. -/
theorem Coherent.record?_eq_head? (h : s.Coherent vol) (key : RecordKey) :
    s.record? key = (recordCopies key (entries s.pageSize vol)).head?.map (·.2) := by
  rw [record?, h.recordAddress?_eq_head? key, Option.map_map]
  refine Option.map_congr fun x hx => ?_
  obtain ⟨⟨a, i⟩, hi, hcopy⟩ := List.mem_filterMap.mp (List.mem_of_mem_head? hx)
  obtain ⟨rfl, hrec⟩ := copy?_eq_some hcopy
  rw [Function.comp_apply, h.reads.payload_entry hi, hrec.2]
  rfl

/-- Deleting the first copy leaves the others. -/
theorem Coherent.recordCopies_withoutRecord (h : s.Coherent vol) (key : RecordKey) :
    recordCopies key (entries s.pageSize (s.withoutRecord vol key)) =
      (recordCopies key (entries s.pageSize vol)).tail := by
  have hsorted := h.reads.recordCopies_pairwise key
  rw [withoutRecord]
  cases haddr : s.recordAddress? key with
  | none =>
    rw [h.recordAddress?_eq_head? key, Option.map_eq_none_iff, List.head?_eq_none_iff] at haddr
    dsimp only
    rw [haddr]
    rfl
  | some a =>
    obtain ⟨i, hi, -⟩ := h.recordAddress?_eq_some haddr
    rw [h.recordAddress?_eq_head? key] at haddr
    obtain ⟨x, hx, rfl⟩ := Option.map_eq_some_iff.mp haddr
    obtain ⟨rest, hcopies⟩ := List.head?_eq_some_iff.mp hx
    rw [hcopies] at hsorted
    dsimp only
    rw [h.reads.entries_buryEntry hi, recordCopies_buryIf, hcopies, List.filter_cons_of_neg (by simp),
      List.tail_cons, List.filter_eq_self]
    intro y hy
    have hlt := (List.pairwise_cons.mp hsorted).1 y hy
    simpa using Nat.ne_of_gt hlt

theorem Sound.deleteRecord?_copies (h : s.Sound vol) {key : RecordKey} {x : Nat × List UInt8}
    {rest : List (Nat × List UInt8)}
    (hcopies : recordCopies key (entries s.pageSize vol) = x :: rest) :
    ∃ s' vol', s.deleteRecord? key = some s' ∧ s'.Sound vol' ∧
      recordCopies key (entries s'.pageSize vol') = rest := by
  have haddr := h.recordAddress?_eq_head? key
  rw [hcopies, List.head?_cons, Option.map_some] at haddr
  have hc : s.deleteRecordChange? key = some (s.burial x.1 s.index) := by
    rw [Store.deleteRecordChange?, haddr, Option.map_some]
  refine ⟨_, _, by rw [Store.deleteRecord?, deleteRecordOn?, hc, Option.map_some, commit],
    (h.deleteRecordChange?_withoutRecord hc).sound, ?_⟩
  show recordCopies key (entries s.pageSize (s.withoutRecord vol key)) = rest
  rw [h.recordCopies_withoutRecord key, hcopies, List.tail_cons]

theorem Sound.putRecord?_copies (h : s.Sound vol) {key : RecordKey} {data : List UInt8} {s' : Store}
    (hput : s.putRecord? key data = some s') :
    ∃ vol' p addr, s.place? (LittleEndian.ofUInt32 key ++ data) = some (p, addr) ∧ s'.Sound vol' ∧
      (recordCopies key (entries s'.pageSize vol')).Perm
        ((addr, data) :: (recordCopies key (entries s.pageSize vol)).tail) := by
  obtain ⟨c, hc, rfl⟩ := Option.map_eq_some_iff.mp hput
  obtain ⟨vol', p, addr, i, hplace, hrec, hedits, hentries⟩ := h.entries_putRecordChange? hc
  have hcopies := hentries.filterMap (copy? key)
  rw [List.filterMap_cons_some (copy?_of_isRecord hrec)] at hcopies
  refine ⟨vol', p, addr, hplace, hedits.sound, ?_⟩
  rw [← h.recordCopies_withoutRecord key]
  exact hcopies

/-! ## Recovering from a replacement -/

/-- The new copy of a record is what is written first. -/
theorem take_opsOf_putRecord {key : RecordKey} {data : List UInt8} {p addr : Nat}
    (hplace : s.place? (LittleEndian.ofUInt32 key ++ data) = some (p, addr)) :
    (s.opsOf (.putRecord key data)).take 1 =
      [.write addr (Item.encode Item.recordId (LittleEndian.ofUInt32 key ++ data))] := by
  simp only [opsOf, change?, changeOn?, putRecordChangeOn?, hplace, Option.map_some,
    Option.getD_some]
  split <;> rfl

/-- Recovery leaves all copies of a record. -/
theorem Sound.mount_added (h : s.Sound vol) {f : Flash} {vol1 : List Layout} {a : Nat} {i : Stored}
    (hadded : Added f s.pageSize vol vol1 a i) (hi : i.number? = none) :
    ∃ vol', (mount f s.pageSize).Sound vol' ∧ entries s.pageSize vol' = entries s.pageSize vol1 ∧
      bindings vol' = bindings vol1 := by
  have hnumbers : (numbers vol1).Nodup := by
    have hperm := (hadded.entries.map (·.2)).filterMap (·.number?)
    rw [map_snd_entries, List.map_cons, List.filterMap_cons_none hi, map_snd_entries] at hperm
    exact hperm.nodup_iff.mpr h.nodup_numbers
  have hrecovers := Reads.recovers_nil
    (s := { s with flash := f, pages := [], index := [], lastAge := 0 }) hadded.reads hnumbers
  refine ⟨_, ⟨hrecovers.coherent, isClean_recovered hadded.clean []⟩, ?_,
    bindings_recovered_nil s.pageSize vol1⟩
  exact entries_stampAll s.pageSize vol1 _

/-- What is found, deleted and put while there are two copies of a record. -/
theorem Sound.two_copies (h : s.Sound vol) {key : RecordKey} {a addr : Nat}
    {first second : List UInt8}
    (hcopies : recordCopies key (entries s.pageSize vol) = [(a, first), (addr, second)]) :
    s.record? key = some first ∧
      (∃ s₁ s₂, s.deleteRecord? key = some s₁ ∧ s₁.record? key = some second ∧
        s₁.recordAddress? key = some addr ∧
        s₁.deleteRecord? key = some s₂ ∧ s₂.record? key = none) ∧
      ∀ d s', s.putRecord? key d = some s' →
        ∃ p b, s.place? (LittleEndian.ofUInt32 key ++ d) = some (p, b) ∧
          s'.record? key = some (if b < addr then d else second) := by
  refine ⟨?_, ?_, ?_⟩
  · rw [h.record?_eq_head? key, hcopies]
    rfl
  · obtain ⟨s₁, vol₁, hdelete, h₁, hcopies₁⟩ := h.deleteRecord?_copies hcopies
    obtain ⟨s₂, vol₂, hdelete₂, h₂, hcopies₂⟩ := h₁.deleteRecord?_copies hcopies₁
    refine ⟨s₁, s₂, hdelete, ?_, ?_, hdelete₂, ?_⟩
    · rw [h₁.record?_eq_head? key, hcopies₁]
      rfl
    · rw [h₁.recordAddress?_eq_head? key, hcopies₁]
      rfl
    · rw [h₂.record?_eq_head? key, hcopies₂]
      rfl
  · intro d s' hput
    obtain ⟨vol', p, b, hplace, h', hperm⟩ := h.putRecord?_copies hput
    rw [hcopies, List.tail_cons] at hperm
    refine ⟨p, b, hplace, ?_⟩
    rw [h'.record?_eq_head? key, eq_pair_of_perm hperm (h'.reads.recordCopies_pairwise key)]
    split <;> rfl

/-- A record that is held alone and a new copy of it, in the order of their addresses, are what
recovery finds when the first write of a replacement is done. -/
theorem Sound.mount_cut_putRecord (h : s.Sound vol) {key : RecordKey} {old data : List UInt8}
    {a p b : Nat} (hone : recordCopies key (entries s.pageSize vol) = [(a, old)])
    (hplace : s.place? (LittleEndian.ofUInt32 key ++ data) = some (p, b)) :
    let t := mount (s.flash.applyAll ((s.opsOf (.putRecord key data)).take 1)) s.pageSize
    ∃ vol', t.Sound vol' ∧
      recordCopies key (entries s.pageSize vol') =
        (if b < a then [(b, data), (a, old)] else [(a, old), (b, data)]) ∧
      (∀ key', key' ≠ key → t.record? key' = s.record? key') ∧ t.lines = s.lines := by
  intro t
  obtain ⟨vol1, i, hadded, -, -, -, hkind, hpayload⟩ :=
    h.place? hplace (by decide : Item.recordId ≠ Item.freeId) (by decide)
  have hrec : i.IsRecord key data := ⟨hkind, hpayload⟩
  obtain ⟨vol', ht, hentries, hbindings⟩ := h.mount_added hadded hrec.number?
  have htdef : t = mount (s.flash.apply (.write b (Item.encode Item.recordId
      (LittleEndian.ofUInt32 key ++ data)))) s.pageSize := by
    rw [← Flash.applyAll_nil (s.flash.apply _), ← Flash.applyAll_cons, ← take_opsOf_putRecord hplace]
  rw [← htdef] at ht
  have hpage : t.pageSize = s.pageSize := by rw [htdef]; rfl
  refine ⟨vol', ht, ?_, ?_, ?_⟩
  · have hperm := hadded.entries.filterMap (copy? key)
    rw [List.filterMap_cons_some (copy?_of_isRecord hrec)] at hperm
    rw [hentries]
    refine eq_pair_of_perm ?_ (hadded.reads.recordCopies_pairwise key)
    rw [← hone]
    exact hperm
  · intro key' hne
    have hperm := hadded.entries.filterMap (copy? key')
    rw [List.filterMap_cons_none (copy?_of_isRecord_ne hrec hne)] at hperm
    have hsame : recordCopies key' (entries s.pageSize vol1) =
        recordCopies key' (entries s.pageSize vol) :=
      eq_of_perm_of_pairwise hperm (hadded.reads.recordCopies_pairwise key')
        (h.reads.recordCopies_pairwise key')
    rw [ht.record?_eq_head? key', h.record?_eq_head? key', hpage, hentries, hsame]
  · refine h.lines_eq ht.toCoherent fun n text => ?_
    rw [hbindings]
    exact mem_iff_of_perm_cons
      (bindings_append hadded.entries (Stored.binding?_eq_record_iff.mpr hrec)) (by simp)

/-- A record that a store holds has one copy. -/
theorem Holds.one_copy {m : Contents} (hsound : s.Sound vol) (hrep : Represents vol m)
    {key : RecordKey} {data : List UInt8} (hdata : s.record? key = some data) :
    ∃ a, recordCopies key (entries s.pageSize vol) = [(a, data)] := by
  have hlength := length_recordCopies key s.pageSize vol
  have hcount := hrep.count_le (.record key)
  rw [hsound.record?_eq_head? key] at hdata
  obtain ⟨⟨a, x⟩, hx, rfl⟩ := Option.map_eq_some_iff.mp hdata
  obtain ⟨rest, hrest⟩ := List.head?_eq_some_iff.mp hx
  rw [hrest, List.length_cons] at hlength
  have hnil : rest = [] := List.length_eq_zero_iff.mp (by omega)
  exact ⟨a, by rw [hrest, hnil]⟩

/-- A record is being replaced, and power is lost between the two writes. Of the two copies that are
then on flash the one at the lower address is found. Deleting it brings up the other, and only a
second deletion leaves none. What is put next is found only if it goes below the other copy. All
other records and all lines are as they were. -/
theorem mount_cut_replacement (size pageSize : Nat) (hsize : Page.ageLength ≤ pageSize)
    (requests : List Request) (hvalid : ∀ r ∈ requests, r.Valid) (key : RecordKey)
    (old data : List UInt8) (hold : (grown size pageSize requests).record? key = some old)
    (hroom : ((grown size pageSize requests).putRecord? key data).isSome) :
    let s := grown size pageSize requests
    let t := mount (s.flash.applyAll ((s.opsOf (.putRecord key data)).take 1)) pageSize
    ∃ first second addr,
      ((first = old ∧ second = data) ∨ (first = data ∧ second = old)) ∧
      t.record? key = some first ∧
      (∃ t₁ t₂, t.deleteRecord? key = some t₁ ∧ t₁.record? key = some second ∧
        t₁.recordAddress? key = some addr ∧
        t₁.deleteRecord? key = some t₂ ∧ t₂.record? key = none) ∧
      (∀ d u, t.putRecord? key d = some u →
        ∃ p a, t.place? (LittleEndian.ofUInt32 key ++ d) = some (p, a) ∧
          u.record? key = some (if a < addr then d else second)) ∧
      (∀ key', key' ≠ key → t.record? key' = s.record? key') ∧
      t.lines = s.lines := by
  intro s t
  obtain ⟨m, vol, hsound, hrep⟩ := Holds.grown size hsize hvalid
  obtain ⟨a, hone⟩ := Holds.one_copy hsound hrep hold
  obtain ⟨s', hs'⟩ := Option.isSome_iff_exists.mp hroom
  obtain ⟨-, p, b, hplace, -⟩ := hsound.putRecord?_copies hs'
  obtain ⟨vol', ht, hcopies, hothers, hlines⟩ := hsound.mount_cut_putRecord hone hplace
  rw [pageSize_grown] at ht hcopies hothers hlines
  split at hcopies
  · obtain ⟨hfirst, hdelete, hput⟩ := ht.two_copies hcopies
    exact ⟨data, old, a, Or.inr ⟨rfl, rfl⟩, hfirst, hdelete, hput, hothers, hlines⟩
  · obtain ⟨hfirst, hdelete, hput⟩ := ht.two_copies hcopies
    exact ⟨old, data, b, Or.inl ⟨rfl, rfl⟩, hfirst, hdelete, hput, hothers, hlines⟩

/-- A record beside a line is replaced by a longer one. -/
theorem mount_cut_replacement_longer :
    let requests : List Request := [.putRecord 5 [1], .putLine 10 [65], .putRecord 6 [7]]
    let s := grown 128 64 requests
    let t := mount (s.flash.applyAll ((s.opsOf (.putRecord 5 [2, 3])).take 1)) 64
    Page.ageLength ≤ 64 ∧ (∀ r ∈ requests, r.Valid) ∧ s.record? 5 = some [1] ∧
      (s.putRecord? 5 [2, 3]).isSome ∧
      ∃ first second addr,
        ((first = [1] ∧ second = [2, 3]) ∨ (first = [2, 3] ∧ second = [1])) ∧
        t.record? 5 = some first ∧
        (∃ t₁ t₂, t.deleteRecord? 5 = some t₁ ∧ t₁.record? 5 = some second ∧
          t₁.recordAddress? 5 = some addr ∧
          t₁.deleteRecord? 5 = some t₂ ∧ t₂.record? 5 = none) ∧
        (∀ d u, t.putRecord? 5 d = some u →
          ∃ p a, t.place? (LittleEndian.ofUInt32 5 ++ d) = some (p, a) ∧
            u.record? 5 = some (if a < addr then d else second)) ∧
        (∀ key', key' ≠ 5 → t.record? key' = s.record? key') ∧
        t.lines = s.lines := by
  intro requests s t
  have hold : s.record? 5 = some [1] := by decide +kernel
  have hroom : (s.putRecord? 5 [2, 3]).isSome := by decide +kernel
  refine ⟨by decide, by decide, hold, hroom, ?_⟩
  exact mount_cut_replacement 128 64 (by decide) requests (by decide) 5 [1] [2, 3] hold hroom

/-- The copy that was to be deleted comes back: after a deletion, and after another replacement. -/
theorem cut_replacement_resurfaces :
    let s := grown 64 64 [.putRecord 5 [1]]
    let t := mount (s.flash.applyAll ((s.opsOf (.putRecord 5 [2])).take 1)) 64
    t.record? 5 = some [1] ∧
      (t.deleteRecord? 5).bind (·.record? 5) = some [2] ∧
      (t.putRecord? 5 [3]).bind (·.record? 5) = some [2] := by
  decide +kernel

end Store

end FlashBasic
