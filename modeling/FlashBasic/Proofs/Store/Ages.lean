import FlashBasic.Proofs.Store.Safety

/-!
The ages of the pages. A request writes behind the ages of pages, and where it erases a page it gives
it the next age at once (`Renewing`). All that is said here of ages follows from that. As long as the
count stays below the age of an erased page, every page has an age of its own and the last one given
is the highest (`Aged`). So a page that was erased comes back above all others (`Returns`), and of
the pages with room for an item one has the lowest age (`Store.Lowest`).

`Store.Counted` adds that the last age is the number of ages given so far.
-/

namespace FlashBasic

set_option autoImplicit false

open Item (Stored)
open Page (Layout)

/-! ## Ages -/

/-- The ages of `count` pages: each page has one of its own, none has that of an erased page, and
`last` is the highest. -/
structure Aged (count : Nat) (age : Nat → UInt32) (last : UInt32) : Prop where
  stamped : ∀ p < count, age p ≠ Page.erasedAge
  distinct : ∀ p < count, ∀ q < count, age p = age q → p = q
  highest : ∀ p < count, age p ≤ last
  given : 0 < count → ∃ p < count, age p = last

namespace Aged

variable {count : Nat} {age age' : Nat → UInt32} {last : UInt32}

theorem congr (h : Aged count age last) (hage : ∀ p < count, age' p = age p) :
    Aged count age' last := by
  refine ⟨?_, ?_, ?_, ?_⟩
  · intro p hp
    rw [hage p hp]
    exact h.stamped p hp
  · intro p hp q hq heq
    rw [hage p hp, hage q hq] at heq
    exact h.distinct p hp q hq heq
  · intro p hp
    rw [hage p hp]
    exact h.highest p hp
  · intro hcount
    obtain ⟨p, hp, hlast⟩ := h.given hcount
    exact ⟨p, hp, (hage p hp).trans hlast⟩

/-- Pages that were numbered from 1. -/
theorem of_numbered (hage : ∀ p < count, (age p).toNat = p + 1) (hlast : last.toNat = count)
    (hbound : count < 2 ^ 32 - 1) : Aged count age last := by
  have herased : Page.erasedAge.toNat = 2 ^ 32 - 1 := rfl
  refine ⟨?_, ?_, ?_, ?_⟩
  · intro p hp hc
    have hnumber := hage p hp
    rw [hc, herased] at hnumber
    omega
  · intro p hp q hq heq
    have hnumber := hage p hp
    rw [heq, hage q hq] at hnumber
    omega
  · intro p hp
    rw [UInt32.le_iff_toNat_le, hage p hp, hlast]
    omega
  · intro hcount
    refine ⟨count - 1, by omega, UInt32.toNat_inj.mp ?_⟩
    rw [hage _ (by omega), hlast]
    omega

theorem lt_next (h : Aged count age last) (hbound : last.toNat + 1 < 2 ^ 32) {p : Nat}
    (hp : p < count) : age p < last + 1 := by
  have hle := UInt32.le_iff_toNat_le.mp (h.highest p hp)
  rw [UInt32.lt_iff_toNat_lt, toNat_nextAge hbound]
  omega

/-- Giving the next age to a page. -/
theorem renew (h : Aged count age last) (hbound : last.toNat + 1 < 2 ^ 32 - 1) {p : Nat}
    (hp : p < count) (hage : ∀ q < count, age' q = if q = p then last + 1 else age q) :
    Aged count age' (last + 1) := by
  have hhere : age' p = last + 1 := by rw [hage p hp, if_pos rfl]
  have hother {q : Nat} (hq : q < count) (hqp : q ≠ p) : age' q = age q := by
    rw [hage q hq, if_neg hqp]
  have hlt {q : Nat} (hq : q < count) (hqp : q ≠ p) : age' q < last + 1 := by
    rw [hother hq hqp]
    exact h.lt_next (by omega) hq
  refine ⟨?_, ?_, ?_, fun _ => ⟨p, hp, hhere⟩⟩
  · intro q hq
    by_cases hqp : q = p
    · rw [hqp, hhere]
      exact nextAge_ne_erased hbound
    · rw [hother hq hqp]
      exact h.stamped q hq
  · intro q hq q' hq' heq
    by_cases hqp : q = p
    · by_contra hne
      have hold := hlt hq' fun hc => hne (hqp.trans hc.symm)
      rw [← heq, hqp, hhere] at hold
      exact UInt32.lt_irrefl _ hold
    · by_cases hqp' : q' = p
      · have hold := hlt hq hqp
        rw [heq, hqp', hhere] at hold
        exact absurd hold (UInt32.lt_irrefl _)
      · rw [hother hq hqp, hother hq' hqp'] at heq
        exact h.distinct q hq q' hq' heq
  · intro q hq
    by_cases hqp : q = p
    · rw [hqp, hhere]
      exact UInt32.le_refl _
    · exact UInt32.le_of_lt (hlt hq hqp)

end Aged

/-! ## Renewing pages -/

theorem Behind.not_isStamp {pageSize : Nat} {op : Flash.Op} (h : Behind pageSize op) :
    ¬ Store.isStamp pageSize op = true := by
  cases op with
  | erase q size => exact h.elim
  | write addr bytes =>
    have hbody : 4 ≤ addr % pageSize := h.1
    rw [Store.isStamp, decide_eq_true_eq]
    omega

/-- What a request may do to flash that has `count` pages when the last age given is the first of the
two: it writes behind the ages, and it gives each page that it erases the next age. It erases no page
twice. The second is the last age then. -/
inductive Renewing (pageSize count : Nat) : UInt32 → List Flash.Op → UInt32 → Prop where
  | done (last : UInt32) : Renewing pageSize count last [] last
  | write {last last' : UInt32} {op : Flash.Op} {ops : List Flash.Op} (hop : Behind pageSize op)
      (hrest : Renewing pageSize count last ops last') :
      Renewing pageSize count last (op :: ops) last'
  | renew {last last' : UInt32} {p : Nat} {ops : List Flash.Op} (hp : p < count)
      (hrest : Renewing pageSize count (last + 1) ops last')
      (honce : ∀ size, .erase p size ∉ ops) :
      Renewing pageSize count last
        ([.erase p pageSize, Flash.stamp pageSize p (last + 1)] ++ ops) last'

/-- Page `p`, which is erased after the operations `first` and before `rest`, is stamped with `age`
at once. That is above the age of every other page at that time. In the end the page still has it,
and only pages that are erased after it can have a higher one. -/
structure Returns (f : Flash) (pageSize : Nat) (first : List Flash.Op) (p : Nat)
    (rest : List Flash.Op) (age : UInt32) : Prop where
  stamped : rest.head? = some (Flash.stamp pageSize p age)
  back : (f.applyAll (first ++ [.erase p pageSize, Flash.stamp pageSize p age])).age pageSize p = age
  above : ∀ q < f.pageCount pageSize, q ≠ p →
    (f.applyAll (first ++ [.erase p pageSize, Flash.stamp pageSize p age])).age pageSize q < age
  kept : (f.applyAll (first ++ .erase p pageSize :: rest)).age pageSize p = age
  highest : ∀ q < f.pageCount pageSize, q ≠ p → (∀ size, .erase q size ∉ rest) →
    (f.applyAll (first ++ .erase p pageSize :: rest)).age pageSize q < age

namespace Renewing

variable {pageSize count : Nat} {last last' : UInt32} {ops : List Flash.Op}

theorem of_behind (h : ∀ op ∈ ops, Behind pageSize op) (last : UInt32) :
    Renewing pageSize count last ops last := by
  induction ops with
  | nil => exact .done last
  | cons op ops ih =>
    obtain ⟨hop, hops⟩ := List.forall_mem_cons.mp h
    exact .write hop (ih hops)

theorem countP_renewal (pageSize p : Nat) (age : UInt32) (ops : List Flash.Op) :
    ([.erase p pageSize, Flash.stamp pageSize p age] ++ ops).countP (Store.isStamp pageSize) =
      ops.countP (Store.isStamp pageSize) + 1 := by
  simp

/-- The last age counts the ages given. -/
theorem toNat_last (h : Renewing pageSize count last ops last')
    (hbound : last.toNat + ops.countP (Store.isStamp pageSize) < 2 ^ 32) :
    last'.toNat = last.toNat + ops.countP (Store.isStamp pageSize) := by
  induction h with
  | done last => rfl
  | write hop hrest ih =>
    rw [List.countP_cons_of_neg hop.not_isStamp] at hbound ⊢
    exact ih hbound
  | @renew last last' p ops hp hrest honce ih =>
    rw [countP_renewal] at hbound ⊢
    have hnext : (last + 1).toNat = last.toNat + 1 := toNat_nextAge (by omega)
    rw [ih (by omega), hnext]
    omega

section Ages

variable (hsize : Page.ageLength ≤ pageSize)
include hsize

/-- Pages that are not erased keep their ages. -/
theorem age_applyAll (h : Renewing pageSize count last ops last') {f : Flash}
    (hcount : f.pageCount pageSize = count) {q : Nat} (hq : q < count)
    (hkept : ∀ size, .erase q size ∉ ops) :
    (f.applyAll ops).age pageSize q = f.age pageSize q := by
  induction h generalizing f with
  | done last => rfl
  | @write last last' op ops hop hrest ih =>
    have hsame := Flash.pageCount_congr (f.size_apply op) pageSize
    rw [Flash.applyAll_cons, ih (hsame.trans hcount) fun size hmem =>
      hkept size (List.mem_cons_of_mem _ hmem), hop.age_apply]
  | @renew last last' p ops hp hrest honce ih =>
    have hqp : q ≠ p := by
      rintro rfl
      exact hkept pageSize List.mem_cons_self
    have hsame := Flash.pageCount_congr
      (f.size_applyAll [.erase p pageSize, Flash.stamp pageSize p (last + 1)]) pageSize
    rw [Flash.applyAll_append, ih (hsame.trans hcount) fun size hmem =>
      hkept size (List.mem_append_right _ hmem),
      age_renewed hsize (hcount ▸ hp) (hcount ▸ hq), if_neg hqp]

theorem aged (h : Renewing pageSize count last ops last') {f : Flash}
    (hcount : f.pageCount pageSize = count)
    (hbound : last.toNat + ops.countP (Store.isStamp pageSize) < 2 ^ 32 - 1)
    (haged : Aged count (f.age pageSize) last) :
    Aged count ((f.applyAll ops).age pageSize) last' := by
  induction h generalizing f with
  | done last => exact haged
  | @write last last' op ops hop hrest ih =>
    have hsame := Flash.pageCount_congr (f.size_apply op) pageSize
    rw [List.countP_cons_of_neg hop.not_isStamp] at hbound
    rw [Flash.applyAll_cons]
    exact ih (hsame.trans hcount) hbound (haged.congr fun q _ => hop.age_apply f q)
  | @renew last last' p ops hp hrest honce ih =>
    have hsame := Flash.pageCount_congr
      (f.size_applyAll [.erase p pageSize, Flash.stamp pageSize p (last + 1)]) pageSize
    rw [countP_renewal] at hbound
    have hnext : (last + 1).toNat = last.toNat + 1 := toNat_nextAge (by omega)
    rw [Flash.applyAll_append]
    refine ih (hsame.trans hcount) (by omega) (haged.renew (by omega) hp ?_)
    intro q hq
    exact age_renewed hsize (hcount ▸ hp) (hcount ▸ hq) _

end Ages

/-- What comes before and after the erasing of a page. -/
theorem split (h : Renewing pageSize count last ops last') {first rest : List Flash.Op}
    {p size : Nat} (hops : ops = first ++ .erase p size :: rest) :
    size = pageSize ∧ p < count ∧ ∃ mid rest', Renewing pageSize count last first mid ∧
      rest = Flash.stamp pageSize p (mid + 1) :: rest' ∧
      Renewing pageSize count (mid + 1) rest' last' ∧ ∀ size, .erase p size ∉ rest' := by
  induction h generalizing first with
  | done last => simp at hops
  | write hop hrest ih =>
    cases first with
    | nil =>
      cases hops
      exact hop.elim
    | cons op first =>
      obtain ⟨rfl, htail⟩ := List.cons.inj hops
      obtain ⟨hpage, hp, mid, rest', hfirst, hrest⟩ := ih htail
      exact ⟨hpage, hp, mid, rest', .write hop hfirst, hrest⟩
  | @renew last last' q ops hq hrest honce ih =>
    -- The page is the one renewed here, or it is erased after that one was stamped.
    cases first with
    | nil =>
      cases hops
      exact ⟨rfl, hq, _, _, .done _, rfl, hrest, honce⟩
    | cons op first =>
      obtain ⟨rfl, htail⟩ := List.cons.inj hops
      cases first with
      | nil => cases htail
      | cons op first =>
        obtain ⟨rfl, hlater⟩ := List.cons.inj htail
        replace hlater : ops = first ++ .erase p size :: rest := hlater
        obtain ⟨hpage, hp, mid, rest', hfirst, hrest⟩ := ih hlater
        refine ⟨hpage, hp, mid, rest', .renew hq hfirst ?_, hrest⟩
        intro size hmem
        exact honce size (hlater ▸ List.mem_append_left _ hmem)

/-- A page that was erased has the next age, which is above all others. -/
theorem returns (hsize : Page.ageLength ≤ pageSize) (h : Renewing pageSize count last ops last')
    {f : Flash} (hcount : f.pageCount pageSize = count)
    (hbound : last.toNat + ops.countP (Store.isStamp pageSize) < 2 ^ 32 - 1)
    (haged : Aged count (f.age pageSize) last) {first rest : List Flash.Op} {p size : Nat}
    (hops : ops = first ++ .erase p size :: rest) :
    ∃ age, age.toNat = last.toNat + first.countP (Store.isStamp pageSize) + 1 ∧
      Returns f pageSize first p rest age := by
  obtain ⟨rfl, hp, mid, rest', hfirst, rfl, hrest, honce⟩ := h.split hops
  have hstamps : ops.countP (Store.isStamp size) = first.countP (Store.isStamp size) +
      (rest'.countP (Store.isStamp size) + 1) := by
    rw [hops, List.countP_append]
    simp
  have hmid := hfirst.toNat_last (by omega)
  have hnext : (mid + 1).toNat = mid.toNat + 1 := toNat_nextAge (by omega)
  have hsame := (Flash.pageCount_congr (f.size_applyAll first) size).trans hcount
  have hmoment := hfirst.aged hsize hcount (by omega) haged
  have hages (q : Nat) (hq : q < count) :
      (f.applyAll (first ++ [.erase p size, Flash.stamp size p (mid + 1)])).age size q =
        if q = p then mid + 1 else (f.applyAll first).age size q := by
    rw [Flash.applyAll_append]
    exact age_renewed hsize (hsame ▸ hp) (hsame ▸ hq) _
  have hback := (hages p hp).trans (if_pos rfl)
  have habove (q : Nat) (hq : q < count) (hqp : q ≠ p) :
      (f.applyAll (first ++ [.erase p size, Flash.stamp size p (mid + 1)])).age size q < mid + 1 := by
    rw [hages q hq, if_neg hqp]
    exact hmoment.lt_next (by omega) hq
  -- What follows leaves the pages alone that it does not erase.
  have hlater (q : Nat) (hq : q < count) (hkept : ∀ size, .erase q size ∉ rest') :
      (f.applyAll (first ++ .erase p size :: Flash.stamp size p (mid + 1) :: rest')).age size q =
        (f.applyAll (first ++ [.erase p size, Flash.stamp size p (mid + 1)])).age size q := by
    have hsplit : first ++ .erase p size :: Flash.stamp size p (mid + 1) :: rest' =
        (first ++ [.erase p size, Flash.stamp size p (mid + 1)]) ++ rest' := by
      simp
    rw [hsplit, Flash.applyAll_append]
    exact hrest.age_applyAll hsize
      ((Flash.pageCount_congr (f.size_applyAll _) size).trans hcount) hq hkept
  subst hcount
  refine ⟨mid + 1, by omega, rfl, hback, habove, (hlater p hp honce).trans hback, ?_⟩
  intro q hq hqp hkept
  rw [hlater q hq fun size hmem => hkept size (List.mem_cons_of_mem _ hmem)]
  exact habove q hq hqp

end Renewing

/-! ## Every request -/

/-- Items that fit behind an offset of a page are written behind its age. -/
theorem behind_writeItems {pageSize : Nat} (p : Nat) (items : List Stored) (o : Nat)
    (hbody : Page.ageLength ≤ o) (hend : o + Page.span items ≤ pageSize) :
    ∀ op ∈ Store.writeItems (p * pageSize + o) (items.map (·.bytes)), Behind pageSize op := by
  induction items generalizing o with
  | nil => simp [Store.writeItems]
  | cons i items ih =>
    have hpos := i.length_pos
    rw [Page.span_cons] at hend
    have hrest := ih (o + i.length) (by omega) (by omega)
    rw [← Nat.add_assoc] at hrest
    exact List.forall_mem_cons.mpr
      ⟨Behind.of_offset hbody hpos (show o + i.length ≤ pageSize by omega), hrest⟩

/-- Clearing goes from page to page. -/
theorem le_of_mem_eraseUsed {pageSize q size : Nat} (pages : List Page.Info) (p : Nat)
    (last : UInt32) (h : .erase q size ∈ (Store.eraseUsed pageSize p pages last).1) : p ≤ q := by
  induction pages generalizing p last with
  | nil => cases h
  | cons info pages ih =>
    by_cases hblank : info.free = (Store.blankPage pageSize).free
    · rw [Store.eraseUsed, if_pos hblank] at h
      exact Nat.le_of_succ_le (ih (p + 1) last h)
    · rw [ops_eraseUsed_cons hblank] at h
      rcases List.mem_append.mp h with h | h
      · obtain ⟨rfl, -⟩ : q = p ∧ size = pageSize := by simpa [Flash.stamp] using h
        exact Nat.le_refl _
      · exact Nat.le_of_succ_le (ih (p + 1) _ h)

theorem renewing_eraseUsed {pageSize count : Nat} (pages : List Page.Info) (p : Nat) (last : UInt32)
    (hp : p + pages.length ≤ count) :
    Renewing pageSize count last (Store.eraseUsed pageSize p pages last).1
      (Store.eraseUsed pageSize p pages last).2 := by
  induction pages generalizing p last with
  | nil => exact .done last
  | cons info pages ih =>
    rw [List.length_cons] at hp
    by_cases hblank : info.free = (Store.blankPage pageSize).free
    · rw [Store.eraseUsed, if_pos hblank]
      exact ih (p + 1) last (by omega)
    · have hlast : (Store.eraseUsed pageSize p (info :: pages) last).2 =
          (Store.eraseUsed pageSize (p + 1) pages (last + 1)).2 := by
        rw [Store.eraseUsed, if_neg hblank]
      rw [ops_eraseUsed_cons hblank, hlast]
      refine .renew (by omega) (ih (p + 1) (last + 1) (by omega)) ?_
      intro size hmem
      have := le_of_mem_eraseUsed pages (p + 1) (last + 1) hmem
      omega

namespace Store

variable {s : Store} {vol : List Layout}

theorem Settled.renewing_compaction (h : s.Settled vol) {p : Nat} {L : Layout}
    (hL : vol[p]? = some L) (hbound : s.lastAge.toNat + 1 < 2 ^ 32 - 1) :
    Renewing s.pageSize s.pages.length s.lastAge (s.compaction p).ops (s.compaction p).lastAge := by
  have hp : p < vol.length := (List.getElem?_eq_some_iff.mp hL).1
  obtain ⟨-, hnewest, hnone⟩ := h.ages_compacted hL hbound
  -- Rebuilding after the renewal finds nothing to write.
  have hrenewal := h.reads.renewal hL (s.lastAge + 1)
  have hnil := hrenewal.ops_recovery (by rw [numbers_compacted hL]; exact h.nodup_numbers) hnone
  have hlast : (s.compaction p).lastAge = s.lastAge + 1 := by
    rw [← (stampWhere_of_none isErased id hnone (s.lastAge + 1)).2]
    have hcompacted := h.lastAge_compaction hL
    rw [hnewest] at hcompacted
    exact hcompacted
  have hops : (s.compaction p).ops =
      [.erase p s.pageSize, Flash.stamp s.pageSize p (s.lastAge + 1)] ++
        writeItems (p * s.pageSize + Page.ageLength) (liveItems (s.flash.page s.pageSize p)) := by
    rw [Store.compaction, compactionOn]
    dsimp only
    rw [Flash.foldl_apply, ← Store.recovery, hnil, List.append_nil]
    rfl
  have hstop := h.reads.stop_le hL
  have hspan := Page.span_filter L.items
  rw [Layout.stop] at hstop
  have hitems : ∀ op ∈ writeItems (p * s.pageSize + Page.ageLength)
      (liveItems (s.flash.page s.pageSize p)), Behind s.pageSize op := by
    rw [h.reads.page p L hL, liveItems_bytes]
    exact behind_writeItems p _ _ (Nat.le_refl _) (by omega)
  rw [hops, hlast]
  refine .renew (by rwa [h.pages, List.length_map]) (.of_behind hitems _) ?_
  intro size hmem
  exact hitems _ hmem

/-- What a request does to the ages. -/
theorem Settled.renewing_change? (h : s.Settled vol) {r : Request} (hr : r.Valid) {c : Change}
    (hbound : s.lastAge.toNat + c.stamps s.pageSize < 2 ^ 32 - 1) (hc : s.change? r = some c) :
    Renewing s.pageSize s.pages.length s.lastAge c.ops c.lastAge := by
  obtain ⟨vol', hedits⟩ | ⟨p, L, hL, rfl⟩ | rfl | rfl := h.change?_cases hr hc
  · rw [hedits.lastAge]
    exact .of_behind hedits.behind _
  · have hone := one_le_stamps_compaction s p
    exact h.renewing_compaction hL (by omega)
  · exact renewing_eraseUsed s.pages 0 s.lastAge (by omega)
  · have hnil := h.reads.ops_recovery h.nodup_numbers h.not_isErased
    have hlast : (recovery s.flash s.pageSize).lastAge = s.lastAge :=
      congrArg Store.lastAge h.mount_eq
    rw [hnil, hlast]
    exact .done _

theorem Settled.renewing (h : s.Settled vol) {r : Request} (hr : r.Valid)
    (hbound : s.lastAge.toNat + s.stampsOf r < 2 ^ 32 - 1) :
    Renewing s.pageSize s.pages.length s.lastAge (s.opsOf r) (s.perform r).lastAge := by
  rw [perform_eq, opsOf]
  rw [stampsOf] at hbound
  cases hc : s.change? r with
  | none => exact .done _
  | some c =>
    rw [hc] at hbound
    exact h.renewing_change? hr hbound hc

theorem stampsOf_eq (s : Store) (r : Request) :
    s.stampsOf r = (s.opsOf r).countP (isStamp s.pageSize) := by
  rw [stampsOf, opsOf]
  cases s.change? r <;> rfl

/-! ## Every run -/

theorem Coherent.length_pages (h : s.Coherent vol) :
    s.pages.length = s.flash.pageCount s.pageSize := by
  rw [h.pages, List.length_map, h.reads.count]

/-- A store that agrees with its flash, whose pages have ages of their own after `n` ages were
given. -/
structure Counted (s : Store) (n : Nat) : Prop where
  settled : ∃ vol, s.Settled vol
  aged : Aged s.pages.length s.age s.lastAge
  count : s.lastAge.toNat = n

theorem Counted.perform {n : Nat} (h : s.Counted n) (hsize : Page.ageLength ≤ s.pageSize)
    {r : Request} (hr : r.Valid) (hbound : n + s.stampsOf r < 2 ^ 32 - 1) :
    (s.perform r).Counted (n + s.stampsOf r) := by
  obtain ⟨⟨vol, hsettled⟩, haged, rfl⟩ := h
  have hrenewing := hsettled.renewing hr hbound
  obtain ⟨vol', hsettled'⟩ := hsettled.perform hr hbound
  rw [stampsOf_eq] at hbound ⊢
  have hages := hrenewing.aged hsize hsettled.length_pages.symm hbound haged
  have hlength : (s.perform r).pages.length = s.pages.length := by
    rw [hsettled'.length_pages, hsettled.length_pages, pageSize_perform, ← applyAll_opsOf]
    exact Flash.pageCount_congr (Flash.size_applyAll _ _) _
  refine ⟨⟨vol', hsettled'⟩, ?_, hrenewing.toNat_last (by omega)⟩
  rw [hlength]
  refine hages.congr fun p _ => ?_
  rw [Store.age, pageSize_perform, ← applyAll_opsOf]

/-- The number of ages given while requests are performed one after the other. -/
def stampsIn (s : Store) : List Request → Nat
  | [] => 0
  | r :: requests => s.stampsOf r + stampsIn (s.perform r) requests

theorem stampsIn_append (s : Store) (before after : List Request) :
    s.stampsIn (before ++ after) =
      s.stampsIn before + (before.foldl Store.perform s).stampsIn after := by
  induction before generalizing s with
  | nil => exact (Nat.zero_add _).symm
  | cons r before ih =>
    rw [List.cons_append, stampsIn, ih, stampsIn, List.foldl_cons, Nat.add_assoc]

theorem Counted.foldl_perform {n : Nat} (h : s.Counted n) (hsize : Page.ageLength ≤ s.pageSize)
    {requests : List Request} (hvalid : ∀ r ∈ requests, r.Valid)
    (hbound : n + s.stampsIn requests < 2 ^ 32 - 1) :
    (requests.foldl Store.perform s).Counted (n + s.stampsIn requests) := by
  induction requests generalizing s n with
  | nil => exact h
  | cons r requests ih =>
    obtain ⟨hr, hrest⟩ := List.forall_mem_cons.mp hvalid
    rw [stampsIn, ← Nat.add_assoc] at hbound ⊢
    exact ih (h.perform hsize hr (by omega)) (by rwa [pageSize_perform]) hrest hbound

end Store

theorem ageNumber_blank (pageSize : Nat) : (Layout.blank pageSize).ageNumber = Page.erasedAge := by
  rw [Layout.ageNumber, Layout.blank]
  dsimp only
  decide

theorem isErased_blank (pageSize : Nat) : isErased (Layout.blank pageSize) = true := by
  rw [isErased, ageNumber_blank, decide_eq_true_eq]

namespace Store

theorem newestAge_blank (count pageSize : Nat) :
    newestAge ((List.replicate count (Layout.blank pageSize)).map (·.ageNumber)) = 0 := by
  rw [List.map_replicate, ageNumber_blank, newestAge, List.filter_replicate]
  rfl

section Blank

variable (size : Nat) {pageSize : Nat} (hsize : Page.ageLength ≤ pageSize)
include hsize

theorem recovers_blank : Recovers ⟨.blank size, pageSize, [], [], 0⟩
    (List.replicate (size / pageSize) (Layout.blank pageSize)) [] := by
  refine Reads.recovers_nil (reads_blank size pageSize hsize) ?_
  rw [numbers, contents_blank]
  exact List.nodup_nil

theorem stamps_blank : (recovery (.blank size) pageSize).stamps pageSize = size / pageSize := by
  obtain ⟨f1, hf1⟩ := (recovers_blank size hsize).ops
  dsimp only at hf1
  rw [Change.stamps, hf1, stampErased_eq, List.map_nil, List.append_nil,
    countP_opsWhere pageSize _ _ (fun p age => by simp), List.countP_replicate, isErased_blank]
  rfl

/-- The store made of blank flash reads its pages as stamped one after the other. -/
theorem coherent_blank : (mount (.blank size) pageSize).Coherent
    (stampWhere isErased id (List.replicate (size / pageSize) (Layout.blank pageSize)) 0) := by
  have hcoherent := (recovers_blank size hsize).coherent
  rw [recovered, List.foldl_nil, stampAll, newestAge_blank] at hcoherent
  exact hcoherent

theorem lastAge_blank (hbound : size / pageSize < 2 ^ 32) :
    (mount (.blank size) pageSize).lastAge.toNat = size / pageSize := by
  have hstamp := (recovers_blank size hsize).lastAge
  rw [stampErased_eq, newestAge_blank] at hstamp
  dsimp only at hstamp
  have hcount := toNat_lastStamp isErased
    (List.replicate (size / pageSize) (Layout.blank pageSize)) 0
  rw [List.countP_replicate, isErased_blank, if_pos rfl, ← hstamp, UInt32.toNat_zero,
    Nat.zero_add] at hcount
  exact hcount hbound

/-- Blank flash is numbered page by page. -/
theorem age_blank (hbound : size / pageSize < 2 ^ 32) {p : Nat} (hp : p < size / pageSize) :
    ((mount (.blank size) pageSize).age p).toNat = p + 1 := by
  obtain ⟨L, hL⟩ : ∃ L, (stampWhere isErased id
      (List.replicate (size / pageSize) (Layout.blank pageSize)) 0)[p]? = some L :=
    ⟨_, List.getElem?_eq_getElem (by rwa [length_stampWhere, List.length_replicate])⟩
  have hnumber := ageNumber_stampWhere isErased id
    (fun L hL => List.eq_of_mem_replicate hL ▸ isErased_blank _)
    (by rwa [List.length_replicate, UInt32.toNat_zero, Nat.zero_add]) hL
  rw [← (coherent_blank size hsize).reads.age hL, UInt32.toNat_zero, Nat.zero_add] at hnumber
  exact hnumber

theorem Counted.mount_blank
    (hbound : (recovery (.blank size) pageSize).stamps pageSize < 2 ^ 32 - 1) :
    (mount (.blank size) pageSize).Counted ((recovery (.blank size) pageSize).stamps pageSize) := by
  have hsettled := Settled.of_recover (s := ⟨.blank size, pageSize, [], [], 0⟩)
    (reads_blank size pageSize hsize) (isClean_blank _ _) (by
      rw [newestAge_blank]
      exact (Nat.zero_add _).symm ▸ hbound)
  rw [stamps_blank size hsize] at hbound ⊢
  have hlast := lastAge_blank size hsize (by omega)
  have hpages : (mount (.blank size) pageSize).pages.length = size / pageSize := by
    rw [(coherent_blank size hsize).pages, List.length_map, length_stampWhere,
      List.length_replicate]
  refine ⟨hsettled, ?_, hlast⟩
  rw [hpages]
  exact Aged.of_numbered (fun p hp => age_blank size hsize (by omega) hp) hlast hbound

end Blank

/-- The number of ages given from blank flash on. -/
def stampsGrown (size pageSize : Nat) (requests : List Request) : Nat :=
  (recovery (.blank size) pageSize).stamps pageSize +
    (mount (.blank size) pageSize).stampsIn requests

theorem stampsGrown_append (size pageSize : Nat) (before after : List Request) :
    stampsGrown size pageSize (before ++ after) =
      stampsGrown size pageSize before + (grown size pageSize before).stampsIn after := by
  rw [stampsGrown, stampsIn_append, stampsGrown, grown, Nat.add_assoc]

theorem Counted.grown (size : Nat) {pageSize : Nat} (hsize : Page.ageLength ≤ pageSize)
    {requests : List Request} (hvalid : ∀ r ∈ requests, r.Valid)
    (hbound : stampsGrown size pageSize requests < 2 ^ 32 - 1) :
    (grown size pageSize requests).Counted (stampsGrown size pageSize requests) := by
  rw [stampsGrown] at hbound
  exact (Counted.mount_blank size hsize (by omega)).foldl_perform hsize hvalid hbound

/-! ## The page of lowest age -/

/-- Page `p` has room for `length` bytes and a lower age than all others that have. -/
structure Lowest (s : Store) (length p : Nat) : Prop where
  room : ∃ info, s.pages[p]? = some info ∧ length ≤ info.free
  below : ∀ q info, s.pages[q]? = some info → length ≤ info.free → q ≠ p → s.age p < s.age q

theorem lowest_of_pageFor? {s : Store} (h : Aged s.pages.length s.age s.lastAge) {length p : Nat}
    (hp : s.pageFor? length = some p) : s.Lowest length p := by
  obtain ⟨info, hinfo, hroom⟩ := pageFor?_eq_some hp
  refine ⟨⟨info, hinfo, hroom⟩, ?_⟩
  intro q other hother hfree hne
  have hnot := pageFor?_lowest hp hother hfree
  have hdistinct : s.age p ≠ s.age q := fun heq =>
    hne (h.distinct p (List.getElem?_eq_some_iff.mp hinfo).1 q
      (List.getElem?_eq_some_iff.mp hother).1 heq).symm
  exact UInt32.lt_of_le_of_ne (UInt32.not_lt.mp hnot) hdistinct

/-- The page for an item is the one of lowest age, and there is no other. -/
theorem pageFor?_eq_some_iff {s : Store} (h : Aged s.pages.length s.age s.lastAge)
    {length p : Nat} : s.pageFor? length = some p ↔ s.Lowest length p := by
  refine ⟨lowest_of_pageFor? h, ?_⟩
  rintro ⟨⟨info, hinfo, hroom⟩, hbelow⟩
  cases hq : s.pageFor? length with
  | none =>
    have := pageFor?_eq_none_iff.mp hq info (List.mem_of_getElem? hinfo)
    omega
  | some q =>
    obtain ⟨⟨other, hother, hfree⟩, hbelow'⟩ := lowest_of_pageFor? h hq
    by_contra hne
    have hqp : q ≠ p := fun heq => hne (congrArg some heq)
    exact UInt32.lt_asymm (hbelow q other hother hfree hqp)
      (hbelow' p info hinfo hroom (Ne.symm hqp))

/-- In a run from blank flash that gives fewer ages than there are, every page has at all times an
age of its own, the last one given is the highest and counts them all, one page of lowest age takes
the next item, and reopening finds the same store. A page that is erased comes back with the next
age, above all others. -/
theorem ages_grown (size pageSize : Nat) (hsize : Page.ageLength ≤ pageSize)
    (requests : List Request) (hvalid : ∀ r ∈ requests, r.Valid)
    (hstamps : stampsGrown size pageSize requests ≤ 2 ^ 32 - 2) :
    (∀ before after, requests = before ++ after →
      let s := grown size pageSize before
      Aged s.pages.length s.age s.lastAge ∧
        s.lastAge.toNat = stampsGrown size pageSize before ∧
        (∀ length, (s.pageFor? length = none ↔ ∀ info ∈ s.pages, info.free < length) ∧
          ∀ p, s.pageFor? length = some p ↔ s.Lowest length p) ∧
        mount s.flash pageSize = s) ∧
    ∀ before r after, requests = before ++ r :: after →
      let s := grown size pageSize before
      ∀ first p bytes rest, s.opsOf r = first ++ .erase p bytes :: rest →
        ∃ age, age.toNat =
            stampsGrown size pageSize before + first.countP (isStamp pageSize) + 1 ∧
          Returns s.flash pageSize first p rest age := by
  have hstate (before after : List Request) (hrequests : requests = before ++ after) :
      (grown size pageSize before).Counted (stampsGrown size pageSize before) ∧
        stampsGrown size pageSize before + (grown size pageSize before).stampsIn after ≤
          2 ^ 32 - 2 := by
    rw [hrequests, stampsGrown_append] at hstamps
    refine ⟨Counted.grown size hsize (fun r hr => ?_) (by omega), hstamps⟩
    exact hvalid r (hrequests ▸ List.mem_append_left _ hr)
  constructor
  · intro before after hrequests s
    obtain ⟨⟨⟨vol, hsettled⟩, haged, hcount⟩, -⟩ := hstate before after hrequests
    refine ⟨haged, hcount, fun length => ⟨pageFor?_eq_none_iff, fun p => pageFor?_eq_some_iff haged⟩,
      ?_⟩
    have hmount := hsettled.mount_eq
    rwa [pageSize_grown] at hmount
  · intro before r after hrequests s first p bytes rest hops
    obtain ⟨⟨⟨vol, hsettled⟩, haged, hcount⟩, hle⟩ := hstate before (r :: after) hrequests
    have hpage := pageSize_grown size pageSize before
    have hbound : (grown size pageSize before).lastAge.toNat +
        (grown size pageSize before).stampsOf r < 2 ^ 32 - 1 := by
      rw [stampsIn] at hle
      omega
    have hr : r.Valid := hvalid r (by simp [hrequests])
    have hrenewing := hsettled.renewing hr hbound
    rw [stampsOf_eq] at hbound
    have hreturns := hrenewing.returns (le_of_le_of_eq hsize hpage.symm)
      hsettled.length_pages.symm hbound haged hops
    rwa [hcount, hpage] at hreturns

/-- Three pages of 32 bytes. The first is compacted, and clearing erases the first two; the second of
them comes back above the first. -/
theorem ages_grown_three_pages :
    let before : List Request := [.putLine 10 [65], .putLine 20 [66], .putLine 10 [67],
      .putLine 30 [68], .compact 8 32, .recover]
    let requests := before ++ [.clear]
    let s := grown 96 32 before
    let first := [.erase 0 32, Flash.stamp 32 0 5]
    let rest := [Flash.stamp 32 1 6]
    Page.ageLength ≤ 32 ∧ (∀ r ∈ requests, r.Valid) ∧
      stampsGrown 96 32 requests ≤ 2 ^ 32 - 2 ∧
      (List.range s.pages.length).map s.age = [4, 2, 3] ∧ s.lastAge = 4 ∧
      Aged s.pages.length s.age s.lastAge ∧ s.Lowest 8 1 ∧ mount s.flash 32 = s ∧
      s.opsOf .clear = first ++ .erase 1 32 :: rest ∧
      ∃ age, age.toNat = 6 ∧ Returns s.flash 32 first 1 rest age := by
  intro before requests s first rest
  obtain ⟨hstamps, hages, hlast, hpage, hops, hcount⟩ :
      stampsGrown 96 32 requests ≤ 2 ^ 32 - 2 ∧
        (List.range s.pages.length).map s.age = [4, 2, 3] ∧ s.lastAge = 4 ∧
        s.pageFor? 8 = some 1 ∧ s.opsOf .clear = first ++ .erase 1 32 :: rest ∧
        stampsGrown 96 32 before + first.countP (isStamp 32) + 1 = 6 := by
    decide +kernel
  obtain ⟨hstate, herased⟩ := ages_grown 96 32 (by decide) requests (by decide) hstamps
  obtain ⟨haged, -, hlowest, hmount⟩ := hstate before [.clear] rfl
  obtain ⟨age, hage, hreturns⟩ := herased before .clear [] rfl first 1 32 rest hops
  exact ⟨by decide, by decide, hstamps, hages, hlast, haged, ((hlowest 8).2 1).mp hpage, hmount, hops,
    age, hage.trans hcount, hreturns⟩

end Store

end FlashBasic
