import FlashBasic.Proofs.Store.Choice
import FlashBasic.Proofs.Store.Recovery

/-!
What the edits of a store do. A store is sound when it is coherent and the free space of its pages
is erased. An edit writes items and deletes them, which leaves the ages of the pages alone, and it
keeps the store sound (`Store.Edits`). What the store holds afterwards is given by `bindings`:

* `Store.Sound.putLineChange?`, `Store.Sound.deleteLineChange?` for lines,
* `Store.Sound.putRecordChange?`, `Store.Sound.deleteRecordChange?` for records.
-/

namespace FlashBasic

set_option autoImplicit false

open Item (Stored)
open Page (Layout)

/-! ## Names and what they hold -/

theorem filter_ne_of_perm {bs rest : List (Name × List UInt8)} {x : Name} {data : List UInt8}
    (hperm : bs.Perm ((x, data) :: rest)) (hcount : (bs.map (·.1)).count x ≤ 1) :
    (bs.filter (·.1 ≠ x)).Perm rest := by
  have hnone : (rest.map (·.1)).count x = 0 := by
    have hnames := (hperm.map (·.1)).count_eq x
    rw [List.map_cons, List.count_cons_self] at hnames
    omega
  have hrest : rest.filter (·.1 ≠ x) = rest := by
    rw [List.filter_eq_self]
    intro b hb
    have hne : b.1 ≠ x := fun hc =>
      List.count_eq_zero.mp hnone (List.mem_map.mpr ⟨b, hb, hc⟩)
    simpa using hne
  have hfilter := hperm.filter (·.1 ≠ x)
  rw [List.filter_cons_of_neg (by simp), hrest] at hfilter
  exact hfilter

theorem perm_replace {bs bs1 bs' : List (Name × List UInt8)} {x : Name} {data old : List UInt8}
    (hadd : bs1.Perm ((x, data) :: bs)) (hremove : bs1.Perm ((x, old) :: bs'))
    (hold : (x, old) ∈ bs) (hcount : (bs.map (·.1)).count x ≤ 1) :
    bs'.Perm ((x, data) :: bs.filter (·.1 ≠ x)) := by
  have hrest := List.perm_cons_erase hold
  have hfilter := filter_ne_of_perm hrest hcount
  have hboth : ((x, old) :: bs').Perm ((x, old) :: (x, data) :: bs.erase (x, old)) :=
    hremove.symm.trans (hadd.trans ((hrest.cons _).trans (List.Perm.swap ..)))
  exact hboth.cons_inv.trans (hfilter.symm.cons _)

theorem mem_iff_of_perm_cons {bs bs' : List (Name × List UInt8)} {x : Name} {data : List UInt8}
    (hperm : bs'.Perm ((x, data) :: bs)) {b : Name × List UInt8} (hb : b.1 ≠ x) :
    b ∈ bs' ↔ b ∈ bs := by
  rw [hperm.mem_iff, List.mem_cons]
  exact or_iff_right fun heq => hb (congrArg Prod.fst heq)

theorem bindings_append {pageSize a : Nat} {vol vol' : List Layout} {i : Stored}
    {b : Name × List UInt8}
    (hentries : (entries pageSize vol').Perm ((a, i) :: entries pageSize vol))
    (hb : i.binding? = some b) : (bindings vol').Perm (b :: bindings vol) := by
  have hperm := (hentries.map (·.2)).filterMap (·.binding?)
  rw [List.map_cons, List.filterMap_cons_some hb, map_snd_entries, map_snd_entries] at hperm
  exact hperm

theorem Reads.bindings_bury {f : Flash} {pageSize a : Nat} {vol vol' : List Layout} {i : Stored}
    {b : Name × List UInt8} (h : Reads f pageSize vol) (hi : (a, i) ∈ entries pageSize vol)
    (hentries : entries pageSize vol' = (entries pageSize vol).map (buryIf a))
    (hb : i.binding? = some b) : (bindings vol).Perm (b :: bindings vol') := by
  obtain ⟨before, after, hsplit⟩ := List.append_of_mem hi
  have hsorted := h.entries_pairwise
  rw [hsplit] at hsorted
  obtain ⟨-, hrest, hbefore⟩ := List.pairwise_append.mp hsorted
  have hafter := (List.pairwise_cons.mp hrest).1
  have hkeep : ∀ es : List (Nat × Stored), (∀ e ∈ es, e.1 ≠ a) → es.map (buryIf a) = es := by
    intro es hne
    rw [List.map_congr_left (g := id), List.map_id]
    intro e he
    rw [buryIf, if_neg (hne e he)]
    rfl
  have hburied : buryIf a (a, i) = (a, i.bury) := by simp [buryIf]
  rw [hsplit, List.map_append, List.map_cons, hburied,
    hkeep before fun e he => Nat.ne_of_lt (hbefore e he _ List.mem_cons_self),
    hkeep after fun e he => Nat.ne_of_gt (hafter e he)] at hentries
  rw [bindings, bindings, ← map_snd_entries pageSize vol, ← map_snd_entries pageSize vol', hsplit,
    hentries]
  simp only [List.map_append, List.map_cons, List.filterMap_append, List.filterMap_cons,
    Stored.binding?_bury, hb]
  exact List.perm_middle

theorem count_line_bindings (vol : List Layout) (n : UInt16) :
    ((bindings vol).map (·.1)).count (.line n) = (numbers vol).count n := by
  rw [bindings, numbers]
  induction contents vol with
  | nil => rfl
  | cons i items ih =>
    cases hb : i.binding? with
    | none =>
      have hn : i.number? = none := by
        cases hn : i.number? with
        | none => rfl
        | some m =>
          have := Stored.binding?_eq_line_iff.mpr ⟨hn, rfl⟩
          rw [hb] at this
          cases this
      rw [List.filterMap_cons_none hb, List.filterMap_cons_none hn, ih]
    | some b =>
      obtain ⟨name, data⟩ := b
      rw [List.filterMap_cons_some hb, List.map_cons, List.count_cons, ih]
      cases name with
      | line m =>
        have hn := (Stored.binding?_eq_line_iff.mp hb).1
        rw [List.filterMap_cons_some hn, List.count_cons]
        simp
      | record key =>
        have hn := (Stored.binding?_eq_record_iff.mp hb).number?
        rw [List.filterMap_cons_none hn]
        simp

namespace Store

/-! ## Sound stores -/

structure Sound (s : Store) (vol : List Layout) : Prop extends Coherent s vol where
  clean : ∀ L ∈ vol, L.IsClean

end Store

theorem map_set_of_eq {α : Type} {vol : List Layout} {p : Nat} {L L' : Layout} (g : Layout → α)
    (hL : vol[p]? = some L) (hg : g L' = g L) : (vol.set p L').map g = vol.map g := by
  obtain ⟨hp, rfl⟩ := List.getElem?_eq_some_iff.mp hL
  rw [List.map_set, hg]
  apply List.ext_getElem?
  intro k
  rw [List.getElem?_set, List.getElem?_map]
  split
  · rename_i hk
    subst hk
    simp [hp]
  · rfl

/-- `vol'` is `vol` with the item `i` added at address `a`. -/
structure Added (f' : Flash) (pageSize : Nat) (vol vol' : List Layout) (a : Nat) (i : Stored) :
    Prop where
  reads : Reads f' pageSize vol'
  clean : ∀ L ∈ vol', L.IsClean
  age : vol'.map (·.age) = vol.map (·.age)
  entries : (entries pageSize vol').Perm ((a, i) :: entries pageSize vol)

theorem Added.fresh {f' : Flash} {pageSize a : Nat} {vol vol' : List Layout} {i : Stored}
    (h : Added f' pageSize vol vol' a i) (j : Stored) :
    (a, j) ∉ FlashBasic.entries pageSize vol := by
  intro hj
  have hnodup : ((FlashBasic.entries pageSize vol').map (·.1)).Nodup := by
    rw [List.Nodup, List.pairwise_map]
    exact h.reads.entries_pairwise.imp Nat.ne_of_lt
  rw [(h.entries.map (·.1)).nodup_iff, List.map_cons, List.nodup_cons] at hnodup
  exact hnodup.1 (List.mem_map.mpr ⟨(a, j), hj, rfl⟩)

/-- An entry keeps its place and its id when an item is added. -/
theorem Added.mem {f' : Flash} {pageSize a b : Nat} {vol vol' : List Layout} {i j : Stored}
    (h : Added f' pageSize vol vol' a i) (hj : (b, j) ∈ FlashBasic.entries pageSize vol) :
    (b, j) ∈ FlashBasic.entries pageSize vol' :=
  h.entries.mem_iff.mpr (List.mem_cons_of_mem _ hj)

namespace Store

variable {s : Store} {vol : List Layout}

/-- An item is placed behind the last item of an intact page, which has the room for it. -/
theorem Coherent.place?_eq_some (h : s.Coherent vol) {data : List UInt8} {p addr : Nat}
    (hplace : s.place? data = some (p, addr)) :
    Item.length data.length ≤ Item.maxLength ∧ ∃ L, vol[p]? = some L ∧
      Page.broken L.tail = false ∧ addr = p * s.pageSize + L.stop ∧
      Item.length data.length ≤ L.tail.length := by
  rw [Store.place?] at hplace
  split at hplace
  · rename_i hlen
    obtain ⟨q, hq, hpair⟩ := Option.map_eq_some_iff.mp hplace
    cases hpair
    obtain ⟨info, hinfo, hfree⟩ := pageFor?_eq_some hq
    have hmap := hinfo
    rw [h.pages, List.getElem?_map] at hmap
    obtain ⟨L, hL, rfl⟩ := Option.map_eq_some_iff.mp hmap
    have hmin := Stored.length_le data.length
    unfold Item.headerLength at hmin
    -- A page with free bytes is not a damaged one.
    have hbroken : Page.broken L.tail = false := by
      by_contra hc
      rw [Layout.info, if_pos (by simpa using hc)] at hfree
      dsimp only at hfree
      omega
    have hinfofree : L.info.free = L.tail.length := by
      rw [Layout.info, hbroken]
      rfl
    have hstop := h.reads.stop_le hL
    refine ⟨hlen, L, hL, hbroken, ?_, by omega⟩
    rw [freeAddress, List.getD_eq_getElem?_getD, hinfo, Option.getD_some, hinfofree]
    omega
  · cases hplace

/-- What is put in the place found for it is added to the volume. -/
theorem Sound.place? (h : s.Sound vol) {data : List UInt8} {p addr : Nat}
    (hplace : s.place? data = some (p, addr)) {id : UInt16} (hid : id ≠ Item.freeId)
    (hused : id ≠ Item.tombstoneId) :
    ∃ vol' i, Added (s.flash.apply (.write addr (Item.encode id data))) s.pageSize vol vol' addr i ∧
      Rewrite s.pageSize vol (.write addr (Item.encode id data)) vol' ∧
      Behind s.pageSize (.write addr (Item.encode id data)) ∧
      vol'.map (·.info) = takeFree s.pages p (Item.length data.length) ∧
      i.kind = .ofId id ∧ i.payload = data := by
  obtain ⟨hlen, L, hL, hbroken, haddr, hfits⟩ := h.place?_eq_some hplace
  have htail := h.clean L (List.mem_of_getElem? hL) hbroken
  have hinfo : s.pages[p]? = some L.info := by
    rw [h.pages, List.getElem?_map, hL, Option.map_some]
  have hlive : (Stored.ofPayload id data hid hlen).isLive = true := by
    have hkind : Item.Kind.ofId id ≠ .tombstone := by
      unfold Item.Kind.ofId
      rw [if_neg hused, if_neg hid]
      split <;> simp
    rw [Stored.isLive, Stored.kind_ofPayload]
    simpa using hkind
  have hlength := Stored.length_ofPayload id data hid hlen
  have hle : (Stored.ofPayload id data hid hlen).length ≤ L.tail.length := by omega
  have hop : Rewrite s.pageSize vol (.write addr (Item.encode id data))
      (vol.set p (L.append (.ofPayload id data hid hlen))) := by
    rw [haddr]
    exact .append hL htail hle
  have hbehind : Behind s.pageSize (.write addr (Item.encode id data)) := by
    rw [haddr]
    exact h.reads.behind_append hL hle
  refine ⟨_, .ofPayload id data hid hlen, ⟨hop.reads h.reads, ?_, ?_, ?_⟩, hop, hbehind, ?_,
    Stored.kind_ofPayload id data hid hlen, Stored.payload_ofPayload id data hid hlen⟩
  · intro L' hL'
    rcases List.mem_or_eq_of_mem_set hL' with hmem | rfl
    · exact h.clean L' hmem
    · exact Layout.isClean_append _ _
  · exact map_set_of_eq (·.age) hL rfl
  · rw [haddr]
    exact entries_append s.pageSize hL _
  · rw [List.map_set, Layout.info_append _ _ hlive hbroken, takeFree, modify_eq_set hinfo,
      hlength, h.pages]

/-! ## Lines -/

theorem insertIdx_eq_take_append_drop {α : Type} (xs : List α) (k : Nat) (x : α)
    (hk : k ≤ xs.length) : xs.insertIdx k x = xs.take k ++ x :: xs.drop k := by
  induction xs generalizing k with
  | nil =>
    rw [List.length_nil, Nat.le_zero] at hk
    rw [hk]
    rfl
  | cons y xs ih =>
    cases k with
    | zero => rfl
    | succ k =>
      rw [List.insertIdx_succ_cons, ih k (by simpa using hk)]
      rfl

end Store

namespace Indexes

variable {es : List (Nat × Stored)} {index : List Nat} {f : Flash} (h : Indexes es index)
  (hid : ∀ b j m, (b, j) ∈ es → j.number? = some m → f.itemId b = m)
include h hid

/-- Where flash shows the numbers of the lines, a search for one of them divides the index. -/
theorem lowerBound_spec (n : UInt16) :
    Store.lowerBound f index n ≤ index.length ∧
      (∀ b ∈ index.take (Store.lowerBound f index n), ∀ j m, (b, j) ∈ es →
        j.number? = some m → m < n) ∧
      (∀ b ∈ index.drop (Store.lowerBound f index n), ∀ j m, (b, j) ∈ es →
        j.number? = some m → ¬ m < n) ∧
      ∀ b j, (b, j) ∈ es → j.number? = some n →
        index[Store.lowerBound f index n]? = some b ∧ f.itemId b = n := by
  have hsorted := h.ascending hid
  have hbelow := pairwise_below hsorted n
  rw [Store.lowerBound, Search.boundary_eq_countP _ _ hbelow]
  refine ⟨List.countP_le_length, ?_, ?_, ?_⟩
  · intro b hb j m hj hm
    have := of_mem_take_countP hbelow hb
    rwa [decide_eq_true_eq, hid b j m hj hm] at this
  · intro b hb j m hj hm
    have := not_of_mem_drop_countP hbelow hb
    rwa [decide_eq_true_eq, hid b j m hj hm] at this
  · intro b j hj hm
    refine ⟨?_, hid b j n hj hm⟩
    obtain ⟨k, hk⟩ := List.mem_iff_getElem?.mp ((h.mem b).mpr ⟨j, n, hj, hm⟩)
    have hcount := eq_countP_of_getElem? hsorted hk
    rw [hid b j n hj hm] at hcount
    rw [← hcount]
    exact hk

/-- The address of a new line goes where the search for its number ends. -/
theorem insert_lowerBound {addr : Nat} {i : Stored} {n : UInt16} (hn : i.number? = some n)
    (hnew : ∀ j, (addr, j) ∉ es) (hnone : ∀ b j, (b, j) ∈ es → ¬ j.number? = some n) :
    Indexes ((addr, i) :: es) (index.insertIdx (Store.lowerBound f index n) addr) := by
  obtain ⟨hle, hbefore, hafter, -⟩ := h.lowerBound_spec hid n
  have hindex := h
  rw [← List.take_append_drop (Store.lowerBound f index n) index] at hindex
  rw [Store.insertIdx_eq_take_append_drop _ _ _ hle]
  refine hindex.insert hn hnew hbefore ?_
  intro b hb j m hj hm
  have hge := hafter b hb j m hj hm
  have hne : m.toNat ≠ n.toNat := fun hc => hnone b j hj (UInt16.toNat_inj.mp hc ▸ hm)
  rw [UInt16.lt_iff_toNat_lt] at hge ⊢
  omega

/-- The address of the new copy of a line replaces that of the old one. -/
theorem set_lowerBound {addr old : Nat} {i j : Stored} {n : UInt16} (hn : i.number? = some n)
    (hnew : ∀ j, (addr, j) ∉ es) (hj : (old, j) ∈ es) (hm : j.number? = some n) :
    Indexes ((addr, i) :: es.map (buryIf old))
      (index.set (Store.lowerBound f index n) addr) := by
  obtain ⟨-, hbefore, -, hfound⟩ := h.lowerBound_spec hid n
  obtain ⟨hlt, hget⟩ := List.getElem?_eq_some_iff.mp (hfound old j hj hm).1
  generalize Store.lowerBound f index n = k at hbefore hlt hget
  have hsplit : index = index.take k ++ old :: index.drop (k + 1) := by
    rw [← hget, List.getElem_cons_drop, List.take_append_drop]
  have hindex := h
  rw [hsplit] at hindex
  rw [List.set_eq_take_append_cons_drop, if_pos hlt]
  refine hindex.erase.insert hn ?_ ?_ ?_
  · intro j' hj'
    obtain ⟨⟨b, k'⟩, hk', he⟩ := List.mem_map.mp hj'
    cases he
    exact hnew k' hk'
  · intro b hb j' m hj' hm'
    exact hbefore b hb j' m (mem_map_buryIf.mp ⟨hj', hm'⟩).2.1 hm'
  · intro b hb j' m hj' hm'
    obtain ⟨-, hrest, -⟩ := List.pairwise_append.mp hindex.sorted
    exact (List.pairwise_cons.mp hrest).1 b hb j j' n m hj (mem_map_buryIf.mp ⟨hj', hm'⟩).2.1 hm hm'

end Indexes

/-- Adding an item leaves the numbers of the lines as they are. -/
theorem Added.itemId {f' : Flash} {pageSize a : Nat} {vol vol' : List Layout} {i : Stored}
    (h : Added f' pageSize vol vol' a i) (b : Nat) (j : Stored) (m : UInt16)
    (hj : (b, j) ∈ FlashBasic.entries pageSize vol) (hm : j.number? = some m) : f'.itemId b = m := by
  rw [h.reads.itemId_entry (h.mem hj), Stored.id_of_number? hm]

/-- The entries once an item was added and an older one deleted. -/
theorem Added.entries_buryEntry {f' : Flash} {pageSize a old : Nat} {vol vol' : List Layout}
    {i j : Stored} (h : Added f' pageSize vol vol' a i)
    (hj : (old, j) ∈ FlashBasic.entries pageSize vol) :
    (FlashBasic.entries pageSize (buryEntry pageSize vol' old)).Perm
      ((a, i) :: (FlashBasic.entries pageSize vol).map (buryIf old)) := by
  have hne : a ≠ old := fun hc => h.fresh j (hc ▸ hj)
  rw [h.reads.entries_buryEntry (h.mem hj)]
  have hperm := h.entries.map (buryIf old)
  rwa [List.map_cons, buryIf, if_neg hne] at hperm

namespace Store

variable {s : Store} {vol : List Layout}

/-- The change writes items on the pages of `vol` or deletes some there, which gives `vol'`. -/
structure Edits (s : Store) (c : Change) (vol vol' : List Layout) : Prop where
  rewrites : Rewrites s.pageSize vol c.ops vol'
  behind : ∀ op ∈ c.ops, Behind s.pageSize op
  sound : (s.commit c).Sound vol'
  age : vol'.map (·.age) = vol.map (·.age)
  lastAge : c.lastAge = s.lastAge

theorem Sound.of_change {c : Change} {vol' : List Layout}
    (hreads : Reads (s.flash.applyAll c.ops) s.pageSize vol') (hpages : c.pages = vol'.map (·.info))
    (hindex : Indexes (entries s.pageSize vol') c.index) (hclean : ∀ L ∈ vol', L.IsClean) :
    (s.commit c).Sound vol' :=
  ⟨⟨hreads, hpages, hindex⟩, hclean⟩

end Store

namespace Added

variable {s : Store} {vol vol' : List Layout} {a : Nat} {bytes : List UInt8} {i : Stored}
  (h : Added (s.flash.apply (.write a bytes)) s.pageSize vol vol' a i)
  (hop : Rewrite s.pageSize vol (.write a bytes) vol') (hbehind : Behind s.pageSize (.write a bytes))
include h hop hbehind

/-- A change that writes an item. -/
theorem edits {c : Store.Change} (hpages : c.pages = vol'.map (·.info))
    (hindex : Indexes (FlashBasic.entries s.pageSize vol') c.index)
    (hops : c.ops = [.write a bytes]) (hlast : c.lastAge = s.lastAge) : s.Edits c vol vol' := by
  refine ⟨?_, ?_, .of_change ?_ hpages hindex h.clean, h.age, hlast⟩
  · rw [hops]
    exact .single hop
  · rw [hops]
    exact List.forall_mem_singleton.mpr hbehind
  · rw [hops]
    exact h.reads

/-- A change that writes an item and then deletes an older one. -/
theorem edits_replacing {c : Store.Change} {old : Nat} {j : Stored}
    (hj : (old, j) ∈ FlashBasic.entries s.pageSize vol) (hlive : j.isLive = true)
    (hpages : c.pages = (buryEntry s.pageSize vol' old).map (·.info))
    (hindex : Indexes (FlashBasic.entries s.pageSize (buryEntry s.pageSize vol' old)) c.index)
    (hops : c.ops = [.write a bytes, (s.flash.apply (.write a bytes)).bury old])
    (hlast : c.lastAge = s.lastAge) : s.Edits c vol (buryEntry s.pageSize vol' old) := by
  have hj' := h.mem hj
  have hrewrites : Rewrites s.pageSize vol c.ops (buryEntry s.pageSize vol' old) := by
    rw [hops]
    exact .cons hop (.single (.bury_of_header hj' hlive (h.reads.header_entry hj')))
  have hreads : Reads (s.flash.applyAll c.ops) s.pageSize (buryEntry s.pageSize vol' old) := by
    rw [hops]
    exact h.reads.bury_address hj'
  refine ⟨hrewrites, ?_, .of_change hreads hpages hindex (isClean_buryEntry h.clean), ?_, hlast⟩
  · rw [hops]
    exact List.forall_mem_cons.mpr
      ⟨hbehind, List.forall_mem_singleton.mpr (h.reads.behind_bury hj' _)⟩
  · rw [map_age_buryEntry, h.age]

end Added

namespace Store

variable {s : Store} {vol : List Layout}

/-- No line of that number is held. -/
theorem filter_line_eq_self {pageSize : Nat} {n : UInt16}
    (hnone : ∀ b j, (b, j) ∈ entries pageSize vol → ¬ j.number? = some n) :
    (bindings vol).filter (·.1 ≠ .line n) = bindings vol := by
  rw [List.filter_eq_self]
  rintro ⟨x, data⟩ hb
  obtain ⟨j, hj, hjb⟩ := mem_bindings.mp hb
  obtain ⟨b, hbj⟩ := mem_contents.mp hj
  have hne : x ≠ .line n := by
    rintro rfl
    exact hnone b j hbj (Stored.binding?_eq_line_iff.mp hjb).1
  simpa using hne

theorem Coherent.count_line_le (h : s.Coherent vol) (n : UInt16) :
    ((bindings vol).map (·.1)).count (.line n) ≤ 1 := by
  rw [count_line_bindings]
  exact List.nodup_iff_count_le_one.mp h.nodup_numbers n

theorem Sound.putLineChange? (h : s.Sound vol) {n : UInt16} {text : List UInt8} {c : Change}
    (hn : Item.Kind.ofId n = .line n) (hc : s.putLineChange? n text = some c) :
    ∃ vol', s.Edits c vol vol' ∧
      (bindings vol').Perm ((.line n, text) :: (bindings vol).filter (·.1 ≠ .line n)) := by
  obtain ⟨-, hne0, -, hne2⟩ := Item.Kind.ofId_eq_line.mp hn
  rw [Store.putLineChange?] at hc
  obtain ⟨⟨p, addr⟩, hplace, hchange⟩ := Option.map_eq_some_iff.mp hc
  obtain ⟨vol1, i, hadded, hop, hbehind, hinfo, hkind, hpayload⟩ := h.place? hplace hne2 hne0
  have hnumber : i.number? = some n := Stored.number?_eq_some_iff.mpr (hkind.trans hn)
  have hbindings := bindings_append hadded.entries
    (Stored.binding?_eq_line_iff.mpr ⟨hnumber, hpayload⟩)
  have hfound := (h.indexes.lowerBound_spec hadded.itemId n).2.2.2
  dsimp only at hchange
  split at hchange
  · rename_i old hold
    subst hchange
    obtain ⟨hget, hid⟩ := Option.filter_eq_some_iff.mp hold
    rw [decide_eq_true_eq] at hid
    obtain ⟨j, m, hj, hm⟩ := (h.indexes.mem old).mp (List.mem_of_getElem? hget)
    have hmn : m = n := by
      rw [← hid, hadded.reads.itemId_entry (hadded.mem hj), Stored.id_of_number? hm]
    rw [hmn] at hm
    have hj1 := hadded.mem hj
    have hlive := Stored.isLive_of_number? hm
    have hjb := Stored.binding?_eq_line_iff.mpr ⟨hm, rfl⟩
    have hburied := hadded.reads.bindings_bury hj1 (hadded.reads.entries_buryEntry hj1) hjb
    refine ⟨buryEntry s.pageSize vol1 old, hadded.edits_replacing hop hbehind hj hlive ?_
      ((h.indexes.set_lowerBound hadded.itemId hnumber hadded.fresh hj hm).perm
        (hadded.entries_buryEntry hj)) rfl rfl, ?_⟩
    · rw [hadded.reads.info_buryEntry hj1 hlive, hinfo]
    · exact perm_replace hbindings hburied
        (mem_bindings.mpr ⟨j, mem_contents.mpr ⟨old, hj⟩, hjb⟩) (h.count_line_le n)
  · rename_i hold
    subst hchange
    have hnone : ∀ b j, (b, j) ∈ entries s.pageSize vol → ¬ j.number? = some n := by
      intro b j hj hm
      obtain ⟨hb, hbid⟩ := hfound b j hj hm
      exact Option.filter_eq_none_iff.mp hold b hb (by simpa using hbid)
    refine ⟨vol1, hadded.edits hop hbehind hinfo.symm
      ((h.indexes.insert_lowerBound hadded.itemId hnumber hadded.fresh hnone).perm hadded.entries)
      rfl rfl, ?_⟩
    rw [filter_line_eq_self hnone]
    exact hbindings

/-- Deleting the item at an address. -/
theorem Sound.burial (h : s.Sound vol) {a : Nat} {i : Stored} {b : Name × List UInt8}
    (hi : (a, i) ∈ entries s.pageSize vol) (hb : i.binding? = some b) {index : List Nat}
    (hindex : Indexes ((entries s.pageSize vol).map (buryIf a)) index) :
    s.Edits (s.burial a index) vol (buryEntry s.pageSize vol a) ∧
      (bindings vol).Perm (b :: bindings (buryEntry s.pageSize vol a)) := by
  have hentries := h.reads.entries_buryEntry hi
  have hlive := Stored.isLive_of_binding? hb
  refine ⟨⟨.single (.bury_of_header hi hlive (h.reads.header_entry hi)),
    List.forall_mem_singleton.mpr (h.reads.behind_bury hi _),
    Sound.of_change (h.reads.bury_address hi) ?_ (hentries ▸ hindex) (isClean_buryEntry h.clean),
    map_age_buryEntry _ _ _, rfl⟩, h.reads.bindings_bury hi hentries hb⟩
  rw [h.reads.info_buryEntry hi hlive, ← h.pages]
  rfl

theorem Sound.deleteLineChange? (h : s.Sound vol) {n : UInt16} {c : Change}
    (hc : s.deleteLineChange? n = some c) :
    ∃ vol', s.Edits c vol vol' ∧
      (bindings vol').Perm ((bindings vol).filter (·.1 ≠ .line n)) := by
  rw [Store.deleteLineChange?] at hc
  obtain ⟨pos, hpos, hc⟩ := Option.bind_eq_some_iff.mp hc
  obtain ⟨a, ha, hc⟩ := Option.bind_eq_some_iff.mp hc
  cases hc
  obtain ⟨i, m, hi, hm⟩ := (h.indexes.mem a).mp (List.mem_of_getElem? ha)
  have hmn : m = n := by
    have hid := h.find?_eq_some_iff.mp hpos
    rw [ids, List.getElem?_map, ha, Option.map_some, h.itemId_of_number? hi hm] at hid
    exact Option.some.inj hid
  rw [hmn] at hm
  obtain ⟨hlt, hget⟩ := List.getElem?_eq_some_iff.mp ha
  have hindex := h.indexes
  rw [← List.take_append_drop pos s.index, ← List.getElem_cons_drop hlt, hget] at hindex
  have hshort := hindex.erase
  rw [← List.eraseIdx_eq_take_drop_succ] at hshort
  obtain ⟨hedits, hperm⟩ := h.burial hi (Stored.binding?_eq_line_iff.mpr ⟨hm, rfl⟩) hshort
  exact ⟨_, hedits, (filter_ne_of_perm hperm (h.count_line_le n)).symm⟩

/-- There is nothing to delete only when the line is not held. -/
theorem Sound.filter_of_deleteLineChange? (h : s.Sound vol) {n : UInt16}
    (hc : s.deleteLineChange? n = none) :
    (bindings vol).filter (·.1 ≠ .line n) = bindings vol := by
  refine @filter_line_eq_self vol s.pageSize n ?_
  intro b j hj hm
  have hmem : n ∈ s.ids := h.mem_ids.mpr ⟨j, mem_contents.mpr ⟨b, hj⟩, hm⟩
  obtain ⟨pos, hpos⟩ := Option.isSome_iff_exists.mp (h.find?_isSome_iff.mpr hmem)
  have hid := h.find?_eq_some_iff.mp hpos
  rw [ids, List.getElem?_map] at hid
  obtain ⟨a, ha, -⟩ := Option.map_eq_some_iff.mp hid
  simp [Store.deleteLineChange?, hpos, ha] at hc

/-! ## Records -/

theorem Coherent.not_mem_index (h : s.Coherent vol) {a : Nat} {i : Stored} {key : RecordKey}
    {data : List UInt8} (hi : (a, i) ∈ entries s.pageSize vol) (hrec : i.IsRecord key data) :
    a ∉ s.index := by
  intro ha
  obtain ⟨j, m, hj, hm⟩ := (h.indexes.mem a).mp ha
  rw [h.reads.entry_unique hj hi, hrec.number?] at hm
  cases hm

theorem Coherent.filter_of_recordAddress? (h : s.Coherent vol) {key : RecordKey}
    (hnone : s.recordAddress? key = none) :
    (bindings vol).filter (·.1 ≠ .record key) = bindings vol := by
  rw [List.filter_eq_self]
  rintro ⟨x, data⟩ hb
  obtain ⟨j, hj, hjb⟩ := mem_bindings.mp hb
  have hne : x ≠ .record key := by
    rintro rfl
    exact h.recordAddress?_eq_none hnone hj data (Stored.binding?_eq_record_iff.mp hjb)
  simpa using hne

/-- The volume once the first record of a key is deleted. -/
def withoutRecord (s : Store) (vol : List Layout) (key : RecordKey) : List Layout :=
  match s.recordAddress? key with
  | none => vol
  | some a => buryEntry s.pageSize vol a

theorem Coherent.bindings_withoutRecord (h : s.Coherent vol) (key : RecordKey) :
    (∀ b, b.1 ≠ .record key → (b ∈ bindings (s.withoutRecord vol key) ↔ b ∈ bindings vol)) ∧
      (((bindings vol).map (·.1)).count (.record key) ≤ 1 →
        (bindings (s.withoutRecord vol key)).Perm
          ((bindings vol).filter (·.1 ≠ .record key))) := by
  rw [withoutRecord]
  cases haddr : s.recordAddress? key with
  | none =>
    refine ⟨fun b _ => Iff.rfl, fun _ => ?_⟩
    rw [h.filter_of_recordAddress? haddr]
  | some a =>
    obtain ⟨j, hj, hrec⟩ := h.recordAddress?_eq_some haddr
    have hburied := h.reads.bindings_bury hj (h.reads.entries_buryEntry hj)
      (Stored.binding?_eq_record_iff.mpr hrec)
    exact ⟨fun b hb => (mem_iff_of_perm_cons hburied hb).symm,
      fun hcount => (filter_ne_of_perm hburied hcount).symm⟩

/-- Putting a record adds it and deletes the first one that has its key. -/
theorem Sound.entries_putRecordChange? (h : s.Sound vol) {key : RecordKey} {data : List UInt8}
    {c : Change} (hc : s.putRecordChange? key data = some c) :
    ∃ vol' p addr i, s.place? (LittleEndian.ofUInt32 key ++ data) = some (p, addr) ∧
      i.IsRecord key data ∧ s.Edits c vol vol' ∧
      (entries s.pageSize vol').Perm
        ((addr, i) :: entries s.pageSize (s.withoutRecord vol key)) := by
  rw [Store.putRecordChange?] at hc
  obtain ⟨⟨p, addr⟩, hplace, hchange⟩ := Option.map_eq_some_iff.mp hc
  obtain ⟨vol1, i, hadded, hop, hbehind, hinfo, hkind, hpayload⟩ :=
    h.place? hplace (by decide : Item.recordId ≠ Item.freeId) (by decide)
  have hrec : i.IsRecord key data := ⟨hkind, hpayload⟩
  have hindex := (h.indexes.cons (a := addr) hrec.number?).perm hadded.entries
  dsimp only at hchange
  rw [withoutRecord]
  split at hchange
  · rename_i old hold
    subst hchange
    obtain ⟨j, hj, hjrec⟩ := h.recordAddress?_eq_some hold
    have hj1 := hadded.mem hj
    have hentries := hadded.reads.entries_buryEntry hj1
    rw [hold]
    have hlive := Stored.isLive_of_isRecord hjrec
    refine ⟨buryEntry s.pageSize vol1 old, p, addr, i, hplace, hrec,
      hadded.edits_replacing hop hbehind hj hlive ?_ ?_ rfl rfl, ?_⟩
    · rw [hadded.reads.info_buryEntry hj1 hlive, hinfo]
    · rw [hentries]
      exact hindex.bury (h.not_mem_index hj hjrec)
    · rw [h.reads.entries_buryEntry hj]
      exact hadded.entries_buryEntry hj
  · rename_i hold
    subst hchange
    rw [hold]
    exact ⟨vol1, p, addr, i, hplace, hrec, hadded.edits hop hbehind hinfo.symm hindex rfl rfl,
      hadded.entries⟩

theorem Sound.putRecordChange? (h : s.Sound vol) {key : RecordKey} {data : List UInt8} {c : Change}
    (hc : s.putRecordChange? key data = some c) :
    ∃ vol', s.Edits c vol vol' ∧
      (∀ b, b.1 ≠ .record key → (b ∈ bindings vol' ↔ b ∈ bindings vol)) ∧
      (((bindings vol).map (·.1)).count (.record key) ≤ 1 →
        (bindings vol').Perm
          ((.record key, data) :: (bindings vol).filter (·.1 ≠ .record key))) := by
  obtain ⟨vol', -, addr, i, -, hrec, hedits, hentries⟩ := h.entries_putRecordChange? hc
  obtain ⟨hothers, hfilter⟩ := h.bindings_withoutRecord key
  have hbindings := bindings_append hentries (Stored.binding?_eq_record_iff.mpr hrec)
  refine ⟨vol', hedits, fun b hb => ?_, fun hcount => ?_⟩
  · rw [mem_iff_of_perm_cons hbindings hb, hothers b hb]
  · exact hbindings.trans ((hfilter hcount).cons _)

theorem Sound.deleteRecordChange?_withoutRecord (h : s.Sound vol) {key : RecordKey} {c : Change}
    (hc : s.deleteRecordChange? key = some c) : s.Edits c vol (s.withoutRecord vol key) := by
  obtain ⟨a, ha, rfl⟩ := Option.map_eq_some_iff.mp hc
  obtain ⟨i, hi, hrec⟩ := h.recordAddress?_eq_some ha
  rw [withoutRecord, ha]
  exact (h.burial hi (Stored.binding?_eq_record_iff.mpr hrec)
    (h.indexes.bury (h.not_mem_index hi hrec))).1

theorem Sound.deleteRecordChange? (h : s.Sound vol) {key : RecordKey} {c : Change}
    (hc : s.deleteRecordChange? key = some c) :
    ∃ vol', s.Edits c vol vol' ∧
      (∀ b, b.1 ≠ .record key → (b ∈ bindings vol' ↔ b ∈ bindings vol)) ∧
      (((bindings vol).map (·.1)).count (.record key) ≤ 1 →
        (bindings vol').Perm ((bindings vol).filter (·.1 ≠ .record key))) :=
  ⟨_, h.deleteRecordChange?_withoutRecord hc, h.bindings_withoutRecord key⟩

end Store

end FlashBasic
