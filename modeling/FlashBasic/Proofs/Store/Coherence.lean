import FlashBasic.Proofs.Store.Search
import FlashBasic.Proofs.Store.Volume

/-!
A store is coherent when its bookkeeping agrees with flash: the figures of every page are those of
its layout, and the index lists the addresses of the lines in the order of their numbers.

`bindings` lists what a volume holds: texts under line numbers and data under record keys. In a
coherent store every lookup can be answered from it.

* `Store.Coherent.closest_eq`, `Store.Coherent.find?_eq_some_iff` for line numbers,
* `Store.Coherent.lineText?_eq_some_iff` for the text of a line,
* `Store.Coherent.record?_eq_some_iff` for records.
-/

namespace FlashBasic

set_option autoImplicit false

open Item (Stored)
open Page (Layout)

/-! ## Lines and records among the items -/

namespace Item

theorem Kind.ofId_eq_line {id n : UInt16} : Kind.ofId id = .line n ↔
    id = n ∧ id ≠ tombstoneId ∧ id ≠ recordId ∧ id ≠ freeId := by
  unfold Kind.ofId
  by_cases h0 : id = tombstoneId
  · simp [h0]
  · by_cases h1 : id = recordId
    · rw [if_neg h0, if_pos h1]
      simp [h1]
    · by_cases h2 : id = freeId
      · rw [if_neg h0, if_neg h1, if_pos h2]
        simp [h2]
      · rw [if_neg h0, if_neg h1, if_neg h2]
        simp [h0, h1, h2]

namespace Stored

def number? (i : Stored) : Option UInt16 :=
  match i.kind with
  | .line n => some n
  | _ => none

/-- The item is the record of `data` under `key`. -/
def IsRecord (i : Stored) (key : RecordKey) (data : List UInt8) : Prop :=
  i.kind = .record ∧ i.payload = LittleEndian.ofUInt32 key ++ data

theorem number?_eq_some_iff {i : Stored} {n : UInt16} : i.number? = some n ↔ i.kind = .line n := by
  unfold number?
  split
  · rename_i m hm
    rw [hm, Option.some.injEq, Kind.line.injEq]
  · rename_i hne
    constructor
    · intro h
      cases h
    · intro h
      exact absurd h (hne n)

theorem id_of_number? {i : Stored} {n : UInt16} (h : i.number? = some n) : i.header.id = n :=
  (Kind.ofId_eq_line.mp (number?_eq_some_iff.mp h)).1

@[simp] theorem number?_bury (i : Stored) : i.bury.number? = none := by
  simp [number?]

theorem isLive_of_number? {i : Stored} {n : UInt16} (h : i.number? = some n) : i.isLive = true := by
  simp [isLive, number?_eq_some_iff.mp h]

theorem isLive_of_isRecord {i : Stored} {key : RecordKey} {data : List UInt8}
    (h : i.IsRecord key data) : i.isLive = true := by
  simp [isLive, h.1]

theorem IsRecord.number? {i : Stored} {key : RecordKey} {data : List UInt8}
    (h : i.IsRecord key data) : i.number? = none := by
  simp [Stored.number?, h.1]

theorem isRecord_of_isPrefixOf {i : Stored} {key : RecordKey}
    (h : i.kind = .record ∧ (LittleEndian.ofUInt32 key).isPrefixOf i.payload) :
    i.IsRecord key (i.payload.drop 4) := by
  obtain ⟨data, hdata⟩ := List.isPrefixOf_iff_prefix.mp h.2
  refine ⟨h.1, ?_⟩
  rw [← hdata]
  rfl

theorem IsRecord.isPrefixOf {i : Stored} {key : RecordKey} {data : List UInt8}
    (h : i.IsRecord key data) :
    i.kind = .record ∧ (LittleEndian.ofUInt32 key).isPrefixOf i.payload :=
  ⟨h.1, List.isPrefixOf_iff_prefix.mpr ⟨data, h.2.symm⟩⟩

end Stored

end Item

/-! ## What a volume holds -/

/-- What something is stored under. -/
inductive Name where
  | line (number : UInt16)
  | record (key : RecordKey)
deriving DecidableEq

namespace Item.Stored

/-- What the item holds, and under which name. -/
def binding? (i : Stored) : Option (Name × List UInt8) :=
  match i.kind with
  | .line n => some (.line n, i.payload)
  | .record =>
    if 4 ≤ i.payload.length then
      some (.record (LittleEndian.toUInt32 i.payload), i.payload.drop 4)
    else none
  | _ => none

@[simp] theorem binding?_bury (i : Stored) : i.bury.binding? = none := by
  simp [binding?]

theorem binding?_eq_line_iff {i : Stored} {n : UInt16} {text : List UInt8} :
    i.binding? = some (.line n, text) ↔ i.number? = some n ∧ i.payload = text := by
  unfold binding? number?
  cases i.kind with
  | line m => simp
  | record =>
    dsimp only
    split <;> simp
  | tombstone => simp
  | free => simp

theorem binding?_eq_record_iff {i : Stored} {key : RecordKey} {data : List UInt8} :
    i.binding? = some (.record key, data) ↔ i.IsRecord key data := by
  unfold binding? IsRecord
  cases i.kind with
  | line m => simp
  | tombstone => simp
  | free => simp
  | record =>
    dsimp only
    constructor
    · intro h
      split at h
      · rename_i hlen
        obtain ⟨a, b, c, d, rest, hpayload⟩ :
            ∃ a b c d rest, i.payload = a :: b :: c :: d :: rest := by
          match i.payload, hlen with
          | a :: b :: c :: d :: rest, _ => exact ⟨a, b, c, d, rest, rfl⟩
        rw [hpayload] at h ⊢
        cases h
        refine ⟨rfl, ?_⟩
        have hkey : LittleEndian.toUInt32 (a :: b :: c :: d :: rest) =
            LittleEndian.toUInt32 [a, b, c, d] := rfl
        rw [hkey, LittleEndian.ofUInt32_toUInt32]
        rfl
      · cases h
    · rintro ⟨-, hpayload⟩
      have hlen : 4 ≤ i.payload.length := by
        rw [hpayload, List.length_append, LittleEndian.length_ofUInt32]
        omega
      rw [if_pos hlen, hpayload, LittleEndian.toUInt32_ofUInt32]
      rfl

theorem isLive_of_binding? {i : Stored} {b : Name × List UInt8} (h : i.binding? = some b) :
    i.isLive = true := by
  obtain ⟨name, data⟩ := b
  cases name with
  | line n => exact isLive_of_number? (binding?_eq_line_iff.mp h).1
  | record key => exact isLive_of_isRecord (binding?_eq_record_iff.mp h)

end Item.Stored

/-- The items of a volume, page by page. -/
def contents (vol : List Layout) : List Stored := vol.flatMap (·.items)

theorem map_snd_entries (pageSize : Nat) (vol : List Layout) :
    (entries pageSize vol).map (·.2) = contents vol := by
  rw [entries]
  generalize 0 = p
  induction vol generalizing p with
  | nil => rfl
  | cons L vol ih =>
    rw [entriesFrom, List.map_append, ih, List.map_map]
    simp only [contents, List.flatMap_cons]
    congr 1
    exact Page.map_snd_places _ _

theorem mem_contents {pageSize : Nat} {vol : List Layout} {i : Stored} :
    i ∈ contents vol ↔ ∃ a, (a, i) ∈ entries pageSize vol := by
  rw [← map_snd_entries pageSize vol]
  simp

/-- What a volume holds, in the order of the items. -/
def bindings (vol : List Layout) : List (Name × List UInt8) := (contents vol).filterMap (·.binding?)

theorem mem_bindings {vol : List Layout} {b : Name × List UInt8} :
    b ∈ bindings vol ↔ ∃ i ∈ contents vol, i.binding? = some b :=
  List.mem_filterMap

/-! ## Sorted lists -/

section Sorted

variable {α : Type} {test : α → Bool} {xs : List α}
  (h : xs.Pairwise fun x y => test y → test x)
include h

theorem of_mem_take_countP {x : α} (hx : x ∈ xs.take (xs.countP test)) : test x = true := by
  obtain ⟨k, hk, rfl⟩ := List.mem_iff_getElem.mp hx
  rw [List.length_take] at hk
  rw [List.getElem_take]
  exact (Search.passes_iff_lt_countP test xs h k (by omega)).mpr (by omega)

theorem not_of_mem_drop_countP {x : α} (hx : x ∈ xs.drop (xs.countP test)) : ¬ test x = true := by
  obtain ⟨k, hk, rfl⟩ := List.mem_iff_getElem.mp hx
  rw [List.length_drop] at hk
  rw [List.getElem_drop, Search.passes_iff_lt_countP test xs h _ (by omega)]
  omega

end Sorted

theorem pairwise_below {α : Type} {g : α → UInt16} {xs : List α}
    (h : xs.Pairwise fun x y => g x < g y) (n : UInt16) :
    xs.Pairwise fun x y => decide (g y < n) = true → decide (g x < n) = true := by
  refine h.imp ?_
  intro x y hxy hy
  simp only [decide_eq_true_eq] at hy ⊢
  exact UInt16.lt_trans hxy hy

/-- In strict order, an element stands where the lower ones end. -/
theorem eq_countP_of_getElem? {α : Type} {g : α → UInt16} {xs : List α}
    (h : xs.Pairwise fun x y => g x < g y) {k : Nat} {x : α} (hx : xs[k]? = some x) :
    k = xs.countP (fun y => decide (g y < g x)) := by
  obtain ⟨hk, rfl⟩ := List.getElem?_eq_some_iff.mp hx
  have hat := Search.passes_iff_lt_countP (fun y => decide (g y < g xs[k])) xs
    (pairwise_below h (g xs[k]))
  have hle := List.countP_le_length (p := fun y => decide (g y < g xs[k])) (l := xs)
  have hnot : ¬ k < xs.countP (fun y => decide (g y < g xs[k])) := by
    rw [← hat k hk]
    simp
  by_contra hne
  have hlt : xs.countP (fun y => decide (g y < g xs[k])) < k := by omega
  have hless := List.pairwise_iff_getElem.mp h _ k (by omega) hk hlt
  have hself := (hat _ (by omega)).mp (decide_eq_true hless)
  exact Nat.lt_irrefl _ hself

/-! ## Indexes -/

/-- The addresses of the lines among some entries, in the order of their numbers. -/
structure Indexes (es : List (Nat × Stored)) (index : List Nat) : Prop where
  mem : ∀ a, a ∈ index ↔ ∃ i n, (a, i) ∈ es ∧ i.number? = some n
  sorted : index.Pairwise fun a b => ∀ i j n m, (a, i) ∈ es → (b, j) ∈ es → i.number? = some n →
    j.number? = some m → n < m

/-- Deleting an item leaves the other lines. -/
theorem mem_map_buryIf {es : List (Nat × Stored)} {a b : Nat} {j : Stored} {m : UInt16} :
    (b, j) ∈ es.map (buryIf a) ∧ j.number? = some m ↔
      b ≠ a ∧ (b, j) ∈ es ∧ j.number? = some m := by
  constructor
  · rintro ⟨hj, hm⟩
    obtain ⟨⟨c, k⟩, hk, he⟩ := List.mem_map.mp hj
    cases he
    by_cases hc : c = a
    · simp [hc] at hm
    · rw [if_neg hc] at hm ⊢
      exact ⟨hc, hk, hm⟩
  · rintro ⟨hb, hj, hm⟩
    exact ⟨List.mem_map.mpr ⟨(b, j), hj, by rw [buryIf, if_neg hb]⟩, hm⟩

namespace Indexes

variable {es : List (Nat × Stored)} {index : List Nat}

theorem perm {es' : List (Nat × Stored)} (h : Indexes es index) (hperm : es'.Perm es) :
    Indexes es' index := by
  constructor
  · intro a
    simp only [h.mem, hperm.mem_iff]
  · simp only [hperm.mem_iff]
    exact h.sorted

theorem nodup (h : Indexes es index) : index.Nodup := by
  refine h.sorted.imp_of_mem ?_
  rintro a b ha - hlt rfl
  obtain ⟨i, n, hi, hn⟩ := (h.mem a).mp ha
  exact UInt16.lt_irrefl _ (hlt i i n n hi hi hn hn)

/-- A new line comes between those of lower and those of higher numbers. -/
theorem insert {before after : List Nat} (h : Indexes es (before ++ after)) {a : Nat} {i : Stored}
    {n : UInt16} (hn : i.number? = some n) (hnew : ∀ j, (a, j) ∉ es)
    (hbefore : ∀ b ∈ before, ∀ j m, (b, j) ∈ es → j.number? = some m → m < n)
    (hafter : ∀ b ∈ after, ∀ j m, (b, j) ∈ es → j.number? = some m → n < m) :
    Indexes ((a, i) :: es) (before ++ a :: after) := by
  have hne : ∀ b ∈ before ++ after, b ≠ a := by
    rintro b hb rfl
    obtain ⟨j, -, hj, -⟩ := (h.mem b).mp hb
    exact hnew j hj
  have hold : ∀ {b j}, b ≠ a → (b, j) ∈ (a, i) :: es → (b, j) ∈ es := by
    intro b j hb hj
    rcases List.mem_cons.mp hj with hj | hj
    · cases hj
      exact absurd rfl hb
    · exact hj
  have hat : ∀ {j}, (a, j) ∈ (a, i) :: es → j = i := by
    intro j hj
    rcases List.mem_cons.mp hj with hj | hj
    · cases hj
      rfl
    · exact absurd hj (hnew j)
  constructor
  · intro b
    rw [List.perm_middle.mem_iff, List.mem_cons, h.mem b]
    constructor
    · rintro (rfl | ⟨j, m, hj, hm⟩)
      · exact ⟨i, n, List.mem_cons_self, hn⟩
      · exact ⟨j, m, List.mem_cons_of_mem _ hj, hm⟩
    · rintro ⟨j, m, hj, hm⟩
      rcases List.mem_cons.mp hj with hj | hj
      · cases hj
        exact Or.inl rfl
      · exact Or.inr ⟨j, m, hj, hm⟩
  · have hsorted : (before ++ after).Pairwise fun b c => ∀ j k m l, (b, j) ∈ (a, i) :: es →
        (c, k) ∈ (a, i) :: es → j.number? = some m → k.number? = some l → m < l := by
      refine h.sorted.imp_of_mem ?_
      intro b c hb hc hlt j k m l hj hk
      exact hlt j k m l (hold (hne b hb) hj) (hold (hne c hc) hk)
    obtain ⟨h1, h2, h3⟩ := List.pairwise_append.mp hsorted
    refine List.pairwise_append.mpr ⟨h1, List.pairwise_cons.mpr ⟨?_, h2⟩, ?_⟩
    · intro c hc j k m l hj hk hm hl
      rw [hat hj, hn, Option.some.injEq] at hm
      have := hafter c hc k l (hold (hne c (List.mem_append_right _ hc)) hk) hl
      exact hm ▸ this
    · intro b hb c hc
      rcases List.mem_cons.mp hc with rfl | hc
      · intro j k m l hj hk hm hl
        rw [hat hk, hn, Option.some.injEq] at hl
        have := hbefore b hb j m (hold (hne b (List.mem_append_left _ hb)) hj) hm
        exact hl ▸ this
      · exact h3 b hb c hc

/-- A new item that is no line changes nothing. -/
theorem cons (h : Indexes es index) {a : Nat} {i : Stored} (hn : i.number? = none) :
    Indexes ((a, i) :: es) index := by
  have hold : ∀ {b j m}, (b, j) ∈ (a, i) :: es → j.number? = some m → (b, j) ∈ es := by
    intro b j m hj hm
    rcases List.mem_cons.mp hj with hj | hj
    · cases hj
      rw [hn] at hm
      cases hm
    · exact hj
  constructor
  · intro b
    rw [h.mem b]
    constructor
    · rintro ⟨j, m, hj, hm⟩
      exact ⟨j, m, List.mem_cons_of_mem _ hj, hm⟩
    · rintro ⟨j, m, hj, hm⟩
      exact ⟨j, m, hold hj hm, hm⟩
  · refine h.sorted.imp ?_
    intro b c hlt j k m l hj hk hm hl
    exact hlt j k m l (hold hj hm) (hold hk hl) hm hl

/-- Deleting a line takes its address out. -/
theorem erase {before after : List Nat} {a : Nat} (h : Indexes es (before ++ a :: after)) :
    Indexes (es.map (buryIf a)) (before ++ after) := by
  obtain ⟨hnot, -⟩ := List.nodup_cons.mp (List.perm_middle.nodup_iff.mp h.nodup)
  have hmem : ∀ b, b ∈ before ++ after ↔ b ≠ a ∧ b ∈ before ++ a :: after := by
    intro b
    rw [List.perm_middle.mem_iff, List.mem_cons]
    constructor
    · intro hb
      exact ⟨fun hc => hnot (hc ▸ hb), Or.inr hb⟩
    · rintro ⟨hne, rfl | hb⟩
      · exact absurd rfl hne
      · exact hb
  constructor
  · intro b
    simp only [mem_map_buryIf, hmem, h.mem b]
    constructor
    · rintro ⟨hb, j, m, hj, hm⟩
      exact ⟨j, m, hb, hj, hm⟩
    · rintro ⟨j, m, hb, hj, hm⟩
      exact ⟨hb, j, m, hj, hm⟩
  · refine (h.sorted.sublist ((List.sublist_cons_self _ _).append_left _)).imp ?_
    intro b c hlt j k m l hj hk hm hl
    exact hlt j k m l (mem_map_buryIf.mp ⟨hj, hm⟩).2.1 (mem_map_buryIf.mp ⟨hk, hl⟩).2.1 hm hl

/-- Deleting what is no line changes nothing. -/
theorem bury (h : Indexes es index) {a : Nat} (ha : a ∉ index) :
    Indexes (es.map (buryIf a)) index := by
  constructor
  · intro b
    simp only [mem_map_buryIf]
    constructor
    · intro hb
      obtain ⟨j, m, hj, hm⟩ := (h.mem b).mp hb
      exact ⟨j, m, fun hc => ha (hc ▸ hb), hj, hm⟩
    · rintro ⟨j, m, -, hj, hm⟩
      exact (h.mem b).mpr ⟨j, m, hj, hm⟩
  · refine h.sorted.imp ?_
    intro b c hlt j k m l hj hk hm hl
    exact hlt j k m l (mem_map_buryIf.mp ⟨hj, hm⟩).2.1 (mem_map_buryIf.mp ⟨hk, hl⟩).2.1 hm hl

/-- Where flash shows the numbers of the lines, it shows them in strict order. -/
theorem ascending {f : Flash} (h : Indexes es index)
    (hid : ∀ b j m, (b, j) ∈ es → j.number? = some m → f.itemId b = m) :
    index.Pairwise fun a b => f.itemId a < f.itemId b := by
  refine h.sorted.imp_of_mem ?_
  intro a b ha hb hlt
  obtain ⟨i, n, hi, hn⟩ := (h.mem a).mp ha
  obtain ⟨j, m, hj, hm⟩ := (h.mem b).mp hb
  rw [hid a i n hi hn, hid b j m hj hm]
  exact hlt i j n m hi hj hn hm

/-- Two lines differ in number. -/
theorem address_unique (h : Indexes es index) {a b : Nat} {i j : Stored} {n : UInt16}
    (hi : (a, i) ∈ es) (hj : (b, j) ∈ es) (hin : i.number? = some n) (hjn : j.number? = some n) :
    a = b := by
  obtain ⟨k, hk, rfl⟩ := List.mem_iff_getElem.mp ((h.mem a).mpr ⟨i, n, hi, hin⟩)
  obtain ⟨l, hl, rfl⟩ := List.mem_iff_getElem.mp ((h.mem b).mpr ⟨j, n, hj, hjn⟩)
  have hlt := List.pairwise_iff_getElem.mp h.sorted
  rcases Nat.lt_trichotomy k l with hkl | rfl | hkl
  · exact absurd (hlt k l hk hl hkl i j n n hi hj hin hjn) (UInt16.lt_irrefl _)
  · rfl
  · exact absurd (hlt l k hl hk hkl j i n n hj hi hjn hin) (UInt16.lt_irrefl _)

/-- Some entries have one index. -/
theorem eq_of_indexes {index' : List Nat} (h : Indexes es index) (h' : Indexes es index') :
    index = index' := by
  have hperm : index.Perm index' := by
    rw [List.perm_ext_iff_of_nodup h.nodup h'.nodup]
    intro a
    rw [h.mem, h'.mem]
  refine hperm.eq_of_pairwise ?_ h.sorted h'.sorted
  intro a b ha hb hab hba
  obtain ⟨i, n, hi, hn⟩ := (h.mem a).mp ha
  obtain ⟨j, m, hj, hm⟩ := (h'.mem b).mp hb
  exact absurd (hab i j n m hi hj hn hm) (UInt16.lt_asymm (hba j i m n hj hi hm hn))

end Indexes

namespace Store

/-! ## Coherence -/

structure Coherent (s : Store) (vol : List Layout) : Prop where
  reads : Reads s.flash s.pageSize vol
  pages : s.pages = vol.map (·.info)
  indexes : Indexes (entries s.pageSize vol) s.index

/-- The text of the line numbered `n`. -/
def lineText? (s : Store) (n : UInt16) : Option (List UInt8) :=
  (s.find? n).bind fun pos => (s.line? pos).map (·.2)

theorem lineNumber?_eq (s : Store) (pos : Nat) : s.lineNumber? pos = s.ids[pos]? := by
  rw [lineNumber?, ids, List.getElem?_map]

/-- Flash shows the lines of the index in strict order. -/
def Ascending (s : Store) : Prop :=
  s.index.Pairwise fun a b => s.flash.itemId a < s.flash.itemId b

namespace Ascending

variable {s : Store} (h : s.Ascending)
include h

theorem ids_sorted : s.ids.Pairwise (· < ·) := by
  rw [ids, List.pairwise_map]
  exact h

theorem closest_eq (n : UInt16) : s.closest n = s.ids.countP (· < n) := by
  rw [closest, lowerBound, Search.boundary_eq_countP _ _ (pairwise_below h n), ids,
    List.countP_map]
  rfl

theorem find?_eq_some_iff {n : UInt16} {pos : Nat} :
    s.find? n = some pos ↔ s.ids[pos]? = some n := by
  rw [find?, lineNumber?_eq, h.closest_eq]
  constructor
  · intro hfind
    split at hfind
    · cases hfind
      assumption
    · cases hfind
  · intro hpos
    have hcount := eq_countP_of_getElem? (g := id) h.ids_sorted hpos
    simp only [id] at hcount
    rw [← hcount, if_pos hpos]

/-- The line of a number is found at its address. -/
theorem exists_find? {n : UInt16} {a : Nat} (ha : a ∈ s.index) (hid : s.flash.itemId a = n) :
    ∃ pos, s.find? n = some pos ∧ s.line? pos = some (n, s.flash.payload a) := by
  obtain ⟨pos, hpos⟩ := List.mem_iff_getElem?.mp ha
  refine ⟨pos, h.find?_eq_some_iff.mpr ?_, ?_⟩
  · rw [ids, List.getElem?_map, hpos, Option.map_some, hid]
  · rw [line?, hpos, Option.map_some, hid]

theorem lineText?_eq_some_iff {n : UInt16} {text : List UInt8} :
    s.lineText? n = some text ↔
      ∃ a ∈ s.index, s.flash.itemId a = n ∧ s.flash.payload a = text := by
  rw [lineText?, Option.bind_eq_some_iff]
  constructor
  · rintro ⟨pos, hpos, hline⟩
    obtain ⟨⟨m, t⟩, hm, rfl⟩ := Option.map_eq_some_iff.mp hline
    obtain ⟨a, ha, heq⟩ := Option.map_eq_some_iff.mp hm
    cases heq
    have hid := h.find?_eq_some_iff.mp hpos
    rw [ids, List.getElem?_map, ha, Option.map_some, Option.some.injEq] at hid
    exact ⟨a, List.mem_of_getElem? ha, hid, rfl⟩
  · rintro ⟨a, ha, hid, rfl⟩
    obtain ⟨pos, hfind, hline⟩ := h.exists_find? ha hid
    exact ⟨pos, hfind, by rw [hline, Option.map_some]⟩

end Ascending

namespace Coherent

variable {s : Store} {vol : List Layout} (h : s.Coherent vol)
include h

theorem itemId_of_number? {a : Nat} {i : Stored} {n : UInt16}
    (hi : (a, i) ∈ entries s.pageSize vol) (hn : i.number? = some n) : s.flash.itemId a = n := by
  rw [h.reads.itemId_entry hi, Stored.id_of_number? hn]

theorem sorted : s.Ascending :=
  h.indexes.ascending fun _ _ _ hi hn => h.itemId_of_number? hi hn

theorem ids_sorted : s.ids.Pairwise (· < ·) := h.sorted.ids_sorted

theorem mem_ids {n : UInt16} : n ∈ s.ids ↔ ∃ i ∈ contents vol, i.number? = some n := by
  simp only [ids, List.mem_map]
  constructor
  · rintro ⟨a, ha, rfl⟩
    obtain ⟨i, n, hi, hn⟩ := (h.indexes.mem a).mp ha
    exact ⟨i, mem_contents.mpr ⟨a, hi⟩, by rw [h.itemId_of_number? hi hn, hn]⟩
  · rintro ⟨i, hi, hn⟩
    obtain ⟨a, ha⟩ := mem_contents.mp hi
    exact ⟨a, (h.indexes.mem a).mpr ⟨i, n, ha, hn⟩, h.itemId_of_number? ha hn⟩

theorem closest_eq (n : UInt16) : s.closest n = s.ids.countP (· < n) := h.sorted.closest_eq n

theorem find?_eq_some_iff {n : UInt16} {pos : Nat} :
    s.find? n = some pos ↔ s.ids[pos]? = some n := h.sorted.find?_eq_some_iff

theorem find?_isSome_iff {n : UInt16} : (s.find? n).isSome ↔ n ∈ s.ids := by
  rw [Option.isSome_iff_exists, List.mem_iff_getElem?]
  simp only [h.find?_eq_some_iff]

theorem lineText?_eq_some_iff {n : UInt16} {text : List UInt8} :
    s.lineText? n = some text ↔ (.line n, text) ∈ bindings vol := by
  simp only [h.sorted.lineText?_eq_some_iff, mem_bindings, Stored.binding?_eq_line_iff]
  constructor
  · rintro ⟨a, ha, hid, rfl⟩
    obtain ⟨i, m, hi, hm⟩ := (h.indexes.mem a).mp ha
    rw [h.itemId_of_number? hi hm] at hid
    exact ⟨i, mem_contents.mpr ⟨a, hi⟩, hid ▸ hm, (h.reads.payload_entry hi).symm⟩
  · rintro ⟨i, hi, hn, rfl⟩
    obtain ⟨a, ha⟩ := mem_contents.mp hi
    exact ⟨a, (h.indexes.mem a).mpr ⟨i, n, ha, hn⟩, h.itemId_of_number? ha hn,
      h.reads.payload_entry ha⟩

end Coherent

/-! ## Looking up records -/

/-- The address of an entry that is a record with the given key bytes. -/
def keyedAddress? (key : List UInt8) (e : Nat × Stored) : Option Nat :=
  if e.2.kind = .record ∧ key.isPrefixOf e.2.payload then some e.1 else none

namespace Coherent

variable {s : Store} {vol : List Layout} (h : s.Coherent vol)
include h

theorem recordOnPage?_eq (key : List UInt8) {p : Nat} {L : Layout} (hL : vol[p]? = some L) :
    s.recordOnPage? key p =
      (L.places.map fun e => (p * s.pageSize + e.1, e.2)).findSome? (keyedAddress? key) := by
  rw [recordOnPage?, h.reads.page p L hL, Layout.scan_bytes]
  dsimp only
  rw [List.findSome?_map, List.findSome?_map, ← List.head?_filterMap, ← List.head?_filterMap]
  refine congrArg List.head? (List.filterMap_congr ?_)
  rintro ⟨o, i⟩ hi
  have hentry : (p * s.pageSize + o, i) ∈ entries s.pageSize vol :=
    mem_entries.mpr ⟨p, L, o, hL, hi, rfl⟩
  simp only [Function.comp_apply, keyedAddress?, h.reads.payload_entry hentry]
  rfl

/-- The first record of a key is the first among all entries. -/
theorem recordAddress?_eq (key : RecordKey) :
    s.recordAddress? key =
      (entries s.pageSize vol).findSome? (keyedAddress? (LittleEndian.ofUInt32 key)) := by
  have hpages : s.pages.length = vol.length := by rw [h.pages, List.length_map]
  have hloop : ∀ (vol' : List Layout) (p : Nat),
      (∀ k L, vol'[k]? = some L → vol[p + k]? = some L) →
      (List.range' p vol'.length).findSome? (s.recordOnPage? (LittleEndian.ofUInt32 key)) =
        (entriesFrom s.pageSize p vol').findSome? (keyedAddress? (LittleEndian.ofUInt32 key)) := by
    intro vol'
    induction vol' with
    | nil => intro p _; rfl
    | cons L vol' ih =>
      intro p hvol
      have hrest : ∀ k L', vol'[k]? = some L' → vol[p + 1 + k]? = some L' := by
        intro k L' hL'
        have := hvol (k + 1) L' hL'
        rwa [Nat.add_right_comm, Nat.add_assoc]
      have hpage := h.recordOnPage?_eq (LittleEndian.ofUInt32 key) (hvol 0 L rfl)
      rw [Nat.add_zero] at hpage
      rw [List.length_cons, List.range'_succ, List.findSome?_cons, ih (p + 1) hrest, entriesFrom,
        List.findSome?_append, hpage]
      cases (L.places.map fun e => (p * s.pageSize + e.1, e.2)).findSome?
        (keyedAddress? (LittleEndian.ofUInt32 key)) <;> rfl
  rw [recordAddress?, hpages, List.range_eq_range']
  exact hloop vol 0 fun k L hL => by rwa [Nat.zero_add]

theorem recordAddress?_eq_some {key : RecordKey} {a : Nat} (ha : s.recordAddress? key = some a) :
    ∃ i, (a, i) ∈ entries s.pageSize vol ∧ i.IsRecord key (i.payload.drop 4) := by
  rw [h.recordAddress?_eq] at ha
  obtain ⟨⟨b, i⟩, hi, hsome⟩ := List.exists_of_findSome?_eq_some ha
  rw [keyedAddress?] at hsome
  split at hsome
  · rename_i hrec
    cases hsome
    exact ⟨i, hi, Stored.isRecord_of_isPrefixOf hrec⟩
  · cases hsome

theorem recordAddress?_eq_none {key : RecordKey} (hnone : s.recordAddress? key = none) {i : Stored}
    (hi : i ∈ contents vol) (data : List UInt8) : ¬ i.IsRecord key data := by
  intro hrec
  obtain ⟨a, ha⟩ := mem_contents.mp hi
  rw [h.recordAddress?_eq, List.findSome?_eq_none_iff] at hnone
  have := hnone (a, i) ha
  rw [keyedAddress?, if_pos hrec.isPrefixOf] at this
  cases this

/-- Where no key has two records, looking up a key gives its record. -/
theorem record?_eq_some_iff (hkeys : ((bindings vol).map (·.1)).Nodup) {key : RecordKey}
    {data : List UInt8} : s.record? key = some data ↔ (.record key, data) ∈ bindings vol := by
  rw [record?, Option.map_eq_some_iff]
  constructor
  · rintro ⟨a, ha, rfl⟩
    obtain ⟨i, hi, hrec⟩ := h.recordAddress?_eq_some ha
    rw [h.reads.payload_entry hi]
    exact mem_bindings.mpr ⟨i, mem_contents.mpr ⟨a, hi⟩, Stored.binding?_eq_record_iff.mpr hrec⟩
  · intro hmem
    cases haddr : s.recordAddress? key with
    | none =>
      obtain ⟨i, hi, hbind⟩ := mem_bindings.mp hmem
      exact absurd (Stored.binding?_eq_record_iff.mp hbind) (h.recordAddress?_eq_none haddr hi data)
    | some a =>
      obtain ⟨i, hi, hrec⟩ := h.recordAddress?_eq_some haddr
      have hfirst : (Name.record key, i.payload.drop 4) ∈ bindings vol :=
        mem_bindings.mpr ⟨i, mem_contents.mpr ⟨a, hi⟩, Stored.binding?_eq_record_iff.mpr hrec⟩
      have heq := List.inj_on_of_nodup_map hkeys hfirst hmem rfl
      refine ⟨a, rfl, ?_⟩
      rw [h.reads.payload_entry hi]
      exact congrArg Prod.snd heq

end Coherent

end Store

end FlashBasic
