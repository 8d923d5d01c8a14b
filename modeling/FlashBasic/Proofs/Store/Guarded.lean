import FlashBasic.Proofs.Store.Discipline

/-!
The store with its accesses guarded. `Guarded.perform` does what `Store.perform` does and stops with
a `Fault` where something is read or written that is not there:

* flash outside the page that is meant, or not in whole words (`Guarded.read`, `Guarded.apply`),
* an item on another page than the one it was read from or meant for (`Guarded.scan`, `OnPage`),
* a position that a list does not have (`Guarded.present`),
* a difference below zero (`Guarded.minus`) or an age that does not fit its word (`Guarded.succ`),
* a loop that is not over after the steps it is given.

The second half of the module says, step by step, where a guarded step does not stop and is the step
of the store (`_ok`). `Readable` is what this takes of the address of an item.
-/

namespace FlashBasic

set_option autoImplicit false

open Item (Stored)
open Page (Layout)

/-- What a guarded computation stops at. -/
inductive Fault where
  | access
  | position
  | underflow
  | overflow
  | endless
deriving DecidableEq, Repr

abbrev Guarded (α : Type) := Except Fault α

instance (pageSize : Nat) (f : Flash) (addr length : Nat) :
    Decidable (Placed pageSize f addr length) :=
  decidable_of_iff (addr % 4 = 0 ∧ length % 4 = 0 ∧ addr / pageSize < f.pageCount pageSize ∧
    addr % pageSize + length ≤ pageSize)
    ⟨fun ⟨h1, h2, h3, h4⟩ => ⟨h1, h2, h3, h4⟩, fun h => ⟨h.1, h.2, h.3, h.4⟩⟩

/-- An operation within flash: it erases one of the pages, or it writes whole words of one page. -/
def Within (pageSize : Nat) (f : Flash) : Flash.Op → Prop
  | .erase p size => size = pageSize ∧ p < f.pageCount pageSize
  | .write addr bytes => Placed pageSize f addr bytes.length

instance (pageSize : Nat) (f : Flash) (op : Flash.Op) : Decidable (Within pageSize f op) :=
  match op with
  | .erase _ _ => inferInstanceAs (Decidable (_ ∧ _))
  | .write _ _ => inferInstanceAs (Decidable (Placed _ _ _ _))

def OnPage (pageSize p : Nat) : Flash.Op → Prop
  | .erase q _ => q = p
  | .write addr _ => addr / pageSize = p

instance (pageSize p : Nat) (op : Flash.Op) : Decidable (OnPage pageSize p op) :=
  match op with
  | .erase _ _ => inferInstanceAs (Decidable (_ = _))
  | .write _ _ => inferInstanceAs (Decidable (_ = _))

namespace Guarded

/-! ## Guards -/

def ensure (c : Prop) [Decidable c] (fault : Fault) : Guarded Unit :=
  if c then .ok () else .error fault

def present {α : Type} : Option α → Guarded α
  | some x => .ok x
  | none => .error .position

def minus (a b : Nat) : Guarded Nat := do
  ensure (b ≤ a) .underflow
  return a - b

def succ (age : UInt32) : Guarded UInt32 := do
  ensure (age.toNat + 1 < 2 ^ 32) .overflow
  return age + 1

def modify {α : Type} (xs : List α) (i : Nat) (g : α → Guarded α) : Guarded (List α) := do
  let x ← present xs[i]?
  return xs.set i (← g x)

/-! ## Flash -/

/-- Reads at an offset from `addr`, within the page of `addr`. -/
def read (f : Flash) (pageSize addr offset length : Nat) : Guarded (List UInt8) := do
  ensure (addr / pageSize < f.pageCount pageSize ∧ addr % pageSize + offset + length ≤ pageSize)
    .access
  return f.slice (addr + offset) length

def header (f : Flash) (pageSize addr : Nat) : Guarded Item.Header := do
  return .decode (← read f pageSize addr 0 Item.headerLength)

def itemId (f : Flash) (pageSize addr : Nat) : Guarded UInt16 := do
  return (← header f pageSize addr).id

def payload (f : Flash) (pageSize addr : Nat) : Guarded (List UInt8) := do
  let h ← header f pageSize addr
  read f pageSize addr Item.headerLength h.payloadLength

def page (f : Flash) (pageSize p : Nat) : Guarded (List UInt8) :=
  read f pageSize (p * pageSize) 0 pageSize

def age (f : Flash) (pageSize p : Nat) : Guarded UInt32 := do
  return LittleEndian.toUInt32 (← read f pageSize (p * pageSize) 0 Page.ageLength)

def bury (f : Flash) (pageSize addr : Nat) : Guarded Flash.Op := do
  return .write addr (← header f pageSize addr).tombstone.encode

def apply (pageSize : Nat) (f : Flash) (op : Flash.Op) : Guarded Flash := do
  ensure (Within pageSize f op) .access
  return f.apply op

def applyAll (pageSize : Nat) (f : Flash) (ops : List Flash.Op) : Guarded Flash :=
  ops.foldlM (apply pageSize) f

/-! ## Pages -/

/-- The walk is over when fewer bytes are left than a header takes. -/
def scanFrom : (fuel offset : Nat) → List UInt8 → Guarded Page.Scan
  | 0, offset, bytes =>
    if bytes.length < Item.headerLength then .ok ⟨[], offset, false⟩ else .error .endless
  | fuel + 1, offset, bytes =>
    if bytes.length < Item.headerLength then .ok ⟨[], offset, false⟩
    else
      let header := Item.Header.decode bytes
      if header.kind = .free then .ok ⟨[], offset, false⟩
      else if Page.fits header.length.toNat bytes.length then do
        let length := header.length.toNat
        let rest ← scanFrom fuel (offset + length) (bytes.drop length)
        return { rest with items := (offset, header) :: rest.items }
      else .ok ⟨[], offset, true⟩

def scan (page : List UInt8) : Guarded Page.Scan := do
  ensure (Page.ageLength ≤ page.length) .position
  let found ← scanFrom page.length Page.ageLength (page.drop Page.ageLength)
  ensure (∀ e ∈ found.items, e.1 + e.2.length.toNat ≤ page.length) .position
  return found

def scanPage (f : Flash) (pageSize p : Nat) : Guarded Page.Scan := do
  scan (← page f pageSize p)

def info (pageSize : Nat) (s : Page.Scan) : Guarded Page.Info := do
  let tail ← minus pageSize s.stop
  let waste := s.items.foldr (Page.wasteOf ·.2 + ·) 0
  return if s.damaged then { free := 0, waste := tail + waste } else { free := tail, waste }

/-! ## Sorting and searching -/

section Order

variable {α : Type} (lt : α → α → Guarded Bool) (test : α → Guarded Bool)

def before (a : Array α) (i j : Nat) : Guarded Bool := do
  lt (← present a[i]?) (← present a[j]?)

def swap (a : Array α) (i j : Nat) : Guarded (Array α) := do
  ensure (i < a.size ∧ j < a.size) .position
  return a.swapIfInBounds i j

def greaterChild (limit : Nat) (a : Array α) (root : Nat) : Guarded Nat :=
  let left := 2 * root + 1
  if left + 1 < limit then do return if ← before lt a left (left + 1) then left + 1 else left
  else .ok left

def siftDown : (fuel root limit : Nat) → Array α → Guarded (Array α)
  | 0, root, limit, a => if limit ≤ 2 * root + 1 then .ok a else .error .endless
  | fuel + 1, root, limit, a =>
    if limit ≤ 2 * root + 1 then .ok a
    else do
      let child ← greaterChild lt limit a root
      if ← before lt a root child then
        siftDown fuel child limit (← swap a root child)
      else return a

def heapify (a : Array α) : Guarded (Array α) :=
  (List.range (a.size / 2)).reverse.foldlM (fun a root => siftDown lt a.size root a.size a) a

def extract (a : Array α) (last : Nat) : Guarded (Array α) := do
  siftDown lt last 0 last (← swap a 0 last)

def sort (a : Array α) : Guarded (Array α) := do
  (List.range' 1 (a.size - 1)).reverse.foldlM (extract lt) (← heapify lt a)

def narrow (xs : List α) : (fuel base size : Nat) → Guarded Nat
  | 0, base, size => if size ≤ 1 then .ok base else .error .endless
  | fuel + 1, base, size =>
    if size ≤ 1 then .ok base
    else do
      let half := size / 2
      let mid := base + half
      let passes ← test (← present xs[mid]?)
      narrow xs fuel (if passes then mid else base) (size - half)

def boundary (xs : List α) : Guarded Nat :=
  if xs.isEmpty then .ok 0
  else do
    let base ← narrow test xs xs.length 0 xs.length
    return if ← test (← present xs[base]?) then base + 1 else base

end Order

def splitAfter (id : Nat → Guarded UInt16) (kept : Nat) : List Nat → Guarded (List Nat × List Nat)
  | [] => .ok ([], [])
  | addr :: rest => do
    if (← id addr) = (← id kept) then
      let (firsts, repeats) ← splitAfter id kept rest
      return (firsts, addr :: repeats)
    else
      let (firsts, repeats) ← splitAfter id addr rest
      return (addr :: firsts, repeats)

def splitRepeats (id : Nat → Guarded UInt16) : List Nat → Guarded (List Nat × List Nat)
  | [] => .ok ([], [])
  | addr :: rest => do
    let (firsts, repeats) ← splitAfter id addr rest
    return (addr :: firsts, repeats)

/-! ## Reading a store from flash -/

def addWaste (f : Flash) (pageSize : Nat) (pages : List Page.Info) (addr : Nat) :
    Guarded (List Page.Info) := do
  let h ← header f pageSize addr
  modify pages (addr / pageSize) fun info => .ok { info with waste := info.waste + h.length.toNat }

def stampErased (pageSize : Nat) : (p : Nat) → (ages : List UInt32) → (last : UInt32) →
    Guarded (List Flash.Op × UInt32)
  | _, [], last => .ok ([], last)
  | p, age :: ages, last =>
    if age = Page.erasedAge then do
      let next ← succ last
      let (ops, final) ← stampErased pageSize (p + 1) ages next
      return (Flash.stamp pageSize p next :: ops, final)
    else stampErased pageSize (p + 1) ages last

def recovery (flash : Flash) (pageSize : Nat) : Guarded Store.Change := do
  let count := flash.size / pageSize
  let ages ← (List.range count).mapM (age flash pageSize)
  let (stamps, lastAge) ← stampErased pageSize 0 ages (Store.newestAge ages)
  let flash ← applyAll pageSize flash stamps
  let scans ← (List.range count).mapM (scanPage flash pageSize)
  let infos ← scans.mapM (info pageSize)
  let found := (scans.mapIdx fun p scan => scan.lines.map (p * pageSize + ·)).flatten
  let sorted ← sort (fun a b => do
    return decide ((← itemId flash pageSize a) < (← itemId flash pageSize b))) found.toArray
  let (index, dropped) ← splitRepeats (itemId flash pageSize) sorted.toList
  let burials ← dropped.mapM (bury flash pageSize)
  let pages ← dropped.foldlM (addWaste flash pageSize) infos
  return { ops := stamps ++ burials, pages, index, lastAge }

def commit (s : Store) (c : Store.Change) : Guarded Store := do
  let flash ← applyAll s.pageSize s.flash c.ops
  return { s with flash, pages := c.pages, index := c.index, lastAge := c.lastAge }

def mount (flash : Flash) (pageSize : Nat) : Guarded Store := do
  commit { flash, pageSize, pages := [], index := [], lastAge := 0 } (← recovery flash pageSize)

/-! ## Lines -/

def lowerBound (f : Flash) (pageSize : Nat) (index : List Nat) (id : UInt16) : Guarded Nat :=
  boundary (fun a => do return decide ((← itemId f pageSize a) < id)) index

/-- The address at a position of an index, if the line there has the number. -/
def lineAt? (f : Flash) (pageSize : Nat) (index : List Nat) (pos : Nat) (id : UInt16) :
    Guarded (Option Nat) :=
  match index[pos]? with
  | none => .ok none
  | some addr => do return if (← itemId f pageSize addr) = id then some addr else none

def find? (s : Store) (id : UInt16) : Guarded (Option Nat) := do
  let pos ← lowerBound s.flash s.pageSize s.index id
  return (← lineAt? s.flash s.pageSize s.index pos id).map fun _ => pos

def line? (s : Store) (pos : Nat) : Guarded (Option (UInt16 × List UInt8)) :=
  match s.index[pos]? with
  | none => .ok none
  | some addr => do
    return some (← itemId s.flash s.pageSize addr, ← payload s.flash s.pageSize addr)

/-- Goes through the pages that pass the test and keeps the best. -/
def choose (pages : List Page.Info) (test : Page.Info → Bool) (better : Nat → Nat → Guarded Bool) :
    Guarded (Option Nat) :=
  (List.range pages.length).foldlM (fun best p => do
    if test (← present pages[p]?) then
      match best with
      | none => return some p
      | some q => return if ← better p q then some p else some q
    else return best) none

def pageFor? (s : Store) (length : Nat) : Guarded (Option Nat) :=
  choose s.pages (length ≤ ·.free) fun p q => do
    return decide ((← age s.flash s.pageSize p) < (← age s.flash s.pageSize q))

def place? (s : Store) (payload : List UInt8) : Guarded (Option (Nat × Nat)) :=
  if Item.length payload.length ≤ Item.maxLength then do
    match ← pageFor? s (Item.length payload.length) with
    | none => return none
    | some p =>
      let info ← present s.pages[p]?
      return some (p, p * s.pageSize + (← minus s.pageSize info.free))
  else .ok none

def encode (id : UInt16) (payload : List UInt8) : Guarded (List UInt8) := do
  let total := Item.length payload.length
  ensure (total ≤ Item.maxLength) .overflow
  let padding ← minus (← minus total Item.headerLength) payload.length
  return Item.Header.encode ⟨id, total.toUInt8, padding.toUInt8⟩ ++ payload ++
    List.replicate padding 0xFF

def takeFree (pages : List Page.Info) (p length : Nat) : Guarded (List Page.Info) :=
  modify pages p fun info => do return { info with free := ← minus info.free length }

def putLineChange? (s : Store) (id : UInt16) (text : List UInt8) :
    Guarded (Option Store.Change) := do
  match ← place? s text with
  | none => return none
  | some (p, addr) =>
    let item := Flash.Op.write addr (← encode id text)
    ensure (OnPage s.pageSize p item) .access
    let flash ← apply s.pageSize s.flash item
    let pages ← takeFree s.pages p (Item.length text.length)
    let pos ← lowerBound flash s.pageSize s.index id
    match ← lineAt? flash s.pageSize s.index pos id with
    | some old =>
      return some {
        ops := [item, ← bury flash s.pageSize old]
        pages := ← addWaste flash s.pageSize pages old
        index := s.index.set pos addr
        lastAge := s.lastAge }
    | none =>
      ensure (pos ≤ s.index.length) .position
      return some {
        ops := [item]
        pages
        index := s.index.insertIdx pos addr
        lastAge := s.lastAge }

def burial (s : Store) (addr : Nat) (index : List Nat) : Guarded Store.Change := do
  return {
    ops := [← bury s.flash s.pageSize addr]
    pages := ← addWaste s.flash s.pageSize s.pages addr
    index
    lastAge := s.lastAge }

def deleteLineChange? (s : Store) (id : UInt16) : Guarded (Option Store.Change) := do
  match ← find? s id with
  | none => return none
  | some pos => return some (← burial s (← present s.index[pos]?) (s.index.eraseIdx pos))

/-! ## Records -/

def recordOnPage? (s : Store) (key : List UInt8) (p : Nat) : Guarded (Option Nat) := do
  (← scanPage s.flash s.pageSize p).items.findSomeM? fun (offset, h) =>
    let addr := p * s.pageSize + offset
    if h.kind = .record then do
      return if key.isPrefixOf (← payload s.flash s.pageSize addr) then some addr else none
    else .ok none

def recordAddress? (s : Store) (key : RecordKey) : Guarded (Option Nat) :=
  (List.range s.pages.length).findSomeM? (recordOnPage? s (LittleEndian.ofUInt32 key))

def record? (s : Store) (key : RecordKey) : Guarded (Option (List UInt8)) := do
  match ← recordAddress? s key with
  | none => return none
  | some addr =>
    let data ← payload s.flash s.pageSize addr
    ensure (4 ≤ data.length) .position
    return some (data.drop 4)

def putRecordChange? (s : Store) (key : RecordKey) (data : List UInt8) :
    Guarded (Option Store.Change) := do
  let payload := LittleEndian.ofUInt32 key ++ data
  match ← place? s payload with
  | none => return none
  | some (p, addr) =>
    let item := Flash.Op.write addr (← encode Item.recordId payload)
    ensure (OnPage s.pageSize p item) .access
    let flash ← apply s.pageSize s.flash item
    let pages ← takeFree s.pages p (Item.length payload.length)
    match ← recordAddress? s key with
    | some old =>
      return some {
        ops := [item, ← bury flash s.pageSize old]
        pages := ← addWaste flash s.pageSize pages old
        index := s.index
        lastAge := s.lastAge }
    | none => return some { ops := [item], pages, index := s.index, lastAge := s.lastAge }

def deleteRecordChange? (s : Store) (key : RecordKey) : Guarded (Option Store.Change) := do
  match ← recordAddress? s key with
  | none => return none
  | some addr => return some (← burial s addr s.index)

/-! ## Erasing and compacting -/

def eraseUsed (pageSize blank : Nat) : (p : Nat) → List Page.Info → (last : UInt32) →
    Guarded (List Flash.Op × UInt32)
  | _, [], last => .ok ([], last)
  | p, info :: pages, last =>
    if info.free = blank then eraseUsed pageSize blank (p + 1) pages last
    else do
      let next ← succ last
      let (ops, final) ← eraseUsed pageSize blank (p + 1) pages next
      return (.erase p pageSize :: Flash.stamp pageSize p next :: ops, final)

def clearChange (s : Store) : Guarded Store.Change := do
  let blank ← minus s.pageSize Page.ageLength
  let (ops, lastAge) ← eraseUsed s.pageSize blank 0 s.pages s.lastAge
  return { ops, pages := s.pages.map fun _ => { free := blank, waste := 0 }, index := [], lastAge }

def compactionTarget? (s : Store) (length scratch : Nat) : Guarded (Option Nat) :=
  if s.pageSize ≤ scratch then
    choose s.pages (Store.worthCompacting length) fun p q => do
      let gain ← present s.pages[p]?
      let best ← present s.pages[q]?
      return decide (best.waste + best.free < gain.waste + gain.free)
  else .ok none

def liveItems (page : List UInt8) : Guarded (List (List UInt8)) := do
  let pieces ← (← scan page).items.mapM fun (offset, h) =>
    if h.kind = .tombstone then .ok none
    else do
      ensure (offset + h.length.toNat ≤ page.length) .position
      return some ((page.drop offset).take h.length.toNat)
  return pieces.filterMap id

def compaction (s : Store) (p : Nat) : Guarded Store.Change := do
  let copy ← page s.flash s.pageSize p
  let renewal := Flash.Op.erase p s.pageSize :: Flash.stamp s.pageSize p (← succ s.lastAge) ::
    Store.writeItems (p * s.pageSize + Page.ageLength) (← liveItems copy)
  ensure (∀ op ∈ renewal, OnPage s.pageSize p op) .access
  let rebuilt ← recovery (← applyAll s.pageSize s.flash renewal) s.pageSize
  return { rebuilt with ops := renewal ++ rebuilt.ops }

/-! ## Requests -/

def change? (s : Store) : Store.Request → Guarded (Option Store.Change)
  | .putLine n text => putLineChange? s n text
  | .deleteLine n => deleteLineChange? s n
  | .putRecord key data => putRecordChange? s key data
  | .deleteRecord key => deleteRecordChange? s key
  | .compact length scratch => do
    match ← compactionTarget? s length scratch with
    | none => return none
    | some p => return some (← compaction s p)
  | .clear => do return some (← clearChange s)
  | .recover => do return some (← recovery s.flash s.pageSize)

def perform (s : Store) (r : Store.Request) : Guarded Store := do
  match ← change? s r with
  | none => return s
  | some c => commit s c

/-! ## Where a guard lets through -/

section Steps

variable {α β : Type}

@[simp] theorem ok_bind (a : α) (k : α → Guarded β) : (Except.ok a : Guarded α) >>= k = k a := rfl

@[simp] theorem pure_eq_ok (a : α) : (pure a : Guarded α) = .ok a := rfl

@[simp] theorem present_some (x : α) : present (some x) = .ok x := rfl

theorem ensure_ok {c : Prop} [Decidable c] (h : c) (fault : Fault) : ensure c fault = .ok () :=
  if_pos h

theorem minus_ok {a b : Nat} (h : b ≤ a) : minus a b = .ok (a - b) := by
  rw [minus, ensure_ok h, ok_bind, pure_eq_ok]

theorem succ_ok {age : UInt32} (h : age.toNat + 1 < 2 ^ 32) : succ age = .ok (age + 1) := by
  rw [succ, ensure_ok h, ok_bind, pure_eq_ok]

theorem modify_ok {xs : List α} {i : Nat} {x : α} {g : α → Guarded α} {g' : α → α}
    (hx : xs[i]? = some x) (hg : g x = .ok (g' x)) : modify xs i g = .ok (xs.modify i g') := by
  rw [modify, hx, present_some, ok_bind, hg, ok_bind, pure_eq_ok, modify_eq_set hx]

theorem mapM_ok {xs : List α} {g : α → Guarded β} {g' : α → β}
    (h : ∀ x ∈ xs, g x = .ok (g' x)) : xs.mapM g = .ok (xs.map g') := by
  induction xs with
  | nil => rfl
  | cons x xs ih =>
    obtain ⟨hx, hxs⟩ := List.forall_mem_cons.mp h
    rw [List.mapM_cons, hx, ok_bind, ih hxs, ok_bind, pure_eq_ok, List.map_cons]

theorem findSomeM?_ok {xs : List α} {g : α → Guarded (Option β)} {g' : α → Option β}
    (h : ∀ x ∈ xs, g x = .ok (g' x)) : xs.findSomeM? g = .ok (xs.findSome? g') := by
  induction xs with
  | nil => rfl
  | cons x xs ih =>
    obtain ⟨hx, hxs⟩ := List.forall_mem_cons.mp h
    rw [List.findSomeM?, hx, ok_bind, List.findSome?_cons]
    cases g' x with
    | none => exact ih hxs
    | some y => rfl

/-- A loop that keeps `P` does not stop if no step from `P` does. -/
theorem foldlM_ok {xs : List α} {g : β → α → Guarded β} {g' : β → α → β} (P : β → Prop)
    (h : ∀ x ∈ xs, ∀ b, P b → g b x = .ok (g' b x) ∧ P (g' b x)) {b : β} (hb : P b) :
    xs.foldlM g b = .ok (xs.foldl g' b) := by
  induction xs generalizing b with
  | nil => rfl
  | cons x xs ih =>
    obtain ⟨hx, hxs⟩ := List.forall_mem_cons.mp h
    obtain ⟨hstep, hnext⟩ := hx b hb
    rw [List.foldlM_cons, hstep, ok_bind, ih hxs hnext, List.foldl_cons]

end Steps

/-! ## Loops that end -/

/-- Every item takes at least four of the bytes that are left. -/
theorem scanFrom_ok (fuel offset : Nat) (bytes : List UInt8) (hfuel : bytes.length ≤ fuel) :
    scanFrom fuel offset bytes = .ok (Page.scanFrom fuel offset bytes) := by
  induction fuel generalizing offset bytes with
  | zero =>
    rw [scanFrom, if_pos (by rw [Item.headerLength]; omega), Page.scanFrom]
  | succ fuel ih =>
    simp only [scanFrom, Page.scanFrom]
    by_cases hshort : bytes.length < Item.headerLength
    · rw [if_pos hshort, if_pos (Or.inl hshort)]
    · rw [if_neg hshort]
      by_cases hfree : (Item.Header.decode bytes).kind = .free
      · rw [if_pos hfree, if_pos (Or.inr hfree)]
      · have hitem : ¬(bytes.length < Item.headerLength ∨
            (Item.Header.decode bytes).kind = .free) := fun hor => hor.elim hshort hfree
        rw [if_neg hfree, if_neg hitem]
        by_cases hfits : Page.fits (Item.Header.decode bytes).length.toNat bytes.length = true
        · have hfour : Item.headerLength ≤ (Item.Header.decode bytes).length.toNat := by
            rw [Page.fits, Bool.and_eq_true, Bool.and_eq_true] at hfits
            exact of_decide_eq_true hfits.1.1
          rw [Item.headerLength] at hfour
          rw [if_pos hfits, if_pos hfits, ih _ _ (by rw [List.length_drop]; omega), ok_bind,
            pure_eq_ok]
        · rw [if_neg hfits, if_neg hfits]

/-- An item that a scan finds ends within the page. -/
theorem item_end_le {page : List UInt8} (h : Page.ageLength ≤ page.length) :
    ∀ e ∈ (Page.scan page).items, e.1 + e.2.length.toNat ≤ page.length := by
  obtain ⟨L, rfl⟩ := Page.exists_layout page h
  rw [Layout.scan_bytes]
  intro e he
  obtain ⟨⟨o, i⟩, hi, rfl⟩ := List.mem_map.mp he
  have hbounds := (Page.places_bounds hi).2
  have hlength := L.length_bytes
  have hitem := i.header_length
  rw [Layout.stop] at hlength
  dsimp only
  omega

theorem scan_ok {page : List UInt8} (h : Page.ageLength ≤ page.length) :
    scan page = .ok (Page.scan page) := by
  have hin := item_end_le h
  rw [Page.scan] at hin ⊢
  rw [scan, ensure_ok h, ok_bind, scanFrom_ok _ _ _ (by rw [List.length_drop]; omega), ok_bind,
    ensure_ok hin, ok_bind, pure_eq_ok]

theorem info_ok {pageSize : Nat} {s : Page.Scan} (h : s.stop ≤ pageSize) :
    info pageSize s = .ok (s.info pageSize) := by
  rw [info, minus_ok h, ok_bind, pure_eq_ok, Page.Scan.info]

section Order

variable {α : Type} {lt : α → α → Guarded Bool} {lt' : α → α → Bool} {P : α → Prop}
  (hlt : ∀ x y, P x → P y → lt x y = .ok (lt' x y))
include hlt

theorem before_ok {a : Array α} (ha : ∀ x ∈ a, P x) {i j : Nat} (hi : i < a.size)
    (hj : j < a.size) : before lt a i j = .ok (HeapSort.before lt' a i j) := by
  have hx : a[i]? = some a[i] := Array.getElem?_eq_getElem hi
  have hy : a[j]? = some a[j] := Array.getElem?_eq_getElem hj
  rw [before, HeapSort.before, hx, hy, present_some, present_some, ok_bind, ok_bind,
    hlt _ _ (ha _ (Array.getElem_mem hi)) (ha _ (Array.getElem_mem hj))]

omit hlt in
theorem swap_ok {a : Array α} {i j : Nat} (hi : i < a.size) (hj : j < a.size) :
    swap a i j = .ok (a.swapIfInBounds i j) := by
  rw [swap, ensure_ok ⟨hi, hj⟩, ok_bind, pure_eq_ok]

omit hlt in
theorem forall_mem_of_perm {a b : Array α} (h : b.toList.Perm a.toList) (ha : ∀ x ∈ a, P x) :
    ∀ x ∈ b, P x := by
  intro x hx
  exact ha x (Array.mem_toList_iff.mp (h.subset (Array.mem_toList_iff.mpr hx)))

theorem greaterChild_ok {a : Array α} (ha : ∀ x ∈ a, P x) {limit root : Nat}
    (hlimit : limit ≤ a.size) :
    greaterChild lt limit a root = .ok (HeapSort.greaterChild lt' limit a root) := by
  rw [greaterChild, HeapSort.greaterChild]
  by_cases hright : 2 * root + 1 + 1 < limit
  · rw [if_pos hright, before_ok hlt ha (by omega) (by omega), ok_bind, pure_eq_ok,
      decide_eq_true hright, Bool.true_and]
  · rw [if_neg hright, decide_eq_false hright, Bool.false_and, if_neg Bool.false_ne_true]

/-- With each step the root moves to a child, which is at a greater position. -/
theorem siftDown_ok (fuel root limit : Nat) (a : Array α) (ha : ∀ x ∈ a, P x)
    (hlimit : limit ≤ a.size) (hfuel : limit ≤ root + fuel) :
    siftDown lt fuel root limit a = .ok (HeapSort.siftDown lt' fuel root limit a) := by
  induction fuel generalizing root a with
  | zero => rw [siftDown, if_pos (by omega), HeapSort.siftDown]
  | succ fuel ih =>
    rw [siftDown, HeapSort.siftDown_succ]
    by_cases hleaf : limit ≤ 2 * root + 1
    · rw [if_pos hleaf, if_pos hleaf]
    · have hchild := HeapSort.greaterChild_lt lt' limit a root (by omega)
      have hdown := (HeapSort.greaterChild_isChild lt' limit a root).lt
      rw [if_neg hleaf, if_neg hleaf, greaterChild_ok hlt ha hlimit, ok_bind]
      generalize HeapSort.greaterChild lt' limit a root = child at hchild hdown ⊢
      rw [before_ok hlt ha (by omega) (by omega), ok_bind]
      by_cases hsink : HeapSort.before lt' a root child = true
      · rw [if_pos hsink, if_pos hsink, swap_ok (by omega) (by omega), ok_bind]
        exact ih child _ (forall_mem_of_perm (HeapSort.swapIfInBounds_perm a root child) ha)
          (by rwa [Array.size_swapIfInBounds]) (by omega)
      · rw [if_neg hsink, if_neg hsink, pure_eq_ok]

theorem heapify_ok {a : Array α} (ha : ∀ x ∈ a, P x) :
    heapify lt a = .ok (HeapSort.heapify lt' a) := by
  refine foldlM_ok (fun b => ∀ x ∈ b, P x) ?_ ha
  intro root _ b hb
  exact ⟨siftDown_ok hlt _ _ _ b hb (Nat.le_refl _) (by omega),
    forall_mem_of_perm (HeapSort.siftDown_perm lt' _ root _ b) hb⟩

theorem extract_ok {a : Array α} (ha : ∀ x ∈ a, P x) {last : Nat} (hlast : last < a.size) :
    extract lt a last = .ok (HeapSort.extract lt' a last) := by
  rw [extract, swap_ok (by omega) hlast, ok_bind]
  exact siftDown_ok hlt _ _ _ _ (forall_mem_of_perm (HeapSort.swapIfInBounds_perm a 0 last) ha)
    (by rw [Array.size_swapIfInBounds]; omega) (by omega)

theorem sort_ok {a : Array α} (ha : ∀ x ∈ a, P x) : sort lt a = .ok (HeapSort.sort lt' a) := by
  have hperm := HeapSort.heapify_perm lt' a
  have hsize : (HeapSort.heapify lt' a).size = a.size := by simpa using hperm.length_eq
  rw [sort, heapify_ok hlt ha, ok_bind]
  refine foldlM_ok (fun b => b.size = a.size ∧ ∀ x ∈ b, P x) ?_
    ⟨hsize, forall_mem_of_perm hperm ha⟩
  rintro last hlast b ⟨hb, hall⟩
  rw [List.mem_reverse, List.mem_range'_1] at hlast
  have hnext := HeapSort.extract_perm lt' b last
  exact ⟨extract_ok hlt hall (by omega), by simpa [hb] using hnext.length_eq,
    forall_mem_of_perm hnext hall⟩

end Order

section Search

variable {α : Type} {test : α → Guarded Bool} {test' : α → Bool} {xs : List α}
  (htest : ∀ x ∈ xs, test x = .ok (test' x))
include htest

/-- The positions that are left are at least halved. -/
theorem narrow_ok (fuel base size : Nat) (hfuel : size ≤ fuel + 1)
    (hin : base + size ≤ xs.length) :
    narrow test xs fuel base size = .ok (Search.narrow test' xs fuel base size) := by
  induction fuel generalizing base size with
  | zero => rw [narrow, if_pos (by omega), Search.narrow]
  | succ fuel ih =>
    rw [narrow, Search.narrow]
    by_cases hone : size ≤ 1
    · rw [if_pos hone, if_pos hone]
    · have hmid : base + size / 2 < xs.length := by omega
      have hx : xs[base + size / 2]? = some xs[base + size / 2] := List.getElem?_eq_getElem hmid
      rw [if_neg hone, if_neg hone]
      dsimp only
      rw [hx, present_some, ok_bind, htest _ (List.getElem_mem hmid), ok_bind, Option.any_some]
      refine ih _ _ (by omega) ?_
      split <;> omega

theorem boundary_ok : boundary test xs = .ok (Search.boundary test' xs) := by
  rw [boundary, Search.boundary]
  by_cases hempty : xs = []
  · subst hempty
    rfl
  · have hpos := List.length_pos_iff.mpr hempty
    have hlt := Search.narrow_lt_length test' xs xs.length 0 xs.length hpos (by omega) (by omega)
    have hget := List.getElem?_eq_getElem hlt
    rw [if_neg (by simpa using hempty), narrow_ok htest _ _ _ (by omega) (by omega), ok_bind, hget,
      present_some, ok_bind, htest _ (List.getElem_mem hlt), ok_bind, pure_eq_ok, Option.any_some]

end Search

theorem splitAfter_ok {id : Nat → Guarded UInt16} {id' : Nat → UInt16} (kept : Nat)
    (xs : List Nat) (h : ∀ x ∈ kept :: xs, id x = .ok (id' x)) :
    splitAfter id kept xs = .ok (Store.splitAfter id' kept xs) := by
  induction xs generalizing kept with
  | nil => rfl
  | cons addr rest ih =>
    have hkept := h kept (by simp)
    have haddr := h addr (by simp)
    have hrest : ∀ x ∈ rest, id x = .ok (id' x) := fun x hx => h x (by simp [hx])
    rw [splitAfter, haddr, ok_bind, hkept, ok_bind, Store.splitAfter]
    split
    · rw [ih kept (List.forall_mem_cons.mpr ⟨hkept, hrest⟩), ok_bind]
      rfl
    · rw [ih addr (List.forall_mem_cons.mpr ⟨haddr, hrest⟩), ok_bind]
      rfl

theorem splitRepeats_ok {id : Nat → Guarded UInt16} {id' : Nat → UInt16} {xs : List Nat}
    (h : ∀ x ∈ xs, id x = .ok (id' x)) :
    splitRepeats id xs = .ok (Store.splitRepeats id' xs) := by
  cases xs with
  | nil => rfl
  | cons addr rest =>
    rw [splitRepeats, splitAfter_ok addr rest h, ok_bind]
    rfl

/-- Choosing among the pages only looks at pages that there are. -/
theorem choose_ok {pages : List Page.Info} {test : Page.Info → Bool}
    {better : Nat → Nat → Guarded Bool} {R : Nat → Nat → Prop} [∀ p q, Decidable (R p q)]
    (h : ∀ p q, p < pages.length → q < pages.length → better p q = .ok (decide (R p q))) :
    choose pages test better =
      .ok (((List.range pages.length).filter fun p => (pages[p]?).any test).foldl (fun best p =>
        match best with
        | none => some p
        | some q => if R p q then some p else some q) none) := by
  rw [List.foldl_filter]
  refine foldlM_ok (fun best => ∀ q, best = some q → q < pages.length) ?_ (by simp)
  intro p hp best hbest
  rw [List.mem_range] at hp
  rw [List.getElem?_eq_getElem hp, present_some, ok_bind, Option.any_some]
  cases htest : test pages[p] with
  | false => exact ⟨rfl, hbest⟩
  | true =>
    cases best with
    | none => exact ⟨rfl, by simpa using hp⟩
    | some q =>
      have hq := hbest q rfl
      simp only [if_true, h p q hp hq, ok_bind, pure_eq_ok, decide_eq_true_eq]
      refine ⟨trivial, ?_⟩
      intro r hr
      split at hr
      · rwa [← Option.some.inj hr]
      · rwa [← Option.some.inj hr]

end Guarded

/-! ## Accesses within a page -/

/-- The address of an item that lies behind the age of a page and ends within the page. -/
structure Readable (f : Flash) (pageSize addr : Nat) : Prop extends
    Placed pageSize f addr Item.headerLength where
  body : Page.ageLength ≤ addr % pageSize
  item : addr % pageSize + (f.header addr).length.toNat ≤ pageSize

theorem Placed.of_size {pageSize addr length : Nat} {f f' : Flash} (hsize : f'.size = f.size)
    (h : Placed pageSize f addr length) : Placed pageSize f' addr length :=
  ⟨h.address, h.words, by rw [Flash.pageCount_congr hsize]; exact h.page, h.within⟩

theorem Within.of_size {pageSize : Nat} {f f' : Flash} {op : Flash.Op} (hsize : f'.size = f.size)
    (h : Within pageSize f op) : Within pageSize f' op := by
  cases op with
  | erase p size => exact ⟨h.1, by rw [Flash.pageCount_congr hsize]; exact h.2⟩
  | write addr bytes => exact Placed.of_size hsize h

/-- What is allowed is within flash. -/
theorem Follows.within {pageSize : Nat} {f : Flash} {ops : List Flash.Op}
    (h : Follows pageSize f ops) : ∀ op ∈ ops, Within pageSize f op := by
  induction ops generalizing f with
  | nil => simp
  | cons op ops ih =>
    obtain ⟨hop, hops⟩ := h
    refine List.forall_mem_cons.mpr ⟨?_, fun op' hop' => (ih hops op' hop').of_size ?_⟩
    · cases op with
      | erase p size => exact hop
      | write addr bytes => exact hop.1
    · exact (f.size_apply op).symm

/-- The items of any volume are readable. -/
theorem Reads.readable {f : Flash} {pageSize : Nat} {vol : List Layout} (hwords : pageSize % 4 = 0)
    (h : Reads f pageSize vol) {a : Nat} {i : Stored} (hi : (a, i) ∈ entries pageSize vol) :
    Readable f pageSize a := by
  obtain ⟨L, hL, ho⟩ := h.exists_place hi
  have hstop := h.stop_le hL
  have hbounds := Page.places_bounds ho
  have hfour := i.four_le_length
  have hlength := i.header_length
  rw [Layout.stop] at hstop
  obtain ⟨before, after, -, hoffset⟩ := Page.places_split ho
  have hmod := Page.span_mod before
  have hplaced : Placed pageSize f (a / pageSize * pageSize + a % pageSize) Item.headerLength :=
    Placed.of_page hwords (h.lt_pageCount hL) (by rw [Item.headerLength]; omega) (by decide)
      (by rw [hoffset, Page.ageLength]; omega) rfl
  rw [Nat.mul_comm, Nat.div_add_mod] at hplaced
  exact ⟨hplaced, hbounds.1, by rw [h.header_entry hi, hlength]; omega⟩

namespace Guarded

variable {f : Flash} {pageSize : Nat}

theorem apply_ok {op : Flash.Op} (h : Within pageSize f op) :
    apply pageSize f op = .ok (f.apply op) := by
  rw [apply, ensure_ok h, ok_bind, pure_eq_ok]

theorem applyAll_ok {ops : List Flash.Op} (h : ∀ op ∈ ops, Within pageSize f op) :
    applyAll pageSize f ops = .ok (f.applyAll ops) := by
  refine foldlM_ok (fun g => g.size = f.size) ?_ rfl
  intro op hop g hg
  exact ⟨apply_ok ((h op hop).of_size hg), (g.size_apply op).trans hg⟩

theorem read_ok {addr offset length : Nat} (hpage : addr / pageSize < f.pageCount pageSize)
    (hin : addr % pageSize + offset + length ≤ pageSize) :
    read f pageSize addr offset length = .ok (f.slice (addr + offset) length) := by
  rw [read, ensure_ok ⟨hpage, hin⟩, ok_bind, pure_eq_ok]

theorem read_page_ok {p length : Nat} (hp : p < f.pageCount pageSize) (hlength : length ≤ pageSize)
    (hpos : 0 < pageSize) :
    read f pageSize (p * pageSize) 0 length = .ok (f.slice (p * pageSize) length) := by
  obtain ⟨hdiv, hmod⟩ := Flash.address_div_mod p hpos
  rw [Nat.add_zero] at hdiv hmod
  exact read_ok (by rwa [hdiv]) (by rw [hmod]; omega)

section Page

variable {p : Nat} (hsize : Page.ageLength ≤ pageSize) (hp : p < f.pageCount pageSize)
include hsize hp

theorem age_ok : age f pageSize p = .ok (f.age pageSize p) := by
  rw [age, read_page_ok hp hsize (Nat.lt_of_lt_of_le (by decide) hsize), ok_bind, pure_eq_ok,
    Flash.age]

theorem page_ok : page f pageSize p = .ok (f.page pageSize p) :=
  read_page_ok hp (Nat.le_refl _) (Nat.lt_of_lt_of_le (by decide) hsize)

theorem scanPage_ok : scanPage f pageSize p = .ok (Page.scan (f.page pageSize p)) := by
  rw [scanPage, page_ok hsize hp, ok_bind, scan_ok (by rwa [f.length_page hp])]

end Page

section Item

variable {addr : Nat} (h : Readable f pageSize addr)
include h

theorem header_ok : header f pageSize addr = .ok (f.header addr) := by
  rw [header, read_ok h.page (by rw [Nat.add_zero]; exact h.within), ok_bind, pure_eq_ok,
    Nat.add_zero, Flash.header]

theorem itemId_ok : itemId f pageSize addr = .ok (f.itemId addr) := by
  rw [itemId, header_ok h, ok_bind, pure_eq_ok, Flash.itemId]

/-- A payload ends where its item does, or it is empty. -/
theorem payload_ok : payload f pageSize addr = .ok (f.payload addr) := by
  have hwithin := h.within
  have hitem := h.item
  rw [payload, header_ok h, ok_bind, read_ok h.page, Flash.payload]
  rw [Item.Header.payloadLength]
  omega

theorem bury_ok : bury f pageSize addr = .ok (f.bury addr) := by
  rw [bury, header_ok h, ok_bind, pure_eq_ok, Flash.bury]

theorem addWaste_ok {pages : List Page.Info} (hcount : pages.length = f.pageCount pageSize) :
    addWaste f pageSize pages addr = .ok (Store.addWaste f pageSize pages addr) := by
  rw [addWaste, header_ok h, ok_bind]
  exact modify_ok (List.getElem?_eq_getElem (by rw [hcount]; exact h.page)) rfl

end Item

theorem lowerBound_ok {index : List Nat} (h : ∀ a ∈ index, Readable f pageSize a) (id : UInt16) :
    lowerBound f pageSize index id = .ok (Store.lowerBound f index id) := by
  refine boundary_ok ?_
  intro a ha
  rw [itemId_ok (h a ha), ok_bind, pure_eq_ok]

theorem lineAt?_ok {index : List Nat} (h : ∀ a ∈ index, Readable f pageSize a) (pos : Nat)
    (id : UInt16) :
    lineAt? f pageSize index pos id = .ok (index[pos]?.filter (f.itemId · = id)) := by
  rw [lineAt?]
  cases hget : index[pos]? with
  | none => rfl
  | some addr =>
    dsimp only
    rw [itemId_ok (h addr (List.mem_of_getElem? hget)), ok_bind, pure_eq_ok, Option.filter_some]
    simp only [decide_eq_true_eq]

theorem encode_ok {id : UInt16} {payload : List UInt8}
    (h : Item.length payload.length ≤ Item.maxLength) :
    encode id payload = .ok (Item.encode id payload) := by
  have hle := Stored.length_le payload.length
  rw [encode, ensure_ok h, ok_bind, minus_ok (by omega), ok_bind, minus_ok (by omega), ok_bind,
    pure_eq_ok, Item.encode]

end Guarded

end FlashBasic
