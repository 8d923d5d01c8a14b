import FlashBasic.Flash
import FlashBasic.Store.HeapSort
import FlashBasic.Store.Page
import FlashBasic.Store.RecordKey
import FlashBasic.Store.Search

/-!
A log-structured store of program lines and keyed records on flash pages. Items are only appended;
a replaced or deleted item becomes a tombstone, and compaction copies a page anew without its
tombstones. The line index holds the flash addresses of the lines in the order of their numbers.

Every operation first works out a `Change`: the flash operations in the order in which they are
issued, and the bookkeeping that holds once all are done. `Store.commit` carries it out.

What changes a store is defined over any memory, given by what `apply` makes of one operation:
`Store.putLineOn?` and the like. `Store.putLine?` and the like are the same on flash.

* `Store.mount` reads a store from flash, and `Store.recover` does so again in place.
* `Store.putLine?`, `Store.deleteLine`, `Store.line?` keep lines.
* `Store.putRecord?`, `Store.deleteRecord?`, `Store.record?` keep records.
* `Store.compact?` reclaims the waste of one page, `Store.clear` erases everything.
-/

namespace FlashBasic

set_option autoImplicit false

structure Store where
  flash : Flash
  pageSize : Nat
  pages : List Page.Info
  /-- Addresses of the lines. -/
  index : List Nat
  /-- The last age given to a page. -/
  lastAge : UInt32
deriving DecidableEq, Repr, Inhabited

/-! ## Reading flash -/

namespace Flash

/-- The header of the item at an address. -/
def header (f : Flash) (addr : Nat) : Item.Header := .decode (f.slice addr Item.headerLength)

def itemId (f : Flash) (addr : Nat) : UInt16 := (f.header addr).id

def payload (f : Flash) (addr : Nat) : List UInt8 :=
  f.slice (addr + Item.headerLength) (f.header addr).payloadLength

def page (f : Flash) (pageSize p : Nat) : List UInt8 := f.slice (p * pageSize) pageSize

def age (f : Flash) (pageSize p : Nat) : UInt32 :=
  LittleEndian.toUInt32 (f.slice (p * pageSize) Page.ageLength)

/-- Gives a page its age. -/
def stamp (pageSize p : Nat) (age : UInt32) : Op :=
  .write (p * pageSize) (LittleEndian.ofUInt32 age)

/-- Deletes the item at an address. -/
def bury (f : Flash) (addr : Nat) : Op := .write addr (f.header addr).tombstone.encode

end Flash

namespace Store

def ids (s : Store) : List UInt16 := s.index.map s.flash.itemId

/-- The number of lines. -/
def size (s : Store) : Nat := s.index.length

def isEmpty (s : Store) : Bool := s.index.isEmpty

def age (s : Store) (p : Nat) : UInt32 := s.flash.age s.pageSize p

/-- What flash holds, page by page, without the erased bytes at the end of each. Bytes after the
last whole page belong to no page and come last. -/
def dump (s : Store) : List (List UInt8) := (s.flash.pieces s.pageSize).map Flash.trim

def freeBytes (s : Store) : Nat := s.pages.foldr (·.free + ·) 0

/-! ## Changes -/

structure Change where
  ops : List Flash.Op
  pages : List Page.Info
  index : List Nat
  lastAge : UInt32
deriving DecidableEq, Repr

variable (apply : Flash → Flash.Op → Flash)

def commitOn (s : Store) (c : Change) : Store :=
  { s with flash := c.ops.foldl apply s.flash, pages := c.pages, index := c.index,
           lastAge := c.lastAge }

/-- Counts the item at `addr` as waste of its page. -/
def addWaste (f : Flash) (pageSize : Nat) (pages : List Page.Info) (addr : Nat) : List Page.Info :=
  pages.modify (addr / pageSize) fun info =>
    { info with waste := info.waste + (f.header addr).length.toNat }

/-! ## Reading a store from flash -/

/-- The highest age of a stamped page. -/
def newestAge (ages : List UInt32) : UInt32 :=
  (ages.filter (· ≠ Page.erasedAge)).foldl max 0

/-- Stamps the pages, counted from `p`, whose age is that of an erased page. -/
def stampErased (pageSize : Nat) : (p : Nat) → (ages : List UInt32) → (last : UInt32) →
    List Flash.Op × UInt32
  | _, [], last => ([], last)
  | p, age :: ages, last =>
    if age = Page.erasedAge then
      let (ops, final) := stampErased pageSize (p + 1) ages (last + 1)
      (Flash.stamp pageSize p (last + 1) :: ops, final)
    else stampErased pageSize (p + 1) ages last

/-- Splits the addresses after `kept` into those that start a run of equal ids and the others. -/
def splitAfter (id : Nat → UInt16) (kept : Nat) : List Nat → List Nat × List Nat
  | [] => ([], [])
  | addr :: rest =>
    if id addr = id kept then
      let (firsts, repeats) := splitAfter id kept rest
      (firsts, addr :: repeats)
    else
      let (firsts, repeats) := splitAfter id addr rest
      (addr :: firsts, repeats)

/-- The first address of each run with equal ids, and all the others. -/
def splitRepeats (id : Nat → UInt16) : List Nat → List Nat × List Nat
  | [] => ([], [])
  | addr :: rest =>
    let (firsts, repeats) := splitAfter id addr rest
    (addr :: firsts, repeats)

/-- Rebuilds everything from flash alone: erased pages are stamped, and of several copies of a line,
which an interrupted replacement can leave, all but one are deleted. -/
def recoveryOn (flash : Flash) (pageSize : Nat) : Change :=
  let count := flash.size / pageSize
  let ages := (List.range count).map (flash.age pageSize)
  let (stamps, lastAge) := stampErased pageSize 0 ages (newestAge ages)
  let flash := stamps.foldl apply flash
  let scans := (List.range count).map fun p => Page.scan (flash.page pageSize p)
  let found := (scans.mapIdx fun p scan => scan.lines.map (p * pageSize + ·)).flatten
  let sorted := HeapSort.sort (fun a b => flash.itemId a < flash.itemId b) found.toArray
  let (index, dropped) := splitRepeats flash.itemId sorted.toList
  { ops := stamps ++ dropped.map flash.bury
    pages := dropped.foldl (addWaste flash pageSize) (scans.map (·.info pageSize))
    index
    lastAge }

def recoverOn (s : Store) : Store := s.commitOn apply (recoveryOn apply s.flash s.pageSize)

def mountOn (flash : Flash) (pageSize : Nat) : Store :=
  recoverOn apply { flash, pageSize, pages := [], index := [], lastAge := 0 }

/-! ## Looking up lines -/

/-- The position in an index of the first line numbered `id` or above. -/
def lowerBound (f : Flash) (index : List Nat) (id : UInt16) : Nat :=
  Search.boundary (f.itemId · < id) index

def closest (s : Store) (id : UInt16) : Nat := lowerBound s.flash s.index id

def lineNumber? (s : Store) (pos : Nat) : Option UInt16 := s.index[pos]?.map s.flash.itemId

/-- The position of the line numbered `id`. -/
def find? (s : Store) (id : UInt16) : Option Nat :=
  if s.lineNumber? (s.closest id) = some id then some (s.closest id) else none

/-- The number and the text of the line at a position. -/
def line? (s : Store) (pos : Nat) : Option (UInt16 × List UInt8) :=
  s.index[pos]?.map fun addr => (s.flash.itemId addr, s.flash.payload addr)

/-! ## Appending items -/

/-- The first page of the lowest age among those with `length` free bytes. -/
def pageFor? (s : Store) (length : Nat) : Option Nat :=
  let candidates := (List.range s.pages.length).filter fun p =>
    (s.pages[p]?).any (length ≤ ·.free)
  candidates.foldl (fun best p =>
    match best with
    | none => some p
    | some q => if s.age p < s.age q then some p else some q) none

/-- Where the next item of a page goes. -/
def freeAddress (s : Store) (p : Nat) : Nat :=
  p * s.pageSize + (s.pageSize - (s.pages.getD p default).free)

/-- Takes `length` bytes of the free space of a page. -/
def takeFree (pages : List Page.Info) (p length : Nat) : List Page.Info :=
  pages.modify p fun info => { info with free := info.free - length }

/-- The page and address for an item with this payload, if it can be stored. -/
def place? (s : Store) (payload : List UInt8) : Option (Nat × Nat) :=
  if Item.length payload.length ≤ Item.maxLength then
    (s.pageFor? (Item.length payload.length)).map fun p => (p, s.freeAddress p)
  else none

/-! ## Lines -/

/-- The new copy is written before the old one is deleted. -/
def putLineChangeOn? (s : Store) (id : UInt16) (text : List UInt8) : Option Change :=
  (s.place? text).map fun (p, addr) =>
    let item := Flash.Op.write addr (Item.encode id text)
    let flash := apply s.flash item
    let pages := takeFree s.pages p (Item.length text.length)
    let pos := lowerBound flash s.index id
    match s.index[pos]?.filter (flash.itemId · = id) with
    | some old =>
      { ops := [item, flash.bury old]
        pages := addWaste flash s.pageSize pages old
        index := s.index.set pos addr
        lastAge := s.lastAge }
    | none => { ops := [item], pages, index := s.index.insertIdx pos addr, lastAge := s.lastAge }

/-- Stores or replaces a line; `none` when no page has room for it. -/
def putLineOn? (s : Store) (id : UInt16) (text : List UInt8) : Option Store :=
  (s.putLineChangeOn? apply id text).map (s.commitOn apply)

/-- The deletion of the item at `addr`, leaving `index`. -/
def burial (s : Store) (addr : Nat) (index : List Nat) : Change where
  ops := [s.flash.bury addr]
  pages := addWaste s.flash s.pageSize s.pages addr
  index := index
  lastAge := s.lastAge

def deleteLineChange? (s : Store) (id : UInt16) : Option Change := do
  let pos ← s.find? id
  let addr ← s.index[pos]?
  return s.burial addr (s.index.eraseIdx pos)

def deleteLineOn (s : Store) (id : UInt16) : Store :=
  ((s.deleteLineChange? id).map (s.commitOn apply)).getD s

/-! ## Records -/

/-- The address of the first record of a page whose payload starts with `key`. -/
def recordOnPage? (s : Store) (key : List UInt8) (p : Nat) : Option Nat :=
  (Page.scan (s.flash.page s.pageSize p)).items.findSome? fun (offset, h) =>
    let addr := p * s.pageSize + offset
    if h.kind = .record ∧ key.isPrefixOf (s.flash.payload addr) then some addr else none

/-- The address of the first record with this key. -/
def recordAddress? (s : Store) (key : RecordKey) : Option Nat :=
  (List.range s.pages.length).findSome? (s.recordOnPage? (LittleEndian.ofUInt32 key))

def record? (s : Store) (key : RecordKey) : Option (List UInt8) :=
  (s.recordAddress? key).map fun addr => (s.flash.payload addr).drop 4

/-- The new record is written before the old one is deleted. -/
def putRecordChangeOn? (s : Store) (key : RecordKey) (data : List UInt8) : Option Change :=
  let payload := LittleEndian.ofUInt32 key ++ data
  (s.place? payload).map fun (p, addr) =>
    let item := Flash.Op.write addr (Item.encode Item.recordId payload)
    let flash := apply s.flash item
    let pages := takeFree s.pages p (Item.length payload.length)
    match s.recordAddress? key with
    | some old =>
      { ops := [item, flash.bury old]
        pages := addWaste flash s.pageSize pages old
        index := s.index
        lastAge := s.lastAge }
    | none => { ops := [item], pages, index := s.index, lastAge := s.lastAge }

/-- Stores or replaces a record; `none` when no page has room for it. -/
def putRecordOn? (s : Store) (key : RecordKey) (data : List UInt8) : Option Store :=
  (s.putRecordChangeOn? apply key data).map (s.commitOn apply)

def deleteRecordChange? (s : Store) (key : RecordKey) : Option Change :=
  (s.recordAddress? key).map fun addr => s.burial addr s.index

/-- `none` when there is no such record. -/
def deleteRecordOn? (s : Store) (key : RecordKey) : Option Store :=
  (s.deleteRecordChange? key).map (s.commitOn apply)

/-! ## Erasing and compacting -/

/-- A page with nothing on it. -/
def blankPage (pageSize : Nat) : Page.Info := { free := pageSize - Page.ageLength, waste := 0 }

/-- Erases and stamps the pages, counted from `p`, that have something on them. -/
def eraseUsed (pageSize : Nat) : (p : Nat) → List Page.Info → (last : UInt32) →
    List Flash.Op × UInt32
  | _, [], last => ([], last)
  | p, info :: pages, last =>
    if info.free = (blankPage pageSize).free then eraseUsed pageSize (p + 1) pages last
    else
      let (ops, final) := eraseUsed pageSize (p + 1) pages (last + 1)
      (.erase p pageSize :: Flash.stamp pageSize p (last + 1) :: ops, final)

def clearChange (s : Store) : Change :=
  let (ops, lastAge) := eraseUsed s.pageSize 0 s.pages s.lastAge
  { ops, pages := s.pages.map fun _ => blankPage s.pageSize, index := [], lastAge }

/-- Erases all lines and records. -/
def clearOn (s : Store) : Store := s.commitOn apply s.clearChange

/-- Whether compacting the page gains anything and leaves `length` free bytes there. -/
def worthCompacting (length : Nat) (info : Page.Info) : Bool :=
  0 < info.waste && length ≤ info.waste + info.free

/-- The page to compact: the first of those that end up with the most free bytes. -/
def compactablePage? (s : Store) (length : Nat) : Option Nat :=
  let gain (p : Nat) := let info := s.pages.getD p default; info.waste + info.free
  let candidates := (List.range s.pages.length).filter fun p =>
    (s.pages[p]?).any (worthCompacting length)
  candidates.foldl (fun best p =>
    match best with
    | none => some p
    | some q => if gain q < gain p then some p else some q) none

/-- Writes the given items one after the other from `addr`. -/
def writeItems : (addr : Nat) → List (List UInt8) → List Flash.Op
  | _, [] => []
  | addr, item :: items => .write addr item :: writeItems (addr + item.length) items

/-- The items of a page image that are not tombstones. -/
def liveItems (page : List UInt8) : List (List UInt8) :=
  (Page.scan page).items.filterMap fun (offset, h) =>
    if h.kind = .tombstone then none else some ((page.drop offset).take h.length.toNat)

/-- Erases page `p` and writes it anew without its tombstones. -/
def compactionOn (s : Store) (p : Nat) : Change :=
  let copy := s.flash.page s.pageSize p
  let renewal := Flash.Op.erase p s.pageSize :: Flash.stamp s.pageSize p (s.lastAge + 1) ::
    writeItems (p * s.pageSize + Page.ageLength) (liveItems copy)
  let rebuilt := recoveryOn apply (renewal.foldl apply s.flash) s.pageSize
  { rebuilt with ops := renewal ++ rebuilt.ops }

/-- The page that compaction renews. It is copied to a work area of `scratch` bytes first, which
must hold it. -/
def compactionTarget? (s : Store) (length scratch : Nat) : Option Nat :=
  if s.pageSize ≤ scratch then s.compactablePage? length else none

/-- Compacts one page so that `length` bytes are free there; `none` when no page allows it. -/
def compactOn? (s : Store) (length scratch : Nat) : Option Store :=
  (s.compactionTarget? length scratch).map fun p => s.commitOn apply (s.compactionOn apply p)

/-! ## On flash -/

def commit (s : Store) (c : Change) : Store := s.commitOn Flash.apply c

def recovery (flash : Flash) (pageSize : Nat) : Change := recoveryOn Flash.apply flash pageSize

def recover (s : Store) : Store := s.recoverOn Flash.apply

theorem recover_eq (s : Store) : s.recover = s.commit (recovery s.flash s.pageSize) := rfl

def mount (flash : Flash) (pageSize : Nat) : Store := mountOn Flash.apply flash pageSize

def putLineChange? (s : Store) (id : UInt16) (text : List UInt8) : Option Change :=
  s.putLineChangeOn? Flash.apply id text

def putLine? (s : Store) (id : UInt16) (text : List UInt8) : Option Store :=
  s.putLineOn? Flash.apply id text

def deleteLine (s : Store) (id : UInt16) : Store := s.deleteLineOn Flash.apply id

def putRecordChange? (s : Store) (key : RecordKey) (data : List UInt8) : Option Change :=
  s.putRecordChangeOn? Flash.apply key data

def putRecord? (s : Store) (key : RecordKey) (data : List UInt8) : Option Store :=
  s.putRecordOn? Flash.apply key data

def deleteRecord? (s : Store) (key : RecordKey) : Option Store := s.deleteRecordOn? Flash.apply key

def clear (s : Store) : Store := s.clearOn Flash.apply

def compaction (s : Store) (p : Nat) : Change := s.compactionOn Flash.apply p

def compact? (s : Store) (length scratch : Nat) : Option Store :=
  s.compactOn? Flash.apply length scratch

theorem compact?_eq (s : Store) (length scratch : Nat) : s.compact? length scratch =
    (s.compactionTarget? length scratch).map fun p => s.commit (s.compaction p) := rfl

end Store

end FlashBasic
