import FlashBasic.Host
import FlashBasic.Line
import FlashBasic.Statement
import FlashBasic.Store.Basic
import FlashBasic.Variables

/-!
The state of a machine: the stored program, working memory, variables and open files, and the host
it talks to.

* `Machine.boot` starts a machine on flash, `Machine.reset` clears all but the store.
* `Machine.after`, `Machine.next`, `Machine.first`, `Machine.target` say where execution goes.
* `Machine.storing` puts something into the store, compacting it once if there is no room.
-/

namespace FlashBasic

set_option autoImplicit false

/-- Sizes of a device. -/
structure Config where
  pages : Nat := 4
  pageSize : Nat := 2048
  arenaSize : Nat := 4096
deriving DecidableEq, Repr

def Config.flashSize (c : Config) : Nat := c.pages * c.pageSize

/-- Why a machine hands control back. -/
inductive Status where
  /-- It waits for the next line or event. -/
  | ready
  /-- REBOOT was executed. -/
  | terminate
  | outOfMemory
deriving DecidableEq, Repr

/-- A file that is being read or written, and the number of its next record. -/
structure OpenFile where
  name : Letter
  record : UInt16
  writing : Bool
deriving DecidableEq, Repr

/-- The number of files that can be open. -/
def fileCount : Nat := 4

structure Machine (σ : Type) where
  store : Store
  host : σ
  arena : Arena
  vars : Variables := {}
  files : Vector (Option OpenFile) fileCount := Vector.replicate fileCount none
  /-- The text of the line typed last. -/
  direct : List UInt8 := []

namespace Machine

variable {σ : Type} [Host σ]

/-! ## Start and reset -/

/-- Bytes of the arena that an entry of the line index takes. -/
def indexEntrySize : Nat := 2

/-- Reserves the bytes of the line index in an empty arena. -/
def reserveIndex (m : Machine σ) : Machine σ :=
  { m with arena := m.arena.setFloor (m.store.size * indexEntrySize) }

def modifyHost (m : Machine σ) (f : σ → σ) : Machine σ := { m with host := f m.host }

def print (m : Machine σ) (text : String) : Machine σ := m.modifyHost (Host.print text)

/-- Empties stack and heap, clears the variables, forgets open files and tears down services. -/
def reset (m : Machine σ) : Machine σ :=
  reserveIndex { m with
    host := m.arena.services.foldl (fun h (_, service) => Host.teardown service h) m.host
    arena := m.arena.reset
    vars := {}
    files := Vector.replicate fileCount none }

/-- A machine on the given flash, as after power has come on. -/
def boot (config : Config) (flash : Flash) (host : σ) : Machine σ :=
  reset { store := .mount flash config.pageSize, host, arena := .ofSize config.arenaSize }

def freeText (m : Machine σ) : String :=
  toString m.arena.free ++ " bytes free.\n" ++
    toString m.store.freeBytes ++ " bytes of flash free.\n"

def binding (m : Machine σ) (name : Letter) : Binding := m.vars.binding m.arena name

def array? (m : Machine σ) (name : Letter) : Option ArrayFrame := m.vars.array? m.arena name

/-! ## Places in the program -/

/-- The place after the line at `pos`. -/
def after (m : Machine σ) (pos : Nat) : Pc :=
  if pos + 1 < m.store.size then .line (pos + 1) else .end

def next (m : Machine σ) : Pc → Pc
  | .line pos => m.after pos
  | _ => .end

def first (m : Machine σ) : Pc := if m.store.isEmpty then .end else .line 0

/-- The first line numbered `number` or above. -/
def target (m : Machine σ) (number : Int32) : Pc :=
  let id := (min number.toInt.toNat Cursor.maxLineNumber).toUInt16
  let pos := m.store.closest id
  if pos < m.store.size then .line pos else .end

/-- Positions and texts of the lines after the one at `pos`. -/
def linesAfter (m : Machine σ) (pos : Nat) : List (Nat × List UInt8) :=
  (m.store.index.drop (pos + 1)).mapIdx fun i addr => (pos + 1 + i, m.store.flash.payload addr)

/-! ## Storing -/

/-- Compacts the store, with the free bytes of the arena as work area for the page. -/
def compact? (m : Machine σ) (length : Nat) : Option (Machine σ) :=
  (m.store.compactionTarget? length m.arena.free).map fun p =>
    { m with
      store := m.store.commit (m.store.compaction p)
      arena := m.arena.writeScratch (m.store.flash.page m.store.pageSize p) }

/-- Puts an item of `length` bytes into the store. If there is no room the store is compacted and it
is tried once more. -/
def storing (m : Machine σ) (length : Nat) (put? : Store → Option Store) : Bool × Machine σ :=
  match put? m.store with
  | some store => (true, { m with store })
  | none =>
    match m.compact? length with
    | none => (false, m)
    | some m =>
      match put? m.store with
      | some store => (true, { m with store })
      | none => (false, m)

/-! ## Editing -/

/-- The listing of the stored line where an error happened. -/
def sourceOf (m : Machine σ) : Pc → Option String
  | .line pos => (m.store.line? pos).map fun (number, text) => Line.render { number, text }
  | _ => none

/-- Reports an error at a place. -/
def fail (m : Machine σ) (pc : Pc) (e : Error) : Status × Machine σ :=
  (if e.isOutOfMemory then .outOfMemory else .ready,
    m.modifyHost (Host.report e (m.sourceOf pc)))

/-- Entries of the line index once the line numbered `number` is stored. -/
def entriesWith (m : Machine σ) (number : UInt16) : Nat :=
  if (m.store.find? number).isSome then m.store.size else m.store.size + 1

/-- Stores a numbered line, or deletes it when it is empty; `put?` puts a line into the store. -/
def editWith (put? : Store → UInt16 → List UInt8 → Option Store) (m : Machine σ) (line : Line) :
    Status × Machine σ :=
  let m := m.reset
  if line.isEmpty then
    (.ready, reserveIndex { m with store := m.store.deleteLine line.number })
  else
    let length := Item.length line.text.length
    if Item.maxLength < length then m.fail .end .tooBig
    else if !m.arena.floorFits (m.entriesWith line.number * indexEntrySize) then
      m.fail .end .outOfMemory
    else
      match m.storing length (put? · line.number line.text) with
      | (true, m) => (.ready, m.reserveIndex)
      | (false, m) => m.fail .end .outOfMemory

def edit (m : Machine σ) (line : Line) : Status × Machine σ := m.editWith Store.putLine? line

end Machine

end FlashBasic
