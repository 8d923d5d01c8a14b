import FlashBasic.Error
import FlashBasic.Letter
import FlashBasic.Memory

/-!
The working memory of a program: one buffer in which a stack of frames grows down from the top and
a heap of blocks grows up from a floor. The bytes below the floor stand for the line index and those
above the top for the scalar variables. An allocation that would make stack and heap meet fails.

A block gives its bytes back when it and every block above it have been released.
-/

namespace FlashBasic

set_option autoImplicit false

/-- Where execution continues. -/
inductive Pc where
  /-- The line just typed. -/
  | direct
  /-- The stored line at a position. -/
  | line (pos : Nat)
  | «end»
deriving DecidableEq, Repr

/-- A run of heap bytes. -/
structure Block where
  start : Nat
  size : Nat
deriving DecidableEq, Repr

/-- An array, which hides the scalar of the same name. -/
structure ArrayFrame where
  name : Letter
  block : Block
  /-- The name stood for an array already. -/
  prior : Bool
  /-- Whom to tell when the array changes. -/
  notifier : Option UInt16 := none
deriving DecidableEq, Repr

inductive Frame where
  | gosub (resume : Pc)
  | loop (name : Letter) (step terminal : Int32) (resume : Pc)
  | event
  | array (a : ArrayFrame)
deriving DecidableEq, Repr

namespace Frame

/-- Bytes of every frame, for its tag and link. -/
def headerSize : Nat := 3

def size : Frame → Nat
  | .gosub _ => headerSize + 2
  | .loop .. => headerSize + 11
  | .event => headerSize
  | .array _ => headerSize + 5

def arrayNamed? (name : Letter) : Frame → Option ArrayFrame
  | .array a => if a.name = name then some a else none
  | _ => none

end Frame

structure Arena where
  mem : Array UInt8
  top : Nat
  floor : Nat := 0
  /-- Where the free bytes begin. -/
  heapTop : Nat := 0
  /-- The blocks, last allocated first, and whether they are in use. -/
  heap : List (Block × Bool) := []
  /-- Outside resources held until the next reset, in the order they were added. -/
  services : List (Block × UInt16) := []
  /-- Where the free bytes end. -/
  sp : Nat := top
  /-- The frames, last pushed first. -/
  frames : List Frame := []
deriving DecidableEq, Repr, Inhabited

namespace Arena

/-- Bytes taken by the scalar variables and their flags. -/
def variablesSize : Nat := 26 * 4 + 4

/-- Bytes taken by a service. -/
def serviceSize : Nat := Frame.headerSize + 4

def ofSize (size : Nat) : Arena :=
  { mem := Array.replicate size 0, top := size - variablesSize }

/-- Bytes between heap and stack. -/
def free (a : Arena) : Nat := a.sp - a.heapTop

def depth (a : Arena) : Nat := a.frames.length

/-- Whether a floor of so many bytes fits an empty arena. -/
def floorFits (a : Arena) (bytes : Nat) : Bool := bytes ≤ a.top

/-- Sets the floor of an arena whose heap is empty. -/
def setFloor (a : Arena) (bytes : Nat) : Arena :=
  { a with floor := min bytes a.sp, heapTop := min bytes a.sp }

/-! ## Heap -/

def alloc (a : Arena) (size : Nat) : Except Error (Block × Arena) :=
  if a.heapTop + size ≤ a.sp then
    let block : Block := ⟨a.heapTop, size⟩
    .ok (block,
      { a with
        mem := Memory.overwrite (List.replicate size 0) a.heapTop a.mem
        heap := (block, true) :: a.heap
        heapTop := a.heapTop + size })
  else .error .outOfMemory

/-- Marks the last allocated entry of `block` as unused. -/
def retire (block : Block) : List (Block × Bool) → List (Block × Bool)
  | [] => []
  | (b, used) :: rest => if b = block then (b, false) :: rest else (b, used) :: retire block rest

/-- Drops unused blocks from the top of the heap, which then ends where the lowest of them began. -/
def collapse : List (Block × Bool) → (heapTop : Nat) → List (Block × Bool) × Nat
  | (b, false) :: rest, _ => collapse rest b.start
  | heap, heapTop => (heap, heapTop)

def release (a : Arena) (block : Block) : Arena :=
  let (heap, heapTop) := collapse (retire block a.heap) a.heapTop
  { a with heap, heapTop }

def bytes (a : Arena) (block : Block) : List UInt8 :=
  Memory.slice a.mem block.start block.size

/-- Overwrites memory from `addr`. -/
def write (a : Arena) (addr : Nat) (data : List UInt8) : Arena :=
  { a with mem := Memory.overwrite data addr a.mem }

def setByte (a : Arena) (block : Block) (i : Nat) (b : UInt8) : Arena :=
  a.write (block.start + i) [b]

/-- Overwrites the start of the free bytes, which are lent out as a work area. -/
def writeScratch (a : Arena) (data : List UInt8) : Arena := a.write a.heapTop data

def addService (a : Arena) (service : UInt16) : Except Error Arena := do
  let (block, a) ← a.alloc serviceSize
  return { a with services := a.services ++ [(block, service)] }

/-! ## Stack -/

def push (a : Arena) (frame : Frame) : Except Error Arena :=
  if a.heapTop + frame.size ≤ a.sp then
    .ok { a with sp := a.sp - frame.size, frames := frame :: a.frames }
  else .error .outOfMemory

/-- Takes the top frame off; an array gives its block back. -/
def pop? (a : Arena) : Option (Frame × Arena) :=
  match a.frames with
  | [] => none
  | frame :: frames =>
    let a := { a with sp := a.sp + frame.size, frames }
    match frame with
    | .array v => some (frame, a.release v.block)
    | _ => some (frame, a)

/-- The innermost array of a name. -/
def array? (a : Arena) (name : Letter) : Option ArrayFrame :=
  a.frames.findSome? (·.arrayNamed? name)

/-- Changes the innermost array frame of a name. -/
def modifyArray (name : Letter) (f : ArrayFrame → ArrayFrame) : List Frame → List Frame
  | [] => []
  | frame :: frames =>
    match frame.arrayNamed? name with
    | some v => .array (f v) :: frames
    | none => frame :: modifyArray name f frames

/-- `none` when there is no such array. -/
def setNotifier? (a : Arena) (name : Letter) (notifier : Option UInt16) : Option Arena :=
  (a.array? name).map fun _ =>
    { a with frames := modifyArray name (fun v => { v with notifier }) a.frames }

/-- Empties stack and heap. -/
def reset (a : Arena) : Arena :=
  { a with frames := [], sp := a.top, heap := [], heapTop := a.floor, services := [] }

end Arena

end FlashBasic
