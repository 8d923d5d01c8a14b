import FlashBasic.Memory

/-!
Raw flash: bytes that are erased a page at a time and written a word at a time. Writing can only
clear bits, so a byte takes a new value freely only after its page was erased.

What is done to flash is itself data: `Flash.Op` is one erasure or one write, and a list of them is
carried out in order by `Flash.applyAll`.
-/

namespace FlashBasic

set_option autoImplicit false

structure Flash where
  bytes : Array UInt8
deriving DecidableEq, Repr, Inhabited

namespace Flash

/-- What an erased byte reads as. -/
def erased : UInt8 := 0xFF

def blank (size : Nat) : Flash := ⟨Array.replicate size erased⟩

def size (f : Flash) : Nat := f.bytes.size

def slice (f : Flash) (addr length : Nat) : List UInt8 := Memory.slice f.bytes addr length

/-- All bytes, cut after every `length` of them; what is left over is a shorter last piece. -/
def pieces (f : Flash) (length : Nat) : List (List UInt8) :=
  (List.range ((f.size + length - 1) / length)).map fun i => f.slice (i * length) length

/-- The bytes up to the last one that is not erased. -/
def trim (bytes : List UInt8) : List UInt8 :=
  (bytes.reverse.dropWhile (· == erased)).reverse

/-! ## Changing flash -/

inductive Op where
  /-- Erases the page with the given number, pages being `pageSize` bytes long. -/
  | erase (page pageSize : Nat)
  /-- Writes bytes; address and length are multiples of 4. -/
  | write (addr : Nat) (bytes : List UInt8)
deriving DecidableEq, Repr

def erase (fl : Flash) (page pageSize : Nat) : Flash :=
  ⟨Memory.overwrite (List.replicate pageSize erased) (page * pageSize) fl.bytes⟩

/-- A bit stays set only where it is set both in flash and in what is written. -/
def write (fl : Flash) (addr : Nat) (bytes : List UInt8) : Flash :=
  ⟨Memory.combine (· &&& ·) bytes addr fl.bytes⟩

def apply (fl : Flash) : Op → Flash
  | .erase page pageSize => fl.erase page pageSize
  | .write addr bytes => fl.write addr bytes

def applyAll (fl : Flash) (ops : List Op) : Flash :=
  ops.foldl apply fl

theorem foldl_apply (fl : Flash) (ops : List Op) : ops.foldl apply fl = fl.applyAll ops := rfl

@[simp] theorem applyAll_nil (fl : Flash) : fl.applyAll [] = fl := rfl

@[simp] theorem applyAll_cons (fl : Flash) (op : Op) (ops : List Op) :
    fl.applyAll (op :: ops) = (fl.apply op).applyAll ops := rfl

theorem applyAll_append (fl : Flash) (ops ops' : List Op) :
    fl.applyAll (ops ++ ops') = (fl.applyAll ops).applyAll ops' :=
  List.foldl_append

@[simp] theorem size_apply (fl : Flash) (op : Op) : (fl.apply op).size = fl.size := by
  cases op <;> exact Memory.size_combine ..

theorem size_applyAll (fl : Flash) (ops : List Op) : (fl.applyAll ops).size = fl.size := by
  induction ops generalizing fl with
  | nil => rfl
  | cons op ops ih => rw [applyAll_cons, ih, size_apply]

end Flash

end FlashBasic
