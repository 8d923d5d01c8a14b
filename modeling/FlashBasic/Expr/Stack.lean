import FlashBasic.Error

/-!
A stack that holds a limited number of values. Pushing beyond the limit is out of memory, with the
stack's own detail; popping what is not there is a bad expression.
-/

namespace FlashBasic

set_option autoImplicit false

structure Stack (α : Type) where
  capacity : Nat
  /-- The detail of the error when the stack is full. -/
  overflow : String
  /-- The last value pushed comes first. -/
  items : List α := []
deriving Repr

namespace Stack

variable {α : Type}

def size (s : Stack α) : Nat := s.items.length

def isEmpty (s : Stack α) : Bool := s.items.isEmpty

def top? (s : Stack α) : Option α := s.items.head?

def push (s : Stack α) (a : α) : Except Error (Stack α) :=
  if s.items.length < s.capacity then .ok { s with items := a :: s.items }
  else .error { cause := .outOfMemory, detail := s.overflow }

def pop (s : Stack α) : Except Error (α × Stack α) :=
  match s.items with
  | a :: rest => .ok (a, { s with items := rest })
  | [] => .error .expression

/-- The top two values, the one pushed first coming first. -/
def popTwo (s : Stack α) : Except Error ((α × α) × Stack α) :=
  match s.items with
  | b :: a :: rest => .ok ((a, b), { s with items := rest })
  | _ => .error .expression

/-- The values in the order they were pushed, in brackets. -/
def inspect (s : Stack α) (render : α → String) : String :=
  "[" ++ ", ".intercalate (s.items.reverse.map render) ++ "]"

@[simp] theorem pop_push {s t : Stack α} {a : α} (h : s.push a = .ok t) : t.pop = .ok (a, s) := by
  unfold push at h
  split at h
  · cases h; rfl
  · cases h

end Stack

end FlashBasic
