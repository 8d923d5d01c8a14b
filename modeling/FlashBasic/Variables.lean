import FlashBasic.Arena
import FlashBasic.Expr.Eval

/-!
The scalar variables `A` to `Z`. A name is shadowed while an array of that name is on the stack; the
flag spares a search of the stack for the names that are not.
-/

namespace FlashBasic

set_option autoImplicit false

structure Variables where
  values : Vector Int32 26 := Vector.replicate 26 0
  shadowed : Vector Bool 26 := Vector.replicate 26 false
deriving DecidableEq, Repr

namespace Variables

def get (v : Variables) (name : Letter) : Int32 := v.values[name.slot]

def set (v : Variables) (name : Letter) (value : Int32) : Variables :=
  { v with values := v.values.set name.slot value }

def isShadowed (v : Variables) (name : Letter) : Bool := v.shadowed[name.slot]

def setShadowed (v : Variables) (name : Letter) (shadowed : Bool) : Variables :=
  { v with shadowed := v.shadowed.set name.slot shadowed }

/-- The array that a name stands for. -/
def array? (v : Variables) (arena : Arena) (name : Letter) : Option ArrayFrame :=
  if v.isShadowed name then arena.array? name else none

def binding (v : Variables) (arena : Arena) (name : Letter) : Binding :=
  match v.array? arena name with
  | some a => .array (arena.bytes a.block)
  | none => .scalar (v.get name)

end Variables

end FlashBasic
