import FlashBasic.Error
import FlashBasic.Token

/-!
What the operators compute: 32-bit signed arithmetic that wraps around. Division rounds toward zero,
the remainder takes the sign of the dividend, shifts use the low five bits of their amount, and a
comparison gives 1 or 0.
-/

namespace FlashBasic

set_option autoImplicit false

def truth (b : Bool) : Int32 := if b then 1 else 0

def Operator.apply (o : Operator) (a b : Int32) : Except Error Int32 :=
  match o with
  | .add => .ok (a + b)
  | .sub => .ok (a - b)
  | .mul => .ok (a * b)
  | .div => if b = 0 then .error .divisionByZero else .ok (a / b)
  | .mod => if b = 0 then .error .divisionByZero else .ok (a % b)
  | .and => .ok (a &&& b)
  | .or => .ok (a ||| b)
  | .xor => .ok (a ^^^ b)
  | .shl => .ok (a <<< b)
  | .shr => .ok (a >>> b)
  | .ge => .ok (truth (b ≤ a))
  | .gt => .ok (truth (b < a))
  | .le => .ok (truth (a ≤ b))
  | .lt => .ok (truth (a < b))
  | .eq | .eqEq => .ok (truth (a = b))
  | .ne | .neBang => .ok (truth (a ≠ b))

/-- The distance from zero; the least number has none and stays as it is. -/
def magnitude (a : Int32) : Int32 := if a < 0 then -a else a

/-- The remainder of `a` by `b` that is not negative. -/
def residue (a b : Int32) : Int32 := .ofInt (a.toInt % b.toInt)

end FlashBasic
