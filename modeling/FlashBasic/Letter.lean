import FlashBasic.Text.Ascii

/-!
Variable names: the twenty-six letters `A` to `Z`.
-/

namespace FlashBasic

set_option autoImplicit false

structure Letter where
  slot : Fin 26
deriving Repr, Inhabited

namespace Letter

theorem slot_inj {a b : Letter} : a.slot = b.slot ↔ a = b := by
  cases a
  cases b
  simp

-- Compares the slots only, so that it can be evaluated wherever they can.
instance : DecidableEq Letter := fun a b =>
  decidable_of_decidable_of_iff (p := a.slot = b.slot) slot_inj

def byte (l : Letter) : UInt8 := Ascii.code 'A' + l.slot.val.toUInt8

def ofByte? (b : UInt8) : Option Letter :=
  if h : (b - Ascii.code 'A').toNat < 26 then some ⟨⟨(b - Ascii.code 'A').toNat, h⟩⟩ else none

end Letter

end FlashBasic
