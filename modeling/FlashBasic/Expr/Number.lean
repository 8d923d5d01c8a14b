import FlashBasic.Cursor

/-!
Numbers in program text. They wrap around at 32 bits.
-/

namespace FlashBasic.Number

set_option autoImplicit false

/-- The digits of `base` that come first, at most `maxLength` of them. -/
def digits (base : Nat) : (maxLength : Nat) → Cursor → List Nat × Cursor
  | 0, c => ([], c)
  | _ + 1, [] => ([], [])
  | n + 1, b :: rest =>
    match Ascii.digit? base b with
    | some d =>
      let (ds, rest) := digits base n rest
      (d :: ds, rest)
    | none => ([], b :: rest)

def ofDigits (base : Nat) (ds : List Nat) : Int32 :=
  ds.foldl (fun value d => value * .ofNat base + .ofNat d) 0

/-- Reads a number; there must be at least one digit. -/
def read (maxLength base : Nat) : Action Cursor Int32 := do
  let (ds, rest) := digits base maxLength (← get)
  if ds.isEmpty then throw .expression
  set rest
  return ofDigits base ds

end FlashBasic.Number
