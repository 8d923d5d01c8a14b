/-!
Binary search for the place where a list that is split by a test turns from passing to failing.
-/

namespace FlashBasic.Search

set_option autoImplicit false

variable {α : Type} (test : α → Bool)

/-- Narrows the `size` positions from `base` to one. The size shrinks with each step, so `size` is
enough `fuel`. -/
def narrow (xs : List α) : (fuel base size : Nat) → Nat
  | 0, base, _ => base
  | fuel + 1, base, size =>
    if size ≤ 1 then base
    else
      let half := size / 2
      let mid := base + half
      narrow xs fuel (if xs[mid]?.any test then mid else base) (size - half)

/-- The number of elements that pass, if those that pass come before those that fail. -/
def boundary (xs : List α) : Nat :=
  let base := narrow test xs xs.length 0 xs.length
  if xs[base]?.any test then base + 1 else base

end FlashBasic.Search
