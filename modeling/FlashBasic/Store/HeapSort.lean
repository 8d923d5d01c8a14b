/-!
Heap sort of an array by a strict order. Elements of equal rank end up in the order that the sort
happens to leave them in, which is a fixed function of their positions.
-/

namespace FlashBasic.HeapSort

set_option autoImplicit false

variable {α : Type} (lt : α → α → Bool)

/-- Compares the elements at two positions. -/
def before (a : Array α) (i j : Nat) : Bool :=
  match a[i]?, a[j]? with
  | some x, some y => lt x y
  | _, _ => false

/-- Lets the element at `root` sink below greater children, within the first `limit` elements. Its
position grows with each step, so `limit` is enough `fuel`. -/
def siftDown : (fuel root limit : Nat) → Array α → Array α
  | 0, _, _, a => a
  | fuel + 1, root, limit, a =>
    let left := 2 * root + 1
    if limit ≤ left then a
    else
      let child := if left + 1 < limit && before lt a left (left + 1) then left + 1 else left
      if before lt a root child then
        siftDown fuel child limit (a.swapIfInBounds root child)
      else a

/-- Makes every parent at least as great as its children. -/
def heapify (a : Array α) : Array α :=
  (List.range (a.size / 2)).reverse.foldl (fun a root => siftDown lt a.size root a.size a) a

/-- Moves the greatest of the first `last + 1` elements of a heap to their end. -/
def extract (a : Array α) (last : Nat) : Array α :=
  siftDown lt last 0 last (a.swapIfInBounds 0 last)

def sort (a : Array α) : Array α :=
  (List.range' 1 (a.size - 1)).reverse.foldl (extract lt) (heapify lt a)

end FlashBasic.HeapSort
