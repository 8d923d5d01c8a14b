/-!
Runs of bytes in an array: reading one and replacing one. Positions outside the array are left out
of both.
-/

namespace FlashBasic.Memory

set_option autoImplicit false

/-- The `length` bytes from `addr`, as far as the array reaches. -/
def slice (mem : Array UInt8) (addr length : Nat) : List UInt8 :=
  (mem.extract addr (addr + length)).toList

/-- Replaces the bytes from `addr` by what `f` makes of each and of its counterpart in the list. -/
def combine (f : UInt8 → UInt8 → UInt8) : List UInt8 → (addr : Nat) → Array UInt8 → Array UInt8
  | [], _, mem => mem
  | b :: rest, addr, mem => combine f rest (addr + 1) (mem.modify addr (f · b))

def overwrite (bytes : List UInt8) (addr : Nat) (mem : Array UInt8) : Array UInt8 :=
  combine (fun _ b => b) bytes addr mem

theorem size_combine (f : UInt8 → UInt8 → UInt8) (bytes : List UInt8) (addr : Nat)
    (mem : Array UInt8) : (combine f bytes addr mem).size = mem.size := by
  induction bytes generalizing addr mem with
  | nil => rfl
  | cons b rest ih => simp [combine, ih]

/-- A byte takes part in the change if its counterpart exists, and keeps its value otherwise. -/
theorem getElem?_combine (f : UInt8 → UInt8 → UInt8) (bytes : List UInt8) (addr : Nat)
    (mem : Array UInt8) (i : Nat) :
    (combine f bytes addr mem)[i]? =
      if addr ≤ i ∧ i < addr + bytes.length then
        (mem[i]?).map fun old => f old (bytes.getD (i - addr) 0)
      else mem[i]? := by
  induction bytes generalizing addr mem with
  | nil =>
    have hnot : ¬ (addr ≤ i ∧ i < addr + 0) := by omega
    rw [combine, List.length_nil, if_neg hnot]
  | cons b rest ih =>
    rw [combine, ih, Array.getElem?_modify]
    rcases Nat.lt_trichotomy i addr with h | rfl | h
    · simp [show ¬ addr + 1 ≤ i by omega, show ¬ addr ≤ i by omega, show addr ≠ i by omega]
    · simp [show ¬ i + 1 ≤ i by omega]
    · have hsub : i - addr = (i - (addr + 1)) + 1 := by omega
      simp [show addr + 1 ≤ i by omega, show addr ≤ i by omega, show addr ≠ i by omega, hsub,
        show i < addr + 1 + rest.length ↔ i < addr + (rest.length + 1) by omega]

end FlashBasic.Memory
