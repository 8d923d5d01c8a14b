import FlashBasic.Proofs.Machine.Program
import FlashBasic.Proofs.Store.FlashPage

/-!
The heap of an arena. Its blocks lie one on the other without gaps; each array on the stack and each
service owns one that is in use, and the others are holes, left by arrays that ended while a later
block was still in use. `Arena.Occupied` follows the heap from the top and says whose each block is.

A block is given back by value, and blocks without bytes can be equal. This does no harm, because of
equal blocks the last is always the first to go, but it may leave a hole that counts as in use.
-/

namespace FlashBasic

set_option autoImplicit false

namespace Block

/-- The blocks have no byte in common. -/
def Apart (b c : Block) : Prop := b.start + b.size ≤ c.start ∨ c.start + c.size ≤ b.start

theorem Apart.symm {b c : Block} (h : b.Apart c) : c.Apart b := Or.symm h

def Within (low high : Nat) (b : Block) : Prop := low ≤ b.start ∧ b.start + b.size ≤ high

end Block

def Frame.block? : Frame → Option Block
  | .array a => some a.block
  | _ => none

@[simp] theorem Frame.block?_mute (frame : Frame) : frame.mute.block? = frame.block? := by
  cases frame <;> rfl

namespace Arena

/-- The blocks of the arrays on the stack. -/
def arrayBlocks (frames : List Frame) : List Block := frames.filterMap Frame.block?

@[simp] theorem arrayBlocks_cons_array (a : ArrayFrame) (frames : List Frame) :
    arrayBlocks (.array a :: frames) = a.block :: arrayBlocks frames := rfl

theorem arrayBlocks_cons {frame : Frame} (h : frame.block? = none) (frames : List Frame) :
    arrayBlocks (frame :: frames) = arrayBlocks frames := List.filterMap_cons_none h

@[simp] theorem arrayBlocks_map_mute (frames : List Frame) :
    arrayBlocks (frames.map Frame.mute) = arrayBlocks frames := by
  simp [arrayBlocks, List.filterMap_map]

/-! ## Whose the blocks are -/

/-- The blocks of `heap` reach from `floor` to `top`, and are those of the given arrays and services,
last first, and holes. -/
inductive Occupied (floor : Nat) : List (Block × Bool) → (top : Nat) → (arrays services : List Block) →
    Prop where
  | nil : Occupied floor [] floor [] []
  | array {heap : List (Block × Bool)} {start : Nat} {arrays services : List Block} (size : Nat)
      (h : Occupied floor heap start arrays services) :
      Occupied floor ((⟨start, size⟩, true) :: heap) (start + size) (⟨start, size⟩ :: arrays) services
  | service {heap : List (Block × Bool)} {start : Nat} {arrays services : List Block} {size : Nat}
      (hsize : 0 < size) (h : Occupied floor heap start arrays services) :
      Occupied floor ((⟨start, size⟩, true) :: heap) (start + size) arrays (⟨start, size⟩ :: services)
  | hole {heap : List (Block × Bool)} {start : Nat} {arrays services : List Block} (size : Nat)
      (used : Bool) (h : Occupied floor heap start arrays services) :
      Occupied floor ((⟨start, size⟩, used) :: heap) (start + size) arrays services

namespace Occupied

variable {floor top : Nat} {heap : List (Block × Bool)} {b : Block} {arrays services : List Block}

theorem top_eq (h : Occupied floor heap top arrays services) :
    top = floor + (heap.map (·.1.size)).sum := by
  induction h with
  | nil => simp
  | _ => simp; omega

theorem within (h : Occupied floor heap top arrays services) :
    ∀ b ∈ arrays ++ services, b.Within floor top := by
  have hmono {start size : Nat} {owned : List Block} (hle : floor ≤ start)
      (ih : ∀ b ∈ owned, b.Within floor start) :
      ∀ b ∈ (⟨start, size⟩ : Block) :: owned, b.Within floor (start + size) := by
    intro b hb
    rcases List.mem_cons.mp hb with rfl | hb
    · exact ⟨hle, Nat.le_refl _⟩
    · exact ⟨(ih b hb).1, Nat.le_trans (ih b hb).2 (Nat.le_add_right _ _)⟩
  induction h with
  | nil => simp
  | array size h ih => exact hmono (h.top_eq ▸ Nat.le_add_right _ _) ih
  | service hsize h ih =>
    intro b hb
    exact hmono (h.top_eq ▸ Nat.le_add_right _ _) ih b (List.perm_middle.mem_iff.mp hb)
  | hole size used h ih =>
    intro b hb
    exact ⟨(ih b hb).1, Nat.le_trans (ih b hb).2 (Nat.le_add_right _ _)⟩

-- A new block starts where all the others have ended.
theorem apart (h : Occupied floor heap top arrays services) :
    (arrays ++ services).Pairwise Block.Apart := by
  induction h with
  | nil => exact List.Pairwise.nil
  | array size h ih => exact List.pairwise_cons.mpr ⟨fun c hc => .inr (h.within c hc).2, ih⟩
  | service hsize h ih =>
    rw [List.pairwise_middle Block.Apart.symm]
    exact List.pairwise_cons.mpr ⟨fun c hc => .inr (h.within c hc).2, ih⟩
  | hole size used h ih => exact ih

theorem disown (h : Occupied floor heap top (b :: arrays) services) :
    Occupied floor heap top arrays services := by
  generalize howned : b :: arrays = owned at h
  induction h with
  | nil => cases howned
  | array size h ih =>
    obtain ⟨-, rfl⟩ := List.cons.inj howned
    exact .hole size true h
  | service hsize h ih => exact .service hsize (ih howned)
  | hole size used h ih => exact .hole size used (ih howned)

theorem retire (h : Occupied floor heap top (b :: arrays) services) :
    Occupied floor (retire b heap) top arrays services := by
  generalize howned : b :: arrays = owned at h
  induction h with
  | nil => cases howned
  | array size h ih =>
    obtain ⟨rfl, rfl⟩ := List.cons.inj howned
    rw [Arena.retire, if_pos rfl]
    exact .hole size false h
  | @service heap start _ _ size hsize h ih =>
    -- The block of a service is not empty, so it differs from all that lie below it.
    have hne : (⟨start, size⟩ : Block) ≠ b := by
      rintro rfl
      have hend := (h.within _ (List.mem_append_left _ (howned ▸ List.mem_cons_self))).2
      simp only at hend
      omega
    rw [Arena.retire, if_neg hne]
    exact .service hsize (ih howned)
  | @hole heap start _ _ size used h ih =>
    rw [Arena.retire]
    split
    · exact .hole size false (disown (howned ▸ h))
    · exact .hole size used (ih howned)

theorem collapse (h : Occupied floor heap top arrays services) :
    Occupied floor (collapse heap top).1 (collapse heap top).2 arrays services ∧
      (Arena.collapse heap top).2 ≤ top := by
  fun_induction Arena.collapse heap top with
  | case1 b rest top ih =>
    cases h with
    | hole size used h =>
      obtain ⟨hrest, hle⟩ := ih h
      exact ⟨hrest, Nat.le_trans hle (Nat.le_add_right _ _)⟩
  | case2 heap top hused => exact ⟨h, Nat.le_refl _⟩

end Occupied

/-! ## Trimming -/

/-- The last block is in use. -/
def Trimmed (heap : List (Block × Bool)) : Prop := ∀ b rest, heap ≠ (b, false) :: rest

theorem trimmed_nil : Trimmed [] := fun _ _ h => by cases h

theorem trimmed_cons (b : Block) (heap : List (Block × Bool)) : Trimmed ((b, true) :: heap) :=
  fun _ _ h => by cases h

theorem trimmed_append_map {heap : List (Block × Bool)} (h : Trimmed heap) (blocks : List Block) :
    Trimmed (blocks.map (·, true) ++ heap) := by
  cases blocks with
  | nil => exact h
  | cons b blocks => exact trimmed_cons b _

theorem collapse_of_trimmed {heap : List (Block × Bool)} (h : Trimmed heap) (top : Nat) :
    collapse heap top = (heap, top) := by
  unfold collapse
  split
  next b rest => exact absurd rfl (h b rest)
  next => rfl

theorem trimmed_collapse (heap : List (Block × Bool)) (top : Nat) :
    Trimmed (collapse heap top).1 := by
  fun_induction collapse heap top with
  | case1 b rest top ih => exact ih
  | case2 heap top hused => exact fun b rest heq => hused b rest heq

/-- The last block is given back at once. -/
theorem release_of_heap {a : Arena} {b : Block} {heap : List (Block × Bool)}
    (hheap : a.heap = (b, true) :: heap) (h : Trimmed heap) :
    a.release b = { a with heap, heapTop := b.start } := by
  rw [release, hheap, retire, if_pos rfl, collapse, collapse_of_trimmed h]

/-- An allocation that is undone leaves nothing but its zeros. -/
theorem release_alloc {a a' : Arena} {size : Nat} {block : Block}
    (halloc : a.alloc size = .ok (block, a')) (h : Trimmed a.heap) :
    a'.release block = a.write a.heapTop (List.replicate size 0) := by
  obtain ⟨-, rfl, rfl⟩ := alloc_eq_ok halloc
  rw [release_of_heap rfl h]
  rfl

/-! ## The order of an arena -/

/-- Heap and stack share the arena without overlap, and the heap has no holes but for services. -/
structure Ordered (a : Arena) : Prop where
  fits : a.top ≤ a.mem.size
  occupied : Occupied a.floor a.heap a.heapTop (arrayBlocks a.frames) (a.services.map (·.1)).reverse
  heapTop_le : a.heapTop ≤ a.sp
  stack : a.sp + (a.frames.map Frame.size).sum = a.top
  packed : a.services = [] → a.heap = (arrayBlocks a.frames).map (·, true)
  trimmed : Trimmed a.heap

namespace Ordered

variable {a a' : Arena}

theorem floor_le (h : a.Ordered) : a.floor ≤ a.heapTop := h.occupied.top_eq ▸ Nat.le_add_right _ _

theorem ofSize (size : Nat) : (Arena.ofSize size).Ordered where
  fits := by simp [Arena.ofSize]
  occupied := .nil
  heapTop_le := Nat.zero_le _
  stack := rfl
  packed _ := rfl
  trimmed := trimmed_nil

theorem write (h : a.Ordered) (addr : Nat) (data : List UInt8) : (a.write addr data).Ordered where
  fits := by
    rw [Arena.write, Memory.overwrite, Memory.size_combine]
    exact h.fits
  occupied := h.occupied
  heapTop_le := h.heapTop_le
  stack := h.stack
  packed := h.packed
  trimmed := h.trimmed

theorem reset (h : a.Ordered) : a.reset.Ordered where
  fits := h.fits
  occupied := .nil
  heapTop_le := Nat.le_trans h.floor_le (Nat.le_trans h.heapTop_le (Nat.le.intro h.stack))
  stack := rfl
  packed _ := rfl
  trimmed := trimmed_nil

theorem setFloor (h : a.Ordered) (hframes : a.frames = []) (hheap : a.heap = [])
    (hservices : a.services = []) (bytes : Nat) : (a.setFloor bytes).Ordered where
  fits := h.fits
  occupied := by
    simp only [Arena.setFloor, hframes, hheap, hservices]
    exact .nil
  heapTop_le := Nat.min_le_right _ _
  stack := h.stack
  packed := h.packed
  trimmed := h.trimmed

theorem push (h : a.Ordered) {frame : Frame} (hframe : frame.block? = none)
    (hpush : a.push frame = .ok a') : a'.Ordered := by
  obtain ⟨hfits, rfl⟩ := push_eq_ok hpush
  have hstack := h.stack
  constructor
  case occupied => simpa only [arrayBlocks_cons hframe] using h.occupied
  case heapTop_le => simp only; omega
  case stack => simp only [List.map_cons, List.sum_cons]; omega
  case packed => simpa only [arrayBlocks_cons hframe] using h.packed
  case fits => exact h.fits
  case trimmed => exact h.trimmed

theorem declare (h : a.Ordered) {v : ArrayFrame} {size : Nat} {arena : Arena}
    (halloc : a.alloc size = .ok (v.block, arena)) (hpush : arena.push (.array v) = .ok a') :
    a'.Ordered := by
  obtain ⟨hroom, hblock, rfl⟩ := alloc_eq_ok halloc
  obtain ⟨hfits, rfl⟩ := push_eq_ok hpush
  have hstack := h.stack
  constructor
  case fits =>
    simp only [Memory.overwrite, Memory.size_combine]
    exact h.fits
  case occupied =>
    simp only [arrayBlocks_cons_array, hblock]
    exact .array size h.occupied
  case heapTop_le => simp only at hfits ⊢; omega
  case stack => simp only [List.map_cons, List.sum_cons] at hfits ⊢; omega
  case packed =>
    intro hservices
    simp only [arrayBlocks_cons_array, List.map_cons, h.packed hservices]
  case trimmed => exact trimmed_cons _ _

theorem addService (h : a.Ordered) {block : Block} {service : UInt16}
    (halloc : a.alloc serviceSize = .ok (block, a')) :
    Ordered { a' with services := a'.services ++ [(block, service)] } := by
  obtain ⟨hroom, rfl, rfl⟩ := alloc_eq_ok halloc
  constructor
  case fits =>
    simp only [Memory.overwrite, Memory.size_combine]
    exact h.fits
  case occupied =>
    simp only [List.map_append, List.map_cons, List.map_nil, List.reverse_append, List.reverse_cons,
      List.reverse_nil, List.nil_append, List.cons_append]
    exact .service (by decide) h.occupied
  case heapTop_le => exact hroom
  case stack => exact h.stack
  case packed => exact fun hservices => absurd hservices (by simp)
  case trimmed => exact trimmed_cons _ _

/-- The top frame goes; if it is that of an array, its block has still to be given back. -/
theorem dropFrame {frame : Frame} {frames : List Frame} (h : a.Ordered)
    (hframes : a.frames = frame :: frames) :
    a.heapTop ≤ a.sp + frame.size ∧
      (a.sp + frame.size) + (frames.map Frame.size).sum = a.top := by
  have hstack := h.stack
  have hle := h.heapTop_le
  rw [hframes, List.map_cons, List.sum_cons] at hstack
  omega

theorem pop? (h : a.Ordered) {frame : Frame} (hpop : a.pop? = some (frame, a')) : a'.Ordered := by
  obtain ⟨frames, hframes, rfl⟩ := pop?_eq_some hpop
  obtain ⟨hle, hstack⟩ := h.dropFrame hframes
  have hoccupied := h.occupied
  have hpacked := h.packed
  rw [hframes] at hoccupied hpacked
  cases frame with
  | array v =>
    have hretired := hoccupied.retire.collapse
    refine ⟨h.fits, hretired.1, Nat.le_trans hretired.2 hle, hstack, fun hservices => ?_,
      trimmed_collapse _ _⟩
    have hheap := hpacked hservices
    have hrelease := release_of_heap (a := a.dropFrame (.array v) frames) hheap
      (List.append_nil ((arrayBlocks frames).map (·, true)) ▸ trimmed_append_map trimmed_nil _)
    simp only [reclaim, hrelease]
    rfl
  | _ => exact ⟨h.fits, hoccupied, hle, hstack, hpacked, h.trimmed⟩

theorem of_mute (h : a.Ordered) {frames : List Frame}
    (hmute : frames.map Frame.mute = a.frames.map Frame.mute) : Ordered { a with frames } := by
  have hblocks : arrayBlocks frames = arrayBlocks a.frames := by
    rw [← arrayBlocks_map_mute, hmute, arrayBlocks_map_mute]
  have hsizes : frames.map Frame.size = a.frames.map Frame.size := by
    have := congrArg (List.map Frame.size) hmute
    simpa only [List.map_map, Function.comp_def, Frame.size_mute] using this
  exact ⟨h.fits, hblocks ▸ h.occupied, h.heapTop_le, hsizes ▸ h.stack, hblocks ▸ h.packed, h.trimmed⟩

theorem bytes_alloc (h : a.Ordered) {size : Nat} {block : Block}
    (halloc : a.alloc size = .ok (block, a')) : a'.bytes block = List.replicate block.size 0 := by
  obtain ⟨hroom, rfl, rfl⟩ := alloc_eq_ok halloc
  have hstack := h.stack
  have hfits := h.fits
  apply List.ext_getElem?
  intro k
  rw [bytes, Memory.getElem?_slice, Memory.overwrite, Memory.getElem?_combine, List.getElem?_replicate]
  split
  next hk =>
    simp only at hk
    simp [hk, List.getD, show a.heapTop + k < a.mem.size by omega]
  next => rfl

end Ordered

/-- A block keeps its bytes when something is written elsewhere. -/
theorem bytes_write_of_apart {a : Arena} {b : Block} {addr : Nat} {data : List UInt8}
    (h : b.start + b.size ≤ addr ∨ addr + data.length ≤ b.start) :
    (a.write addr data).bytes b = a.bytes b := by
  apply List.ext_getElem?
  intro k
  rw [bytes, bytes, Memory.getElem?_slice, Memory.getElem?_slice, write, Memory.overwrite,
    Memory.getElem?_combine]
  split
  · rw [if_neg (by omega)]
  · rfl

/-! ## What the order means -/

/-- The parts of an arena: heap below, stack above, and nothing wasted unless there are services. -/
structure Partitioned (a : Arena) : Prop where
  floor_le : a.floor ≤ a.heapTop
  heapTop_le : a.heapTop ≤ a.sp
  sp_le : a.sp ≤ a.top
  stack : a.sp + (a.frames.map Frame.size).sum = a.top
  within : ∀ b ∈ arrayBlocks a.frames ++ a.services.map (·.1), b.Within a.floor a.heapTop
  apart : (arrayBlocks a.frames ++ a.services.map (·.1)).Pairwise Block.Apart
  packed : a.services = [] → a.heapTop = a.floor + ((arrayBlocks a.frames).map (·.size)).sum

theorem Ordered.partitioned {a : Arena} (h : a.Ordered) : a.Partitioned := by
  have hperm : (arrayBlocks a.frames ++ (a.services.map (·.1)).reverse).Perm
      (arrayBlocks a.frames ++ a.services.map (·.1)) :=
    (List.reverse_perm _).append_left _
  constructor
  case floor_le => exact h.floor_le
  case heapTop_le => exact h.heapTop_le
  case sp_le => exact Nat.le.intro h.stack
  case stack => exact h.stack
  case within => exact fun b hb => h.occupied.within b (hperm.mem_iff.mpr hb)
  case apart => exact (hperm.pairwise_iff Block.Apart.symm).mp h.occupied.apart
  case packed =>
    intro hservices
    have htop := h.occupied.top_eq
    rw [h.packed hservices, List.map_map] at htop
    exact htop

end Arena

end FlashBasic
