import FlashBasic.Proofs.Machine.Course

/-!
The stack of frames along the course of a machine. `Frame.mute` forgets whom an array tells of its
changes, as that is the one thing about a frame that can change while it is on the stack.

`Machine.Held` gathers what has to be shown of a property that lasts as long as the stack is higher
than a given depth.
-/

namespace FlashBasic

set_option autoImplicit false

/-! ## Frames -/

namespace Frame

/-- The frame without its notifier. -/
def mute : Frame → Frame
  | .array a => .array { a with notifier := none }
  | frame => frame

@[simp] theorem size_mute (frame : Frame) : frame.mute.size = frame.size := by
  cases frame <;> rfl

/-- Where a frame says that execution continues. -/
def resume? : Frame → Option Pc
  | .gosub resume => some resume
  | .loop _ _ _ resume => some resume
  | _ => none

@[simp] theorem resume?_mute (frame : Frame) : frame.mute.resume? = frame.resume? := by
  cases frame <;> rfl

end Frame

namespace Arena

theorem map_mute_modifyArray (name : Letter) (notifier : Option UInt16) (frames : List Frame) :
    (modifyArray name (fun v => { v with notifier }) frames).map Frame.mute =
      frames.map Frame.mute := by
  induction frames with
  | nil => rfl
  | cons frame frames ih =>
    cases frame with
    | array v =>
      by_cases h : v.name = name <;> simp [modifyArray, Frame.arrayNamed?, h, ih, Frame.mute]
    | _ => simpa [modifyArray, Frame.arrayNamed?] using ih

theorem push_eq_ok {a a' : Arena} {frame : Frame} (h : a.push frame = .ok a') :
    a.heapTop + frame.size ≤ a.sp ∧
      a' = { a with sp := a.sp - frame.size, frames := frame :: a.frames } := by
  unfold push at h
  split at h
  next hfits =>
    cases h
    exact ⟨hfits, rfl⟩
  next => cases h

theorem push_eq_error {a : Arena} {frame : Frame} {e : Error} (h : a.push frame = .error e) :
    a.free < frame.size ∧ e = .outOfMemory := by
  unfold push at h
  split at h
  next => cases h
  next hfull =>
    cases h
    have hpos : 0 < frame.size := by cases frame <;> exact Nat.succ_pos _
    exact ⟨by unfold free; omega, rfl⟩

theorem alloc_eq_ok {a a' : Arena} {size : Nat} {block : Block}
    (h : a.alloc size = .ok (block, a')) :
    a.heapTop + size ≤ a.sp ∧ block = ⟨a.heapTop, size⟩ ∧
      a' = { a with
        mem := Memory.overwrite (List.replicate size 0) a.heapTop a.mem
        heap := (block, true) :: a.heap
        heapTop := a.heapTop + size } := by
  unfold alloc at h
  split at h
  next hfits =>
    cases h
    exact ⟨hfits, rfl, rfl⟩
  next => cases h

/-- The arena with its top frame taken off; an array has still to give its block back. -/
def dropFrame (a : Arena) (frame : Frame) (frames : List Frame) : Arena :=
  { a with sp := a.sp + frame.size, frames }

/-- What taking `frame` off makes of the arena below it. -/
def reclaim (a : Arena) : Frame → Arena
  | .array v => a.release v.block
  | _ => a

theorem pop?_of_frames {a : Arena} {frame : Frame} {frames : List Frame}
    (h : a.frames = frame :: frames) :
    a.pop? = some (frame, (a.dropFrame frame frames).reclaim frame) := by
  unfold pop?
  rw [h]
  cases frame <;> rfl

theorem pop?_eq_some {a a' : Arena} {frame : Frame} (h : a.pop? = some (frame, a')) :
    ∃ frames, a.frames = frame :: frames ∧ a' = (a.dropFrame frame frames).reclaim frame := by
  cases hframes : a.frames with
  | nil =>
    unfold pop? at h
    rw [hframes] at h
    cases h
  | cons top frames =>
    rw [pop?_of_frames hframes] at h
    obtain ⟨rfl, rfl⟩ := Prod.mk.inj (Option.some.inj h)
    exact ⟨frames, rfl, rfl⟩

end Arena

namespace Machine

variable {σ : Type} {m m' : Machine σ}

/-! ## Calls -/

theorem eq_of_registerService {service : UInt16} (h : m.registerService service = .ok m') :
    ∃ block arena, m.arena.alloc Arena.serviceSize = .ok (block, arena) ∧
      m' = { m with arena := { arena with services := arena.services ++ [(block, service)] } } := by
  unfold registerService Arena.addService at h
  cases halloc : m.arena.alloc Arena.serviceSize with
  | error e =>
    rw [halloc] at h
    cases h
  | ok y =>
    rw [halloc] at h
    cases h
    exact ⟨y.1, y.2, rfl, rfl⟩

theorem eq_of_attachNotifier {name : Letter} {n : UInt16} (h : m.attachNotifier name n = .ok m') :
    ∃ frames, frames.map Frame.mute = m.arena.frames.map Frame.mute ∧
      m' = { m with arena := { m.arena with frames } } := by
  unfold attachNotifier Arena.setNotifier? at h
  cases harray : m.arena.array? name with
  | none =>
    rw [harray] at h
    cases h
  | some v =>
    rw [harray] at h
    cases h
    exact ⟨_, Arena.map_mute_modifyArray name (some n) m.arena.frames, rfl⟩

/-- Storing touches the store and the free bytes of the arena. -/
theorem eq_of_storing (m : Machine σ) (length : Nat) (put? : Store → Option Store) :
    ∃ store data,
      (m.storing length put?).2 = { m with store, arena := m.arena.writeScratch data } := by
  have hcompact {m' : Machine σ} (h : m.compact? length = some m') :
      ∃ store data, m' = { m with store, arena := m.arena.writeScratch data } := by
    obtain ⟨p, -, rfl⟩ := Option.map_eq_some_iff.mp h
    exact ⟨_, _, rfl⟩
  unfold storing
  split
  · exact ⟨_, [], rfl⟩
  · split
    · exact ⟨_, [], rfl⟩
    next m' hm' =>
      obtain ⟨store, data, rfl⟩ := hcompact hm'
      split
      · exact ⟨_, data, rfl⟩
      · exact ⟨_, data, rfl⟩

variable [Host σ]

/-- A numbered line is refused, deletes a line, or is stored, which may fail as well. -/
theorem edit_cases (m : Machine σ) (line : Line) :
    (∃ e, m.edit line = m.reset.fail .end e) ∨
    (m.edit line).2 =
      reserveIndex { m.reset with store := m.reset.store.deleteLine line.number } ∨
    (∃ m', m.reset.storing (Item.length line.text.length) (·.putLine? line.number line.text) =
        (true, m') ∧ (m.edit line).2 = m'.reserveIndex) ∨
    ∃ m', m.reset.storing (Item.length line.text.length) (·.putLine? line.number line.text) =
        (false, m') ∧ m.edit line = m'.fail .end .outOfMemory := by
  unfold edit editWith
  dsimp only
  split
  · exact .inr (.inl rfl)
  · split
    · exact .inl ⟨_, rfl⟩
    · split
      · exact .inl ⟨_, rfl⟩
      · cases hstoring : m.reset.storing (Item.length line.text.length)
            (·.putLine? line.number line.text) with
        | mk stored m' =>
          cases stored with
          | true => exact .inr (.inr (.inl ⟨m', rfl, rfl⟩))
          | false => exact .inr (.inr (.inr ⟨m', rfl, rfl⟩))

theorem eq_of_edit (m : Machine σ) (line : Line) :
    ∃ host store data,
      (m.edit line).2 =
          { m.reset with host, store, arena := m.reset.arena.writeScratch data } ∨
        (m.edit line).2 =
          reserveIndex { m.reset with host, store, arena := m.reset.arena.writeScratch data } := by
  obtain ⟨store, data, heq⟩ := m.reset.eq_of_storing (Item.length line.text.length)
    (·.putLine? line.number line.text)
  obtain ⟨e, h⟩ | h | ⟨m', hstoring, h⟩ | ⟨m', hstoring, h⟩ := m.edit_cases line
  · exact ⟨_, _, [], .inl (congrArg Prod.snd h)⟩
  · exact ⟨_, _, [], .inr h⟩
  · rw [hstoring] at heq
    obtain rfl := heq
    exact ⟨_, _, data, .inr h⟩
  · rw [hstoring] at heq
    obtain rfl := heq
    exact ⟨_, _, data, .inl (congrArg Prod.snd h)⟩

theorem frames_edit (m : Machine σ) (line : Line) : (m.edit line).2.arena.frames = [] := by
  obtain ⟨host, store, data, h | h⟩ := m.eq_of_edit line <;> rw [h] <;> rfl

theorem vars_edit (m : Machine σ) (line : Line) : (m.edit line).2.vars = {} := by
  obtain ⟨host, store, data, h | h⟩ := m.eq_of_edit line <;> rw [h] <;> rfl

/-! ## What a statement does to the stack -/

/-- Every move leaves the frames, pushes one that goes on after some place, takes one off or takes
all off. Loops do not start over the name of an array. -/
theorem Move.frames {d : Trend} (h : Move d m m') :
    m'.arena.frames = m.arena.frames ∨
      (d = .up ∧ ∃ frame, m'.arena.frames = frame :: m.arena.frames ∧
        (∀ resume, frame.resume? = some resume → ∃ pc, resume = m.next pc) ∧
        ∀ name, Exec.isLoopOf name frame = true → m.array? name = none) ∨
      (d = .down ∧ ((∃ frame, m.arena.frames = frame :: m'.arena.frames) ∨
        m'.arena.frames = [])) := by
  cases h with
  | dim _ name halloc hpush =>
    obtain ⟨-, -, rfl⟩ := Arena.alloc_eq_ok halloc
    obtain ⟨-, rfl⟩ := Arena.push_eq_ok hpush
    exact .inr (.inl ⟨rfl, _, rfl, nofun, nofun⟩)
  | gosub _ pc hpush =>
    obtain ⟨-, rfl⟩ := Arena.push_eq_ok hpush
    exact .inr (.inl ⟨rfl, _, rfl, fun _ hresume => ⟨pc, (Option.some.inj hresume).symm⟩, nofun⟩)
  | loop _ hname step terminal pc hpush =>
    obtain ⟨-, rfl⟩ := Arena.push_eq_ok hpush
    refine .inr (.inl ⟨rfl, _, rfl, fun _ hresume => ⟨pc, (Option.some.inj hresume).symm⟩, ?_⟩)
    intro name' hloop
    obtain rfl := of_decide_eq_true hloop
    exact hname
  | pop _ hpop =>
    rw [Exec.frames_popped]
    exact .inr (.inr ⟨rfl, .inl ⟨_, Exec.frames_of_pop?_eq_some hpop⟩⟩)
  | reset => exact .inr (.inr ⟨rfl, .inr rfl⟩)
  | clear => exact .inr (.inr ⟨rfl, .inr rfl⟩)
  | undo _ halloc =>
    obtain ⟨-, -, rfl⟩ := Arena.alloc_eq_ok halloc
    exact .inl rfl
  | storing _ key data =>
    obtain ⟨store, data, hstoring⟩ :=
      m.eq_of_storing (Item.length (data.length + 4)) (·.putRecord? key data)
    rw [hstoring]
    exact .inl rfl
  | _ => exact .inl rfl

theorem Path.suffix_up (h : Path .up m m') : m.arena.frames <:+ m'.arena.frames := by
  induction h with
  | refl => exact List.suffix_rfl
  | tail _ hmove ih =>
    obtain heq | ⟨-, frame, heq, -⟩ | ⟨hd, -⟩ := hmove.frames
    · exact heq ▸ ih
    · exact heq ▸ ih.trans (List.suffix_cons _ _)
    · cases hd

theorem Path.suffix_down (h : Path .down m m') : m'.arena.frames <:+ m.arena.frames := by
  induction h with
  | refl => exact List.suffix_rfl
  | tail _ hmove ih =>
    obtain heq | ⟨hd, -⟩ | ⟨-, ⟨frame, heq⟩ | heq⟩ := hmove.frames
    · exact heq ▸ ih
    · cases hd
    · exact (heq ▸ List.suffix_cons _ _).trans ih
    · exact heq ▸ List.nil_suffix

theorem Path.depth_le (h : Path .up m m') : m.arena.depth ≤ m'.arena.depth :=
  h.suffix_up.length_le

theorem Path.le_depth (h : Path .down m m') : m'.arena.depth ≤ m.arena.depth :=
  h.suffix_down.length_le

/-! ## While a frame stays on the stack -/

/-- What keeps `P` true as long as more than `depth` frames are on the stack. -/
structure Held (depth : Nat) (P : Machine σ → Prop) : Prop where
  move : ∀ {d m m'}, P m → Move d m m' → depth < m'.arena.depth → P m'
  direct : ∀ {m}, P m → ∀ text, P { m with direct := text }
  event : ∀ {m}, P m → ∀ {arena}, m.arena.push .event = .ok arena → P { m with arena }
  service : ∀ {m}, P m → ∀ {m' service}, m.registerService service = .ok m' → P m'
  notifier : ∀ {m}, P m → ∀ {m' name n}, m.attachNotifier name n = .ok m' → P m'

namespace Held

variable {P : Machine σ → Prop} {depth : Nat}

-- The moves of a path go one way, so none of them can leave the stack lower than both ends.
theorem path (h : Held depth P) (hm : P m) {d : Trend} (hpath : Path d m m')
    (hbefore : depth < m.arena.depth) (hafter : depth < m'.arena.depth) : P m' := by
  induction hpath with
  | refl => exact hm
  | tail hpath hmove ih =>
    refine h.move (ih ?_) hmove hafter
    cases d with
    | up => exact Nat.lt_of_lt_of_le hbefore (Path.depth_le hpath)
    | down => exact Nat.lt_of_lt_of_le hafter (Path.le_depth (.single hmove))

theorem host (h : Held depth P) (hm : P m) (hdepth : depth < m.arena.depth) (host : σ) :
    P { m with host } :=
  h.move (d := .up) hm (.host m host) hdepth

theorem entered (h : Held depth P) (hm : P m) (hdepth : depth < m.arena.depth) {typed : String}
    (hafter : depth < (m.entered typed).2.arena.depth) : P (m.entered typed).2 := by
  unfold Machine.entered at hafter ⊢
  split
  next e _ => exact h.host hm hdepth _
  next line hparse =>
    simp only [hparse] at hafter
    split
    next hnumbered =>
      rw [if_pos hnumbered] at hafter
      unfold halted Arena.depth at hafter
      rw [frames_edit] at hafter
      exact absurd hafter (Nat.not_lt_zero _)
    next =>
      split
      · exact hm
      · exact h.direct hm line.text

theorem raised (h : Held depth P) (hm : P m) (hdepth : depth < m.arena.depth) (line : UInt16)
    (canReturn : Bool) : P (m.raised line canReturn).2 := by
  unfold Machine.raised
  split
  · exact hm
  · split
    · split
      next arena harena => exact h.event hm harena
      next e _ => exact h.host hm hdepth _
    · exact hm

theorem setup (h : Held depth P) (hm : P m) (hdepth : depth < m.arena.depth) : P m.setup := by
  unfold Machine.setup
  dsimp only
  split
  · exact h.host (h.host (h.host hm hdepth _) hdepth _) hdepth _
  · exact h.host (h.host hm hdepth _) hdepth _

theorem next (h : Held depth P) {s s' : Moment σ} (hs : P s.2) (hbefore : depth < s.2.arena.depth)
    (hnext : Next s s') (hafter : depth < s'.2.arena.depth) : P s'.2 := by
  cases hnext with
  | step pc m =>
    obtain ⟨d, hpath⟩ := m.path_step pc
    exact h.path hs hpath hbefore hafter
  | enter status m typed => exact h.entered hs hbefore hafter
  | event status m line canReturn => exact h.raised hs hbefore line canReturn
  | host status m host => exact h.host hs hbefore host
  | setup status m => exact h.setup hs hbefore
  | reset status m => exact h.move hs (.reset m) hafter
  | service status hservice => exact h.service hs hservice
  | notifier status hnotifier => exact h.notifier hs hnotifier

theorem course (h : Held depth P) {s s' : Moment σ} (hs : P s.2) (hdepth : depth < s.2.arena.depth)
    (hcourse : CourseWhile (fun m => depth < m.arena.depth) s s') : P s'.2 := by
  have hboth : P s'.2 ∧ depth < s'.2.arena.depth := by
    induction hcourse with
    | refl => exact ⟨hs, hdepth⟩
    | tail _ hnext ih => exact ⟨h.next ih.1 ih.2 hnext.1 hnext.2, hnext.2⟩
  exact hboth.1

end Held

/-- As long as the stack is higher, the frames below stay, but for their notifiers. -/
theorem held_suffix (frame : Frame) (below : List Frame) :
    Held below.length fun m : Machine σ =>
      (frame :: below).map Frame.mute <:+ m.arena.frames.map Frame.mute where
  move {d m m'} h hmove hdepth := by
    obtain heq | ⟨-, top, heq, -⟩ | ⟨-, ⟨top, heq⟩ | heq⟩ := hmove.frames
    · rw [heq]
      exact h
    · rw [heq, List.map_cons]
      exact h.trans (List.suffix_cons _ _)
    · rw [heq, List.map_cons] at h
      rcases List.suffix_cons_iff.mp h with hall | hrest
      · have hlength := congrArg List.length hall
        simp only [List.length_map, List.length_cons] at hlength
        unfold Arena.depth at hdepth
        omega
      · exact hrest
    · simp [Arena.depth, heq] at hdepth
  direct h _ := h
  event h arena hpush := by
    obtain ⟨-, rfl⟩ := Arena.push_eq_ok hpush
    exact h.trans (List.suffix_cons _ _)
  service h m' service hservice := by
    obtain ⟨block, arena, halloc, rfl⟩ := eq_of_registerService hservice
    obtain ⟨-, -, rfl⟩ := Arena.alloc_eq_ok halloc
    exact h
  notifier h m' name n hnotifier := by
    obtain ⟨frames, hmute, rfl⟩ := eq_of_attachNotifier hnotifier
    exact hmute ▸ h

end Machine

end FlashBasic
