import FlashBasic.Proofs.Machine.Partition
import FlashBasic.Proofs.Machine.Shadowing

/-!
Calls and returns. GOSUB and an event push a frame, and whatever is called may push, drop and declare
as it likes, be suspended and interrupted: as long as that frame is on the stack, all the rest lies
on top of what was there before (`Arena.Rests`). So the RETURN that takes the frame off leaves stack
and heap as they were at the call.
-/

namespace FlashBasic

set_option autoImplicit false

namespace Arena

/-- Stack and heap of `a` are those of `base` with the frames `above`, and their arrays, on top. -/
structure Rests (base : Arena) (above : List Frame) (a : Arena) : Prop where
  frames : a.frames.map Frame.mute = above ++ base.frames.map Frame.mute
  heap : a.heap = (arrayBlocks above).map (·, true) ++ base.heap
  floor : a.floor = base.floor
  top : a.top = base.top

namespace Rests

variable {base a a' : Arena} {above : List Frame} {frame : Frame}

theorem refl (a : Arena) : Rests a [] a := ⟨rfl, rfl, rfl, rfl⟩

theorem push (h : Rests base above a) (hframe : frame.block? = none)
    (hpush : a.push frame = .ok a') : Rests base (frame.mute :: above) a' := by
  obtain ⟨-, rfl⟩ := push_eq_ok hpush
  have hmute : frame.mute.block? = none := by rw [Frame.block?_mute, hframe]
  constructor
  case frames => rw [List.map_cons, h.frames, List.cons_append]
  case heap => rw [arrayBlocks_cons hmute, h.heap]
  case floor => exact h.floor
  case top => exact h.top

theorem declare (h : Rests base above a) {v : ArrayFrame} {size : Nat} {arena : Arena}
    (halloc : a.alloc size = .ok (v.block, arena)) (hpush : arena.push (.array v) = .ok a') :
    Rests base ((Frame.array v).mute :: above) a' := by
  obtain ⟨-, -, rfl⟩ := alloc_eq_ok halloc
  obtain ⟨-, rfl⟩ := push_eq_ok hpush
  constructor
  case frames => rw [List.map_cons, h.frames, List.cons_append]
  case heap => simp [Frame.mute, h.heap]
  case floor => exact h.floor
  case top => exact h.top

-- The block of an array on top is the last of the heap, so it is given back at once.
theorem pop (h : Rests base (frame :: above) a) (htrimmed : Trimmed base.heap) {top : Frame}
    (hpop : a.pop? = some (top, a')) : Rests base above a' := by
  obtain ⟨frames, hframes, rfl⟩ := pop?_eq_some hpop
  have hmuted := h.frames
  have hheap := h.heap
  rw [hframes, List.map_cons, List.cons_append] at hmuted
  obtain ⟨rfl, hrest⟩ := List.cons.inj hmuted
  cases top with
  | array v =>
    have hrelease := release_of_heap (a := a.dropFrame (.array v) frames) hheap
      (trimmed_append_map htrimmed (arrayBlocks above))
    rw [reclaim, hrelease]
    exact ⟨hrest, rfl, h.floor, h.top⟩
  | _ => exact ⟨hrest, hheap, h.floor, h.top⟩

theorem congr (h : Rests base above a) (hframes : a'.frames.map Frame.mute = a.frames.map Frame.mute)
    (hheap : a'.heap = a.heap) (hfloor : a'.floor = a.floor) (htop : a'.top = a.top) :
    Rests base above a' :=
  ⟨hframes.trans h.frames, hheap.trans h.heap, hfloor.trans h.floor, htop.trans h.top⟩

theorem depth (h : Rests base above a) : a.depth = above.length + base.depth := by
  simpa [Arena.depth] using congrArg List.length h.frames

theorem exists_frames (h : Rests base (above ++ [frame]) a) :
    ∃ before f after, a.frames = before ++ f :: after ∧ before.length = above.length ∧
      f.mute = frame ∧ after.length = base.depth := by
  have hframes := h.frames
  rw [List.append_assoc, List.singleton_append] at hframes
  obtain ⟨before, rest, hsplit, hbefore, hrest⟩ := List.map_eq_append_iff.mp hframes
  obtain ⟨f, after, rfl, hf, hafter⟩ := List.map_eq_cons_iff.mp hrest
  refine ⟨before, f, after, hsplit, ?_, hf, ?_⟩
  · rw [← hbefore, List.length_map]
  · simpa [Arena.depth] using congrArg List.length hafter

theorem free (h : Rests base [] a) (ha : a.Ordered) (hbase : base.Ordered) : a.free = base.free := by
  have hheapTop : a.heapTop = base.heapTop := by
    rw [ha.occupied.top_eq, hbase.occupied.top_eq, h.floor, h.heap]
    rfl
  have hsizes : a.frames.map Frame.size = base.frames.map Frame.size := by
    have := congrArg (List.map Frame.size) h.frames
    simpa [Function.comp_def] using this
  have hstack := ha.stack
  have hstack' := hbase.stack
  have htop := h.top
  rw [hsizes] at hstack
  rw [Arena.free, Arena.free, hheapTop]
  omega

end Rests

end Arena

open Arena (Rests Trimmed)

namespace Machine

variable {σ : Type} {base : Arena} {frame : Frame} {m m' : Machine σ}

/-! ## While a call lasts -/

/-- The machine has `frame` on the stack that `base` had, or has got services since. -/
def Under (base : Arena) (frame : Frame) (m : Machine σ) : Prop :=
  ∃ extra, m.arena.services = base.services ++ extra ∧
    (extra = [] → ∃ above, Rests base (above ++ [frame]) m.arena)

theorem Under.mono (h : m.Under base frame) (hservices : m'.arena.services = m.arena.services)
    (hrests : ∀ above, Rests base (above ++ [frame]) m.arena →
      ∃ above', Rests base (above' ++ [frame]) m'.arena) : m'.Under base frame := by
  obtain ⟨extra, heq, h⟩ := h
  refine ⟨extra, hservices.trans heq, fun hextra => ?_⟩
  obtain ⟨above, habove⟩ := h hextra
  exact hrests above habove

theorem Under.congr (h : m.Under base frame) (hservices : m'.arena.services = m.arena.services)
    (hframes : m'.arena.frames.map Frame.mute = m.arena.frames.map Frame.mute)
    (hheap : m'.arena.heap = m.arena.heap) (hfloor : m'.arena.floor = m.arena.floor)
    (htop : m'.arena.top = m.arena.top) : m'.Under base frame :=
  h.mono hservices fun above habove => ⟨above, habove.congr hframes hheap hfloor htop⟩

theorem Under.push (h : m.Under base frame) {top : Frame} (htop : top.block? = none) {arena : Arena}
    (hpush : m.arena.push top = .ok arena) : Under base frame { m with arena } := by
  refine h.mono ?_ fun above habove => ⟨top.mute :: above, habove.push htop hpush⟩
  obtain ⟨-, rfl⟩ := Arena.push_eq_ok hpush
  rfl

theorem rests_dropTop_iterate {above : List Frame} (h : Rests base above m.arena)
    (htrimmed : Trimmed base.heap) : Rests base [] (dropTop^[above.length] m).arena := by
  induction above generalizing m with
  | nil => exact h
  | cons top above ih =>
    refine ih ?_
    unfold dropTop
    split
    next hpop =>
      rw [Exec.frames_popped]
      exact h.pop htrimmed hpop
    next hpop =>
      have hframes := h.frames
      rw [Exec.frames_of_pop?_eq_none hpop] at hframes
      cases hframes

variable [Host σ]

theorem Under.move (h : m.Under base frame) (htrimmed : Trimmed base.heap) {d : Trend}
    (hmove : Move d m m') (hdepth : base.depth < m'.arena.depth) : m'.Under base frame := by
  cases hmove with
  | dim _ name halloc hpush =>
    refine h.mono ?_ fun above habove => ⟨_ :: above, habove.declare halloc hpush⟩
    obtain ⟨-, -, rfl⟩ := Arena.alloc_eq_ok halloc
    obtain ⟨-, rfl⟩ := Arena.push_eq_ok hpush
    rfl
  | undo _ halloc =>
    refine h.mono ?_ fun above habove => ⟨above, ?_⟩
    · obtain ⟨-, -, rfl⟩ := Arena.alloc_eq_ok halloc
      rfl
    · have hheap := habove.heap ▸ Arena.trimmed_append_map htrimmed (Arena.arrayBlocks _)
      rw [Arena.release_alloc halloc hheap]
      exact habove.congr rfl rfl rfl rfl
  | gosub _ pc hpush => exact h.push rfl hpush
  | loop _ hname step terminal pc hpush => exact h.push rfl hpush
  | @pop _ top arena hpop =>
    rw [Exec.frames_popped] at hdepth
    refine h.mono ?_ fun above habove => ?_
    · obtain ⟨frames, -, rfl⟩ := Arena.pop?_eq_some hpop
      cases top <;> rfl
    · rw [Exec.frames_popped]
      cases above with
      | nil =>
        have := (habove.pop htrimmed hpop).depth
        simp at this
        omega
      | cons top above => exact ⟨above, habove.pop htrimmed hpop⟩
  | reset => exact absurd hdepth (Nat.not_lt_zero _)
  | clear => exact absurd hdepth (Nat.not_lt_zero _)
  | storing _ key data =>
    obtain ⟨store, data, hstoring⟩ :=
      m.eq_of_storing (Item.length (data.length + 4)) (·.putRecord? key data)
    rw [hstoring]
    exact h.congr rfl rfl rfl rfl rfl
  | fill => exact h.congr rfl rfl rfl rfl rfl
  | _ => exact h

theorem held_under (htrimmed : Trimmed base.heap) (frame : Frame) :
    Held base.depth fun m : Machine σ => m.Under base frame where
  move h := h.move htrimmed
  direct h _ := h
  event h _ hpush := h.push rfl hpush
  service h m' service hservice := by
    obtain ⟨block, arena, halloc, rfl⟩ := eq_of_registerService hservice
    obtain ⟨-, -, rfl⟩ := Arena.alloc_eq_ok halloc
    obtain ⟨extra, heq, -⟩ := h
    refine ⟨extra ++ [(block, service)], ?_, fun hextra => by simp at hextra⟩
    simp only [heq, List.append_assoc]
  notifier h m' name n hnotifier := by
    obtain ⟨frames, hmute, rfl⟩ := eq_of_attachNotifier hnotifier
    exact h.congr rfl hmute rfl rfl rfl

end Machine

/-! ## RETURN -/

/-- What RETURN does when it meets the frame. -/
inductive Frame.Answers : Frame → Machine.Turn → Prop where
  | gosub (resume : Pc) : Answers (.gosub resume) (.more resume)
  | event : Answers .event (.halt .ready)

theorem Frame.Answers.eq_of_mute {frame : Frame} {back : Machine.Turn} (h : frame.Answers back)
    {f : Frame} (hf : f.mute = frame) : f = frame := by
  cases h <;> cases f <;> cases hf <;> rfl

theorem Frame.Answers.block? {frame : Frame} {back : Machine.Turn} (h : frame.Answers back) :
    frame.block? = none := by
  cases h <;> rfl

theorem Frame.Answers.mute {frame : Frame} {back : Machine.Turn} (h : frame.Answers back) :
    frame.mute = frame := by
  cases h <;> rfl

theorem Cursor.exec_expectEnd (c : Cursor) :
    expectEnd.exec c =
      (if c.skipBlanks.atEnd then .ok () else .error .general, c.skipBlanks) := by
  rw [expectEnd, Action.exec_bind, Action.exec_modify]
  simp only [Action.exec_bind, Action.exec_get]
  cases c.skipBlanks.atEnd <;> rfl

namespace Exec

variable {σ : Type}

theorem exec_unwind_append {arrays : List Frame} (h : ∀ f ∈ arrays, f.block?.isSome)
    (rest : List Frame) (t : Execution σ) :
    (unwind (arrays ++ rest)).exec t =
      (unwind rest).exec { t with machine := Machine.dropTop^[arrays.length] t.machine } := by
  induction arrays generalizing t with
  | nil => rfl
  | cons f arrays ih =>
    obtain ⟨hf, harrays⟩ := List.forall_mem_cons.mp h
    cases f with
    | array v =>
      rw [List.cons_append, unwind, Action.exec_bind, exec_popFrame_eq]
      exact ih harrays _
    | _ => cases hf

end Exec

namespace Machine

variable {σ : Type} [Host σ] {m : Machine σ} {pc : Pc} {arrays : List Frame}

theorem outcome_unwind (h : ∀ f ∈ arrays, f.block?.isSome) {frame : Frame} {back : Turn}
    (hframe : frame.Answers back) (rest : List Frame) (t : Execution σ) :
    outcome pc ((Exec.unwind (arrays ++ frame :: rest)).exec t) =
      (back, dropTop^[arrays.length + 1] t.machine) := by
  rw [Exec.exec_unwind_append h, Function.iterate_succ_apply']
  cases hframe <;> rw [Exec.unwind, Action.exec_bind, Exec.exec_popFrame_eq] <;> rfl

theorem outcome_unwind_loop (h : ∀ f ∈ arrays, f.block?.isSome) (name : Letter)
    (step terminal : Int32) (resume : Pc) (rest : List Frame) (t : Execution σ) :
    outcome pc ((Exec.unwind (arrays ++ .loop name step terminal resume :: rest)).exec t) =
      halted (fail (dropTop^[arrays.length + 1] t.machine) pc
        { cause := .outOfMemory, detail := "STACK" }) := by
  rw [Exec.exec_unwind_append h, Function.iterate_succ_apply', Exec.unwind, Action.exec_bind,
    Exec.exec_popFrame_eq]
  rfl

/-- The first frame that is not an array is the last to go. -/
theorem depth_outcome_unwind (h : ∀ f ∈ arrays, f.block?.isSome) {frame : Frame}
    (hframe : frame.block? = none) (rest : List Frame) (t : Execution σ) :
    (outcome pc ((Exec.unwind (arrays ++ frame :: rest)).exec t)).2.arena.depth =
      t.machine.arena.depth - (arrays.length + 1) := by
  have hdepth : (dropTop^[arrays.length + 1] t.machine).arena.depth =
      t.machine.arena.depth - (arrays.length + 1) := by
    rw [Arena.depth, frames_dropTop_iterate, List.length_drop, Arena.depth]
  cases frame with
  | gosub resume => rw [outcome_unwind h (.gosub resume), hdepth]
  | event => rw [outcome_unwind h .event, hdepth]
  | loop name step terminal resume =>
    rw [outcome_unwind_loop h]
    exact hdepth
  | array v => cases hframe

/-- There is a RETURN at the place, with nothing after it, and the host lets it happen. -/
structure Returns (m : Machine σ) (pc : Pc) : Prop where
  statement : ∃ rest, Statement.decode.exec (m.textAt pc) = (.ok .return, rest) ∧ rest.skipBlanks.atEnd
  unbroken : (Host.breakCheck m.host).1 = false

theorem step_of_returns (h : m.Returns pc) :
    ∃ unread, m.step pc = outcome pc ((Exec.unwind m.arena.frames).exec
      { machine := { m with host := (Host.breakCheck m.host).2 }, unread }) := by
  obtain ⟨rest, hdecode, hend⟩ := h.statement
  refine ⟨rest.skipBlanks, ?_⟩
  rw [step_eq_perform (ne_end_of_decode hdecode) h.unbroken, perform_eq,
    exec_statement_of_decode hdecode, if_neg (by simp [Statement.isProgramOnly])]
  rw [Exec.perform, Exec.returnToCaller, Action.exec_bind, Exec.exec_read, Cursor.exec_expectEnd,
    if_pos hend]
  rfl

theorem returns_or_alike (h : Statement.ofText? (m.textAt pc) = some .return) :
    m.Returns pc ∨ m.Alike (m.step pc).2 := by
  obtain ⟨rest, hdecode⟩ := Statement.exists_decode h
  have hpc := ne_end_of_decode hdecode
  cases hbreak : (Host.breakCheck m.host).1 with
  | true =>
    rw [step_of_break hpc hbreak]
    exact .inr ⟨_, rfl⟩
  | false =>
    by_cases hend : rest.skipBlanks.atEnd
    · exact .inl ⟨⟨rest, hdecode, hend⟩, hbreak⟩
    · rw [step_eq_perform hpc hbreak, perform_eq, exec_statement_of_decode hdecode,
        if_neg (by simp [Statement.isProgramOnly]), Exec.perform, Exec.returnToCaller,
        Action.exec_bind, Exec.exec_read, Cursor.exec_expectEnd, if_neg hend]
      exact .inr ⟨_, rfl⟩

/-! ## Calls -/

/-- A call leads from the first moment to the second; a return from it has `back` follow. -/
inductive Calls : Moment σ → Moment σ → (back : Turn) → Prop where
  | gosub {m m₁ : Machine σ} {pc pc₁ : Pc} (h : Statement.ofText? (m.textAt pc) = some .gosub)
      (hstep : m.step pc = (.more pc₁, m₁)) :
      Calls (.more pc, m) (.more pc₁, m₁) (.more (m.next pc))
  | event {m m₁ : Machine σ} {line : UInt16} {pc₁ : Pc} (status : Status)
      (h : m.raised line true = (.more pc₁, m₁)) :
      Calls (.halt status, m) (.more pc₁, m₁) (.halt .ready)

/-- The stack, the flags of all names and the free bytes are as they were. -/
structure Restored (m m' : Machine σ) : Prop where
  frames : m'.arena.frames.map Frame.mute = m.arena.frames.map Frame.mute
  shadowed : ∀ name, m'.vars.isShadowed name = m.vars.isShadowed name
  free : m'.arena.free = m.arena.free

namespace Calls

variable {s s₁ : Moment σ} {back : Turn}

theorem next (h : Calls s s₁ back) : Next s s₁ := by
  cases h with
  | @gosub m _ pc _ _ hstep => exact hstep ▸ .step pc m
  | @event m _ line _ status hraised => exact hraised ▸ .event status m line true

theorem push (h : Calls s s₁ back) :
    ∃ frame, frame.Answers back ∧ s.2.arena.push frame = .ok s₁.2.arena := by
  cases h with
  | gosub hgosub hstep =>
    obtain ⟨statement, rest, flow, t, hdecode, hexec, rfl, -⟩ := step_eq_more hstep
    have hstatement : statement = .gosub := by
      rw [Statement.ofText?, hdecode] at hgosub
      exact Option.some.inj hgosub
    obtain rfl := hstatement
    obtain ⟨m₁, number, arena, ⟨host, rfl⟩, hpush, heq, -⟩ := Exec.ensures_gosub _ _ _ hexec
    rw [heq]
    exact ⟨_, .gosub _, hpush⟩
  | event status hraised =>
    unfold raised at hraised
    split at hraised
    · cases hraised
    · rw [if_pos rfl] at hraised
      split at hraised
      next arena hpush =>
        cases hraised
        exact ⟨_, .event, hpush⟩
      next => cases hraised

end Calls

variable {base : Arena} {above : List Frame} {frame : Frame} {back : Turn}

theorem Calls.exists_above {config : Config} {flash : Flash} {host : σ} {s s₁ : Moment σ}
    (hcall : Calls s s₁ back) (h : Course (started config flash host) s)
    (hcourse : CourseWhile (fun m => s.2.arena.depth < m.arena.depth) s₁ (.more pc, m))
    (hservices : m.arena.services = s.2.arena.services) :
    ∃ above frame, frame.Answers back ∧ Rests s.2.arena (above ++ [frame]) m.arena := by
  obtain ⟨frame, hframe, hpush⟩ := hcall.push
  have hrests : Rests s.2.arena [frame] s₁.2.arena := by
    have := (Rests.refl s.2.arena).push hframe.block? hpush
    rwa [hframe.mute] at this
  have hdepth : s.2.arena.depth < s₁.2.arena.depth := by
    rw [hrests.depth, List.length_singleton]
    omega
  have hunder : s₁.2.Under s.2.arena frame := by
    obtain ⟨-, heq⟩ := Arena.push_eq_ok hpush
    exact ⟨[], by rw [heq, List.append_nil], fun _ => ⟨[], hrests⟩⟩
  obtain ⟨extra, hextra, hlater⟩ :=
    (held_under (ordered_of_course h).trimmed frame).course hunder hdepth hcourse
  rw [hservices, List.self_eq_append_right] at hextra
  obtain ⟨above, habove⟩ := hlater hextra
  exact ⟨above, frame, hframe, habove⟩

/-- If RETURN takes the frame of a call off, then with it just the arrays above it. -/
theorem step_of_rests (hrests : Rests base (above ++ [frame]) m.arena) (hframe : frame.Answers back)
    (hreturn : Statement.ofText? (m.textAt pc) = some .return)
    (hdepth : (m.step pc).2.arena.depth ≤ base.depth) :
    m.step pc = (back, dropTop^[above.length + 1] { m with host := (Host.breakCheck m.host).2 }) := by
  have hhigh := hrests.depth
  rw [List.length_append, List.length_singleton] at hhigh
  obtain hreturns | halike := returns_or_alike hreturn
  · obtain ⟨unread, hstep⟩ := step_of_returns hreturns
    obtain ⟨before, f, after, hframes, hlength, hf, hafter⟩ := hrests.exists_frames
    obtain rfl := hframe.eq_of_mute hf
    rw [hframes] at hstep
    cases hfind : before.find? (·.block?.isNone) with
    | none =>
      have harrays : ∀ f ∈ before, f.block?.isSome := by
        simpa [Option.isSome_iff_ne_none] using hfind
      rw [hstep, outcome_unwind harrays hframe, hlength]
    | some top =>
      -- RETURN would end above the frame of the call.
      obtain ⟨htop, arrays, rest, rfl, harrays⟩ := List.find?_eq_some_iff_append.mp hfind
      rw [List.append_assoc, List.cons_append] at hstep
      rw [hstep, depth_outcome_unwind (by simpa using harrays) (by simpa using htop)] at hdepth
      simp only [List.length_append, List.length_cons] at hlength
      dsimp only at hdepth
      omega
  · rw [halike.arena] at hdepth
    omega

theorem depth_step_of_rests (hrests : Rests base (above ++ [frame]) m.arena)
    (hframe : frame.Answers back) (hreturns : m.Returns pc) {f : Frame} {below : List Frame}
    (hframes : m.arena.frames = arrays ++ f :: below) (harrays : ∀ f ∈ arrays, f.block?.isSome)
    (hbelow : below.length = base.depth) : (m.step pc).2.arena.depth = base.depth := by
  obtain ⟨before, f', after, hframes', -, hf', hafter⟩ := hrests.exists_frames
  obtain ⟨rfl, heq⟩ := List.append_inj' (hframes.symm.trans hframes') (by simp [hbelow, hafter])
  obtain ⟨rfl, rfl⟩ := List.cons.inj heq
  obtain rfl := hframe.eq_of_mute hf'
  obtain ⟨unread, hstep⟩ := step_of_returns hreturns
  rw [hstep, hframes, depth_outcome_unwind harrays hframe.block?]
  simp only [Arena.depth, hframes, List.length_append, List.length_cons] at hbelow ⊢
  omega

theorem step_of_returns_to_loop (h : m.Returns pc) {name : Letter} {step terminal : Int32}
    {resume : Pc} {below : List Frame}
    (hframes : m.arena.frames = arrays ++ .loop name step terminal resume :: below)
    (harrays : ∀ f ∈ arrays, f.block?.isSome) :
    (m.step pc).1 = .halt .outOfMemory ∧
      (m.step pc).2.host = Host.report { cause := .outOfMemory, detail := "STACK" }
        (m.sourceOf pc) (Host.breakCheck m.host).2 := by
  obtain ⟨unread, hstep⟩ := step_of_returns h
  rw [hstep, hframes, outcome_unwind_loop harrays]
  refine ⟨rfl, ?_⟩
  show Host.report _ (sourceOf _ pc) _ = _
  rw [host_dropTop_iterate, sourceOf_dropTop_iterate]
  rfl

theorem Restored.of_rests {config : Config} {flash : Flash} {host : σ} {s s' : Moment σ}
    (h : Course (started config flash host) s) (h' : Course (started config flash host) s')
    (hrests : Rests s.2.arena [] s'.2.arena) : s.2.Restored s'.2 where
  frames := hrests.frames
  shadowed name := by
    rw [Bool.eq_iff_iff, (flags_of_course h').shadowed, (flags_of_course h).shadowed,
      ← declared_map_mute, hrests.frames, List.nil_append, declared_map_mute]
  free := hrests.free (ordered_of_course h') (ordered_of_course h)

/-- A RETURN that takes off the frame of a call leaves the machine as it was at the call, goes on
after the call, or to the host if it was an event, and prints nothing. It does so whenever there are
only arrays above that frame. A RETURN that meets a loop first fails. -/
theorem return_of_call {config : Config} {flash : Flash} {host : σ} {s : Moment σ}
    (h : Course (started config flash host) s) :
    (∀ s₁ back pc m, Calls s s₁ back →
      CourseWhile (fun m => s.2.arena.depth < m.arena.depth) s₁ (.more pc, m) →
      m.arena.services = s.2.arena.services →
      Statement.ofText? (m.textAt pc) = some .return →
      ((m.step pc).2.arena.depth ≤ s.2.arena.depth →
        (m.step pc).1 = back ∧ s.2.Restored (m.step pc).2 ∧
          (m.step pc).2.host = (Host.breakCheck m.host).2) ∧
      (m.Returns pc → ∀ arrays f below, m.arena.frames = arrays ++ f :: below →
        (∀ f ∈ arrays, f.block?.isSome) → below.length = s.2.arena.depth →
        (m.step pc).2.arena.depth = s.2.arena.depth)) ∧
    ∀ pc, s.1 = .more pc → s.2.Returns pc → ∀ arrays name step terminal resume below,
      s.2.arena.frames = arrays ++ .loop name step terminal resume :: below →
      (∀ f ∈ arrays, f.block?.isSome) →
      (s.2.step pc).1 = .halt .outOfMemory ∧
        (s.2.step pc).2.host = Host.report { cause := .outOfMemory, detail := "STACK" }
          (s.2.sourceOf pc) (Host.breakCheck s.2.host).2 := by
  refine ⟨fun s₁ back pc m hcall hcourse hservices hreturn => ?_,
    fun pc _ hreturns arrays name step terminal resume below hframes harrays =>
      step_of_returns_to_loop hreturns hframes harrays⟩
  obtain ⟨above, frame, hframe, habove⟩ := hcall.exists_above h hcourse hservices
  refine ⟨fun hdepth => ?_, fun hreturns arrays f below hframes harrays hbelow =>
    depth_step_of_rests habove hframe hreturns hframes harrays hbelow⟩
  have hstep := step_of_rests habove hframe hreturn hdepth
  have hlast : Course (started config flash host) (m.step pc) :=
    (h.tail hcall.next).trans (hcourse.course.tail (.step pc m))
  have hrests : Rests s.2.arena [] (m.step pc).2.arena := by
    rw [hstep]
    have hempty := rests_dropTop_iterate (m := { m with host := (Host.breakCheck m.host).2 })
      habove (ordered_of_course h).trimmed
    rwa [List.length_append, List.length_singleton] at hempty
  refine ⟨by rw [hstep], .of_rests h hlast hrests, ?_⟩
  rw [hstep, host_dropTop_iterate]

/-- A subroutine declares an array, waits, is resumed by an event, declares another and returns. -/
theorem return_of_call_suspended :
    let start : Moment Recorder :=
      started { pages := 1, pageSize := 128, arenaSize := 256 } (.blank 128) {}
    let s := session 1 start ["10 GOSUB 30", "20 END", "30 DIM A(3)", "40 DELAY 5", "50 DIM B(2)",
      "60 RETURN", "RUN"]
    let s₁ := s.2.step (.line 0)
    let paused := onward 2 s₁
    let last := onward 1 (paused.2.raised 50 false)
    Course start s ∧ Calls s s₁ (.more (.line 1)) ∧
      CourseWhile (fun m => s.2.arena.depth < m.arena.depth) s₁ last ∧ last.1 = .more (.line 5) ∧
      last.2.arena.services = s.2.arena.services ∧
      Statement.ofText? (last.2.textAt (.line 5)) = some .return ∧ last.2.arena.depth = 3 ∧
      (last.2.step (.line 5)).2.arena.depth ≤ s.2.arena.depth ∧
      (last.2.step (.line 5)).1 = .more (.line 1) ∧ s.2.Restored (last.2.step (.line 5)).2 := by
  intro start s s₁ paused last
  have hcourse : Course start s := course_session ..
  have hstep : s.2.step (.line 0) = s₁ := rfl
  -- One evaluation of the session for all that is read off it.
  obtain ⟨hturn, hgosub, hnext, hturn₁, hup₁, hpaused, hup₂, hlast, hservices, hreturn, hhigh,
      hdepth⟩ :
      s.1 = .more (.line 0) ∧ Statement.ofText? (s.2.textAt (.line 0)) = some .gosub ∧
      s.2.next (.line 0) = .line 1 ∧ s₁.1 = .more (.line 2) ∧
      (∀ k ≤ 2, s.2.arena.depth < (onward k s₁).2.arena.depth) ∧ paused.1 = .halt .ready ∧
      (∀ k ≤ 1, s.2.arena.depth < (onward k (paused.2.raised 50 false)).2.arena.depth) ∧
      last.1 = .more (.line 5) ∧ last.2.arena.services = s.2.arena.services ∧
      Statement.ofText? (last.2.textAt (.line 5)) = some .return ∧ last.2.arena.depth = 3 ∧
      (last.2.step (.line 5)).2.arena.depth ≤ s.2.arena.depth := by
    decide +kernel
  have hfirst : CourseWhile (fun m => s.2.arena.depth < m.arena.depth) s₁ paused :=
    courseWhile_onward 2 s₁ hup₁
  have hsecond : CourseWhile (fun m => s.2.arena.depth < m.arena.depth)
      (paused.2.raised 50 false) last :=
    courseWhile_onward 1 _ hup₂
  clear_value s s₁ paused last
  obtain ⟨turn, m⟩ := s
  obtain ⟨turn₁, m₁⟩ := s₁
  obtain ⟨turn₂, m₂⟩ := paused
  obtain ⟨turn₃, m₃⟩ := last
  obtain rfl := hturn
  obtain rfl := hturn₁
  obtain rfl := hpaused
  obtain rfl := hlast
  have hcall := Calls.gosub hgosub hstep
  rw [hnext] at hcall
  have hevent := hup₂ 0 (Nat.zero_le 1)
  have hwhile := (hfirst.tail ⟨.event .ready m₂ 50 false, hevent⟩).trans hsecond
  obtain ⟨hback, hrestored, -⟩ :=
    ((return_of_call hcourse).1 _ _ _ _ hcall hwhile hservices hreturn).1 hdepth
  exact ⟨hcourse, hcall, hwhile, rfl, hservices, hreturn, hhigh, hdepth, hback, hrestored⟩

end Machine

end FlashBasic
