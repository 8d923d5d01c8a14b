import FlashBasic.Proofs.Machine.Blocks
import FlashBasic.Proofs.Machine.Calls
import Mathlib.Order.Bounds.Basic

/-!
Loops. FOR pushes a frame with the place after it, and NEXT drops whatever lies above the frame of
its loop before it counts. So a body may leave frames of any kind behind: all that matters is that
it comes to its NEXT with the frame in place and the variable as it was (`Loop.Lap`).

`Loop.Rounds` follows a loop from one NEXT to the following and notes the values with which the body
is entered. `Loop.Rounds.settled` says what is true after any number of rounds, in the arithmetic of
the machine, which wraps around; `Loop.goesOn_iff` counts the rounds when it does not.
-/

namespace FlashBasic

set_option autoImplicit false

namespace Exec

variable {σ : Type} {t : Execution σ}

/-! ## FOR -/

section

variable [Host σ]

/-- Reads a FOR statement: its variable, the first value, the last value and the step. -/
def loopHead : Exec σ (Letter × Int32 × Int32 × Int32) := do
  let name ← read Cursor.letter
  read (Cursor.expectToken (.op .eq))
  let start ← eval .normal
  read (Cursor.expectToken .to)
  let terminal ← eval .normal
  let step ← if ← read (Cursor.acceptToken .step) then eval .normal else pure 1
  read Cursor.expectEnd
  return (name, start, terminal, step)

/-- Starts the loop whose statement has been read. -/
def openLoop (pc : Pc) (name : Letter) (start terminal step : Int32) : Exec σ Flow := do
  if (← machine).vars.isShadowed name then throw .general
  modifyMachine fun m => { m with vars := m.vars.set name start }
  onArena (·.push (.loop name step terminal ((← machine).next pc)))
  return .next

theorem startLoop_eq (pc : Pc) :
    (startLoop pc : Exec σ Flow) =
      loopHead >>= fun head => openLoop pc head.1 head.2.1 head.2.2.1 head.2.2.2 := by
  simp only [startLoop, loopHead, bind_assoc]
  refine bind_congr fun name => bind_congr fun _ => bind_congr fun start => bind_congr fun _ => ?_
  refine bind_congr fun terminal => bind_congr fun stepped => ?_
  cases stepped <;> simp [openLoop]

theorem via_loopHead : Via Machine.Alike t (loopHead : Exec σ _) := by
  refine .bind (.read _) fun name t => .bind (.read _) fun _ t => .bind (.eval _) fun start t => ?_
  refine .bind (.read _) fun _ t => .bind (.eval _) fun terminal t => .bind (.read _) fun _ t => ?_
  exact .either (.eval _) (.pure _) fun step t => .bind (.read _) fun _ t => .pure _

end

/-- FOR sets its variable and pushes a frame with the place after it. -/
theorem ensures_openLoop (pc : Pc) (name : Letter) (start terminal step : Int32) :
    Ensures t (openLoop pc name start terminal step) fun flow t' => ∃ arena,
      t.machine.arena.push (.loop name step terminal (t.machine.next pc)) = .ok arena ∧
      t'.machine = { t.machine with vars := t.machine.vars.set name start, arena } ∧
      flow = .next := by
  refine .machine (.check fun _ => .modifyMachine (.machine (.onArena fun arena harena => ?_)))
  exact .pure ⟨arena, harena, rfl, rfl⟩

/-! ## NEXT -/

theorem findIdx?_isLoopOf {name : Letter} {step terminal : Int32} {resume : Pc}
    {above below : List Frame} (h : ∀ f ∈ above, isLoopOf name f = false) :
    (above ++ .loop name step terminal resume :: below).findIdx? (isLoopOf name) =
      some above.length := by
  have hnone : above.findIdx? (isLoopOf name) = none := List.findIdx?_eq_none_iff.mpr h
  rw [List.findIdx?_append, hnone, List.findIdx?_cons]
  simp [isLoopOf]

theorem exec_popFrames (n : Nat) (t : Execution σ) :
    (popFrames n).exec t = (.ok (), { t with machine := Machine.dropTop^[n] t.machine }) := by
  obtain ⟨x, t', hexec⟩ := sure_popFrames (t := t) n
  rw [hexec, Ensures.popFrames n x t' hexec]

/-- NEXT takes the frames above that of the loop off, adds the step to the variable, and goes round
again or takes the frame of the loop off as well. -/
theorem exec_nextLoop {name : Letter} {rest : Cursor} {step terminal : Int32} {resume : Pc}
    {above below : List Frame}
    (hletter : Cursor.letter.exec t.unread = (.ok name, rest)) (hend : rest.skipBlanks.atEnd)
    (hframes : t.machine.arena.frames = above ++ .loop name step terminal resume :: below)
    (habove : ∀ f ∈ above, isLoopOf name f = false) :
    nextLoop.exec t =
      let m := Machine.dropTop^[above.length] t.machine
      let value := m.vars.get name + step
      let m' := { m with vars := m.vars.set name value }
      if continues step terminal value then
        (.ok (.jump resume), { machine := m', unread := rest.skipBlanks })
      else (.ok .next, { machine := m'.dropTop, unread := rest.skipBlanks }) := by
  rw [nextLoop, Action.exec_bind, exec_read, hletter]
  dsimp only
  rw [Action.exec_bind, exec_read, Cursor.exec_expectEnd, if_pos hend]
  dsimp only
  rw [Action.exec_bind, exec_machine]
  dsimp only
  rw [hframes, findIdx?_isLoopOf habove]
  dsimp only
  rw [Action.exec_bind, exec_popFrames]
  dsimp only
  rw [Action.exec_bind, exec_machine]
  dsimp only
  rw [Machine.frames_dropTop_iterate, hframes, List.drop_left]
  dsimp only
  rw [Action.exec_bind, exec_machine]
  dsimp only
  rw [Action.exec_bind, exec_modifyMachine]
  dsimp only
  split
  · rw [Action.exec_pure]
  · rw [Action.exec_bind, exec_popFrames]
    rfl

end Exec

theorem Variables.get_set (v : Variables) (name : Letter) (value : Int32) :
    (v.set name value).get name = value := by
  simp [get, set]

namespace Machine

variable {σ : Type} {m : Machine σ}

theorem after_dropTop (m : Machine σ) (pos : Nat) : m.dropTop.after pos = m.after pos := by
  obtain ⟨_, _, hdrop⟩ := m.exists_dropTop
  rw [hdrop]
  rfl

theorem get_dropTop (m : Machine σ) (name : Letter) : m.dropTop.vars.get name = m.vars.get name := by
  unfold dropTop popped
  split <;> try split
  all_goals rfl

theorem get_dropTop_iterate (n : Nat) (m : Machine σ) (name : Letter) :
    (dropTop^[n] m).vars.get name = m.vars.get name := by
  induction n generalizing m with
  | zero => rfl
  | succ n ih => rw [Function.iterate_succ_apply, ih, get_dropTop]

/-- The line has a NEXT with this variable and nothing else. -/
def IsNext (m : Machine σ) (pos : Nat) (name : Letter) : Prop :=
  m.head pos = some .next ∧ (Cursor.letter.exec (m.condition pos)).1.toOption = some name ∧
    (Cursor.letter.exec (m.condition pos)).2.skipBlanks.atEnd

instance (m : Machine σ) (pos : Nat) (name : Letter) : Decidable (m.IsNext pos name) :=
  inferInstanceAs (Decidable (_ ∧ _))

variable [Host σ]

theorem step_next {pos : Nat} {name : Letter} {step terminal : Int32} {resume : Pc}
    {above below : List Frame} (hnext : m.IsNext pos name)
    (hbreak : (Host.breakCheck m.host).1 = false)
    (hframes : m.arena.frames = above ++ .loop name step terminal resume :: below)
    (habove : ∀ f ∈ above, Exec.isLoopOf name f = false) :
    ∃ arena vars, arena.frames = .loop name step terminal resume :: below ∧
      vars.get name = m.vars.get name + step ∧
      m.step (.line pos) =
        if Exec.continues step terminal (m.vars.get name + step) then
          (.more resume, { m with host := (Host.breakCheck m.host).2, arena, vars })
        else
          (.more (m.after pos), dropTop { m with host := (Host.breakCheck m.host).2, arena, vars }) := by
  obtain ⟨hhead, hname, hend⟩ := hnext
  have hletter : Cursor.letter.exec (m.condition pos) = (.ok name, _) :=
    Prod.ext (Error.eq_ok_of_toOption hname) rfl
  have hexec := Exec.exec_nextLoop hletter hend hframes habove
    (t := { machine := { m with host := (Host.breakCheck m.host).2 }, unread := m.condition pos })
  let m₀ : Machine σ := { m with host := (Host.breakCheck m.host).2 }
  have hbelow : (dropTop^[above.length] m₀).arena.frames = .loop name step terminal resume :: below := by
    rw [frames_dropTop_iterate, hframes, List.drop_left]
  have hget : (dropTop^[above.length] m₀).vars.get name = m.vars.get name :=
    get_dropTop_iterate above.length m₀ name
  obtain ⟨arena, vars, hdrop⟩ := exists_dropTop_iterate above.length m₀
  rw [hdrop] at hexec hbelow hget
  refine ⟨arena, vars.set name (m.vars.get name + step), hbelow, Variables.get_set _ _ _, ?_⟩
  rw [step_eq_perform (by simp) hbreak, perform_eq,
    exec_statement_of_decode (exec_decode_of_head hhead), if_neg (by simp), Exec.perform, hexec]
  dsimp only at hget ⊢
  rw [hget]
  split
  · rfl
  · rw [outcome, next, after_dropTop]
    rfl

end Machine

/-! ## Loops of a program -/

/-- A loop of a stored program: what its FOR says, and the lines of FOR and NEXT. -/
structure Loop where
  name : Letter
  start : Int32
  terminal : Int32
  step : Int32
  first : Nat
  last : Nat

namespace Loop

/-- The value of the variable after `n` rounds, if numbers were not bounded. -/
def ideal (l : Loop) (n : Nat) : Int := l.start.toInt + n * l.step.toInt

/-- The value of the variable after `n` rounds. -/
def value (l : Loop) (n : Nat) : Int32 := .ofInt (l.ideal n)

/-- The number is past the last value, in the direction of the step. Without a step, all are. -/
def Past (l : Loop) (x : Int) : Prop :=
  0 < l.step.toInt ∧ l.terminal.toInt < x ∨ l.step.toInt < 0 ∧ x < l.terminal.toInt ∨
    l.step.toInt = 0

instance (l : Loop) (x : Int) : Decidable (l.Past x) := inferInstanceAs (Decidable (_ ∨ _))

variable {l : Loop} {n k : Nat}

theorem value_zero (l : Loop) : l.value 0 = l.start := by
  simp [value, ideal]

theorem value_add_step (l : Loop) (n : Nat) : l.value n + l.step = l.value (n + 1) := by
  have hideal : l.ideal (n + 1) = l.ideal n + l.step.toInt := by
    rw [ideal, ideal, Nat.cast_succ]
    ring
  rw [value, value, hideal, Int32.ofInt_add, Int32.ofInt_toInt]

theorem continues_iff (l : Loop) (x : Int32) :
    Exec.continues l.step l.terminal x = true ↔ ¬ l.Past x.toInt := by
  have hzero : (0 : Int32).toInt = 0 := rfl
  simp only [Exec.continues, Past, Bool.or_eq_true, Bool.and_eq_true, decide_eq_true_eq,
    Int32.lt_iff_toInt_lt, Int32.le_iff_toInt_le, hzero]
  omega

/-- If the last value does not leave the range of the numbers, those before it do not. -/
theorem toInt_value (hk : -2 ^ 31 ≤ l.ideal k ∧ l.ideal k < 2 ^ 31) (hn : n ≤ k) :
    (l.value n).toInt = l.ideal n := by
  have hle : (n : Int) ≤ k := Int.ofNat_le.mpr hn
  have hbetween : l.start.toInt ≤ l.ideal n ∧ l.ideal n ≤ l.ideal k ∨
      l.ideal k ≤ l.ideal n ∧ l.ideal n ≤ l.start.toInt := by
    unfold ideal
    obtain hstep | hstep := le_total 0 l.step.toInt
    · left
      have hnonneg := mul_nonneg (Int.natCast_nonneg n) hstep
      have hmul := mul_le_mul_of_nonneg_right hle hstep
      omega
    · right
      have hnonpos := mul_nonpos_of_nonneg_of_nonpos (Int.natCast_nonneg n) hstep
      have hmul := mul_le_mul_of_nonpos_right hle hstep
      omega
  have hlow := l.start.le_toInt
  have hhigh := l.start.toInt_lt
  exact Int32.toInt_ofInt_of_le (by omega) (by omega)

/-! ## Rounds -/

section

open Machine (Moment Course CourseWhile started session onward courseWhile_onward
  exists_onward_of_courseWhile)

variable {σ : Type} [Host σ] {m m₁ m₂ : Machine σ} {s : Moment σ} {xs : List Int32}

def frame (l : Loop) : Frame := .loop l.name l.step l.terminal (.line (l.first + 1))

/-- The program has the loop, and its FOR succeeds. -/
structure Begins (l : Loop) (m : Machine σ) : Prop where
  lt : l.first < l.last
  isFor : m.head l.first = some .for
  isNext : m.IsNext l.last l.name
  reads : (Exec.loopHead.exec { machine := { m with host := (Host.breakCheck m.host).2 }
                                unread := m.condition l.first }).1.toOption =
    some (l.name, l.start, l.terminal, l.step)
  succeeds : ∃ pc m₁, m.step (.line l.first) = (.more pc, m₁)

/-- The frame of the loop, the one on `depth` others, is on the stack, no other loop over the
variable lies above it, and the value of the variable is `x`. -/
structure Spared (l : Loop) (depth : Nat) (x : Int32) (m : Machine σ) : Prop where
  isOn : depth < m.arena.depth
  unnested : ∀ f ∈ m.arena.frames.take (m.arena.depth - (depth + 1)), Exec.isLoopOf l.name f = false
  value : m.vars.get l.name = x

instance (l : Loop) (depth : Nat) (x : Int32) (m : Machine σ) : Decidable (l.Spared depth x m) :=
  decidable_of_iff (_ ∧ _ ∧ _)
    ⟨fun ⟨hon, hunnested, hvalue⟩ => ⟨hon, hunnested, hvalue⟩,
      fun h => ⟨h.isOn, h.unnested, h.value⟩⟩

/-- The lines between FOR and NEXT lead to NEXT, and it is executed. On the way the machine may wait
for calls of its host. -/
structure Lap (l : Loop) (depth : Nat) (m m' : Machine σ) : Prop where
  course : CourseWhile (l.Spared depth (m.vars.get l.name))
    (.more (.line (l.first + 1)), m) (.more (.line l.last), m')
  isNext : m'.IsNext l.last l.name
  unbroken : (Host.breakCheck m'.host).1 = false

/-- Execution of the loop, from FOR to the moment after any NEXT, with the values of the variable
when the body was entered. -/
inductive Rounds (l : Loop) (m : Machine σ) : List Int32 → Moment σ → Prop where
  | start : Rounds l m [] (m.step (.line l.first))
  | lap {xs : List Int32} {m₁ m₂ : Machine σ} :
      Rounds l m xs (.more (.line (l.first + 1)), m₁) → l.Lap m.arena.depth m₁ m₂ →
      Rounds l m (xs ++ [m₁.vars.get l.name]) (m₂.step (.line l.last))

/-- However often the body was entered, it comes to its NEXT. -/
def RunsThrough (l : Loop) (m : Machine σ) : Prop :=
  ∀ xs m₁, l.Rounds m xs (.more (.line (l.first + 1)), m₁) → ∃ m₂, l.Lap m.arena.depth m₁ m₂

/-- The stack is that of `m` with `top` on it, and the loop has counted `n` rounds. -/
structure Level (l : Loop) (m : Machine σ) (n : Nat) (top : List Frame) (m' : Machine σ) : Prop where
  frames : m'.arena.frames.map Frame.mute = top ++ m.arena.frames.map Frame.mute
  value : m'.vars.get l.name = l.value n

def Enters (l : Loop) (m : Machine σ) (n : Nat) (s : Moment σ) : Prop :=
  s.1 = .more (.line (l.first + 1)) ∧ l.Level m n [l.frame] s.2

def Leaves (l : Loop) (m : Machine σ) (n : Nat) (s : Moment σ) : Prop :=
  s.1 = .more (s.2.after l.last) ∧ l.Level m n [] s.2

theorem Rounds.course (h : l.Rounds m xs s) : Course (.more (.line l.first), m) s := by
  induction h with
  | start => exact .single (.step _ m)
  | lap _ hlap ih => exact ih.trans (hlap.course.course.tail (.step _ _))

theorem eq_frame_of_mute {f : Frame} (h : f.mute = l.frame) : f = l.frame := by
  cases f <;> cases h
  rfl

theorem Begins.step (h : l.Begins m) :
    ∃ host arena, m.arena.push l.frame = .ok arena ∧
      m.step (.line l.first) =
        (.more (.line (l.first + 1)), { m with host, vars := m.vars.set l.name l.start, arena }) := by
  obtain ⟨pc, m₁, hstep⟩ := h.succeeds
  obtain ⟨statement, rest, flow, t, hdecode, hexec, rfl, hflow⟩ := Machine.step_eq_more hstep
  rw [Machine.exec_decode_of_head h.isFor] at hdecode
  cases hdecode
  rw [Exec.perform, Exec.startLoop_eq] at hexec
  obtain ⟨head, t₁, hhead, hopen⟩ := Action.exec_bind_eq_ok.mp hexec
  have hreads := h.reads
  rw [hhead] at hreads
  cases hreads
  obtain ⟨host, ht₁⟩ := Exec.via_loopHead.exec hhead
  obtain ⟨arena, hpush, ht, rfl⟩ := Exec.ensures_openLoop _ _ _ _ _ flow t hopen
  rw [ht₁] at hpush ht
  have hnext : m.next (.line l.first) = .line (l.first + 1) :=
    if_pos (Nat.lt_of_le_of_lt h.lt (Machine.lt_size_of_head h.isNext.1))
  obtain ⟨-, rfl⟩ | hjump := hflow
  · refine ⟨host, arena, ?_, ?_⟩
    · rw [frame, ← hnext]
      exact hpush
    · rw [hstep, ht, ← hnext]
      rfl
  · cases hjump

/-- FOR leads into the body with the first value. -/
theorem Begins.enters (h : l.Begins m) : l.Enters m 0 (m.step (.line l.first)) := by
  obtain ⟨host, arena, hpush, hstep⟩ := h.step
  obtain ⟨-, rfl⟩ := Arena.push_eq_ok hpush
  rw [hstep]
  refine ⟨rfl, rfl, ?_⟩
  rw [Variables.get_set, value_zero]

omit [Host σ] in
theorem Level.spared (h : l.Level m n [l.frame] m₁) :
    l.Spared m.arena.depth (m₁.vars.get l.name) m₁ := by
  have hdepth : m₁.arena.depth = m.arena.depth + 1 := by
    simpa [Arena.depth] using congrArg List.length h.frames
  refine ⟨by omega, fun f hf => ?_, rfl⟩
  rw [hdepth, Nat.sub_self, List.take_zero] at hf
  cases hf

/-- The body leaves the frame of the loop, and those below it, in place. -/
theorem Lap.exists_frames (h : l.Lap m.arena.depth m₁ m₂) (hm₁ : l.Level m n [l.frame] m₁) :
    ∃ above below, m₂.arena.frames = above ++ l.frame :: below ∧
      below.map Frame.mute = m.arena.frames.map Frame.mute ∧
      (∀ f ∈ above, Exec.isLoopOf l.name f = false) ∧ m₂.vars.get l.name = l.value n := by
  have hspared : l.Spared m.arena.depth (m₁.vars.get l.name) m₂ := by
    obtain heq | ⟨_, -, hnext⟩ := Relation.ReflTransGen.cases_tail h.course
    · obtain ⟨-, rfl⟩ := Prod.mk.inj heq
      exact hm₁.spared
    · exact hnext.2
  have hcourse : CourseWhile (fun m' => m.arena.depth < m'.arena.depth)
      (.more (.line (l.first + 1)), m₁) (.more (.line l.last), m₂) :=
    Relation.ReflTransGen.mono (fun _ _ hnext => ⟨hnext.1, hnext.2.isOn⟩) _ _ h.course
  have hbefore : (l.frame :: m.arena.frames).map Frame.mute <:+ m₁.arena.frames.map Frame.mute := by
    rw [hm₁.frames]
    exact List.suffix_rfl
  obtain ⟨muted, hsuffix⟩ := (Machine.held_suffix l.frame m.arena.frames).course
    (s := (.more (.line (l.first + 1)), m₁)) hbefore hm₁.spared.isOn hcourse
  obtain ⟨above, rest, hframes, -, hrest⟩ := List.map_eq_append_iff.mp hsuffix.symm
  obtain ⟨f, below, rfl, hf, hbelow⟩ := List.map_eq_cons_iff.mp hrest
  obtain rfl := eq_frame_of_mute hf
  refine ⟨above, below, hframes, hbelow, fun f hf => hspared.unnested f ?_,
    hspared.value.trans hm₁.value⟩
  have hlength : below.length = m.arena.depth := by
    simpa [Arena.depth] using congrArg List.length hbelow
  have htake : m₂.arena.depth - (m.arena.depth + 1) = above.length := by
    rw [Arena.depth, hframes, List.length_append, List.length_cons, hlength]
    omega
  rw [htake, hframes, List.take_left]
  exact hf

/-- What a round does, from the body to the moment after NEXT. -/
theorem Lap.round (h : l.Lap m.arena.depth m₁ m₂) (hm₁ : l.Level m n [l.frame] m₁) :
    (¬ l.Past (l.value (n + 1)).toInt → l.Enters m (n + 1) (m₂.step (.line l.last))) ∧
      (l.Past (l.value (n + 1)).toInt → l.Leaves m (n + 1) (m₂.step (.line l.last))) := by
  obtain ⟨above, below, hframes, hbelow, habove, hvalue⟩ := h.exists_frames hm₁
  obtain ⟨arena, vars, hdropped, hcounted, hstep⟩ :=
    Machine.step_next h.isNext h.unbroken hframes habove
  rw [hvalue, value_add_step] at hcounted hstep
  rw [hstep]
  refine ⟨fun hpast => ?_, fun hpast => ?_⟩
  · rw [if_pos ((l.continues_iff _).mpr hpast)]
    refine ⟨rfl, ?_, hcounted⟩
    rw [hdropped, List.map_cons, hbelow]
    rfl
  · rw [if_neg fun hgoes => (l.continues_iff _).mp hgoes hpast]
    refine ⟨?_, ?_, ?_⟩
    · rw [Machine.after_dropTop]
      rfl
    · rw [Machine.frames_dropTop, hdropped, List.tail_cons, hbelow]
      rfl
    · rw [Machine.get_dropTop, hcounted]

/-- The loop goes on after `n` rounds. -/
def GoesOn (l : Loop) (n : Nat) : Prop := n = 0 ∨ ¬ l.Past (l.value n).toInt

/-- What is true after any number of rounds. -/
structure Settled (l : Loop) (m : Machine σ) (xs : List Int32) (s : Moment σ) : Prop where
  values : xs = (List.range xs.length).map l.value
  before : ∀ i < xs.length, l.GoesOn i
  enters : l.GoesOn xs.length → l.Enters m xs.length s
  leaves : ¬ l.GoesOn xs.length → l.Leaves m xs.length s

omit [Host σ] in
/-- A round begins only if the loop goes on. -/
theorem Settled.goesOn (h : l.Settled m xs s) (hlt : l.first < l.last)
    (hs : s.1 = .more (.line (l.first + 1))) : l.GoesOn xs.length := by
  by_contra hnot
  have hturn := hs.symm.trans (h.leaves hnot).1
  unfold Machine.after at hturn
  split at hturn
  · simp only [Machine.Turn.more.injEq, Pc.line.injEq] at hturn
    omega
  · cases hturn

theorem Rounds.settled (hloop : l.Begins m) (h : l.Rounds m xs s) : l.Settled m xs s := by
  induction h with
  | start =>
    exact ⟨rfl, fun i hi => absurd hi (Nat.not_lt_zero i), fun _ => hloop.enters,
      fun hnot => absurd (.inl rfl) hnot⟩
  | @lap xs m₁ m₂ hrounds hlap ih =>
    have hgoes := ih.goesOn hloop.lt rfl
    have hlevel := (ih.enters hgoes).2
    obtain ⟨hon, hoff⟩ := hlap.round hlevel
    constructor
    case values =>
      rw [List.length_append, List.length_singleton, List.range_succ, List.map_append, ← ih.values,
        hlevel.value]
      rfl
    all_goals rw [List.length_append, List.length_singleton]
    case before =>
      intro i hi
      obtain hi | rfl := Nat.lt_succ_iff_lt_or_eq.mp hi
      · exact ih.before i hi
      · exact hgoes
    case enters => exact fun hgoes' => hon (hgoes'.resolve_left (Nat.succ_ne_zero _))
    case leaves => exact fun hnot => hoff (not_not.mp fun hpast => hnot (.inr hpast))

theorem exists_rounds (hloop : l.Begins m) (hbody : l.RunsThrough m) (h : ∀ i < n, l.GoesOn i) :
    ∃ xs s, l.Rounds m xs s ∧ xs.length = n := by
  induction n with
  | zero => exact ⟨[], _, .start, rfl⟩
  | succ n ih =>
    obtain ⟨xs, ⟨turn, m₁⟩, hrounds, rfl⟩ := ih fun i hi => h i (by omega)
    obtain rfl : turn = _ := ((hrounds.settled hloop).enters (h xs.length (by omega))).1
    obtain ⟨m₂, hlap⟩ := hbody xs m₁ hrounds
    exact ⟨_, _, .lap hrounds hlap, by simp⟩

/-! ## Bodies that run straight through -/

/-- The body is entered, and `j` statements, one after the other, lead to NEXT, which then counts. -/
structure Straight (l : Loop) (depth j : Nat) (s : Moment σ) : Prop where
  enters : s.1 = .more (.line (l.first + 1))
  before : ∀ i < j, (onward i s).1 ≠ .more (.line l.last)
  arrives : (onward j s).1 = .more (.line l.last)
  spared : ∀ i ≤ j, l.Spared depth (s.2.vars.get l.name) (onward i s).2
  isNext : (onward j s).2.IsNext l.last l.name
  unbroken : (Host.breakCheck (onward j s).2.host).1 = false
  counts : (onward (j + 1) s).2.vars.get l.name ≠ s.2.vars.get l.name

/-- A round ends where NEXT is met first, since NEXT changes the variable. -/
theorem Straight.lap_iff {depth j : Nat} (h : l.Straight depth j s) :
    l.Lap depth s.2 m₂ ↔ m₂ = (onward j s).2 := by
  constructor
  · intro hlap
    have hcourse := hlap.course
    rw [← h.enters] at hcourse
    obtain ⟨i, hi, heq⟩ := exists_onward_of_courseWhile hcourse h.arrives
      fun hspared => h.counts hspared.value
    obtain hlt | rfl := hi.lt_or_eq
    · exact absurd (congrArg Prod.fst heq).symm (h.before i hlt)
    · exact congrArg Prod.snd heq
  · rintro rfl
    refine ⟨?_, h.isNext, h.unbroken⟩
    rw [← h.enters, ← h.arrives]
    exact courseWhile_onward j s h.spared

section

variable {j : Nat}
  (hstraight : ∀ r < k, l.Straight m.arena.depth j ((onward (j + 1))^[r] (m.step (.line l.first))))
  (hend : ((onward (j + 1))^[k] (m.step (.line l.first))).1 ≠ .more (.line (l.first + 1)))

include hstraight hend

/-- If each of `k` rounds executes `j` statements and NEXT, there is one way to go through them. -/
theorem Rounds.eq_iterate (h : l.Rounds m xs s) :
    xs.length ≤ k ∧ s = (onward (j + 1))^[xs.length] (m.step (.line l.first)) := by
  induction h with
  | start => exact ⟨Nat.zero_le k, rfl⟩
  | @lap xs m₁ m₂ _ hlap ih =>
    obtain ⟨hle, heq⟩ := ih
    obtain hlt | hlast := hle.lt_or_eq
    · have hround := hstraight xs.length hlt
      rw [List.length_append, List.length_singleton, Function.iterate_succ_apply']
      rw [← heq] at hround ⊢
      obtain rfl := hround.lap_iff.mp hlap
      exact ⟨hlt, (Machine.onward_succ hround.arrives).symm⟩
    · rw [← hlast, ← heq] at hend
      exact absurd rfl hend

theorem runsThrough_of_straight : l.RunsThrough m := by
  intro xs m₁ h
  obtain ⟨hle, heq⟩ := h.eq_iterate hstraight hend
  obtain hlt | hlast := hle.lt_or_eq
  · have hround := hstraight xs.length hlt
    rw [← heq] at hround
    exact ⟨_, hround.lap_iff.mpr rfl⟩
  · rw [← hlast, ← heq] at hend
    exact absurd rfl hend

end

/-! ## Counting the rounds -/

theorem Level.shadowed {config : Config} {flash : Flash} {host : σ} {turn : Machine.Turn}
    {top : List Frame} (h : l.Level m n top s.2) (htop : ∀ a, Frame.array a ∉ top)
    (hm : Course (started config flash host) (turn, m)) (hs : Course (started config flash host) s)
    (name : Letter) : s.2.vars.isShadowed name = m.vars.isShadowed name := by
  have hdeclared : Declared s.2.arena.frames name ↔ Declared m.arena.frames name := by
    rw [← declared_map_mute, h.frames, ← @declared_map_mute m.arena.frames]
    simp [Declared, htop]
  rw [Bool.eq_iff_iff, (Machine.flags_of_course hs).shadowed, hdeclared]
  exact ((Machine.flags_of_course hm).shadowed name).symm

theorem goesOn_iff (hk : IsLeast {k | 1 ≤ k ∧ l.Past (l.ideal k)} k)
    (hfits : -2 ^ 31 ≤ l.ideal k ∧ l.ideal k < 2 ^ 31) (hn : n ≤ k) : l.GoesOn n ↔ n < k := by
  rw [GoesOn, toInt_value hfits hn]
  constructor
  · rintro hgoes
    by_contra hlt
    obtain rfl : n = k := by omega
    obtain ⟨hpos, hpast⟩ := hk.1
    exact hgoes.elim (by omega) (absurd hpast)
  · intro hlt
    by_contra hnot
    rw [not_or, not_not] at hnot
    exact absurd (hk.2 ⟨Nat.pos_of_ne_zero hnot.1, hnot.2⟩) (by omega)

/-- A loop whose variable does not wrap around enters its body once for every value from the start up
to the first that is past the terminal, each time with the frame of the loop on top of the stack and
the flags as they were at FOR. Then NEXT leads on to the line after it, and the stack is that before
FOR. -/
theorem entered_until_past {config : Config} {flash : Flash} {host : σ}
    (hcourse : Course (started config flash host) (.more (.line l.first), m)) (hloop : l.Begins m)
    (hbody : l.RunsThrough m) (hk : IsLeast {k | 1 ≤ k ∧ l.Past (l.ideal k)} k)
    (hfits : -2 ^ 31 ≤ l.ideal k ∧ l.ideal k < 2 ^ 31) :
    (∃ xs s, l.Rounds m xs s ∧ xs.length = k) ∧
      ∀ xs s, l.Rounds m xs s →
        xs.length ≤ k ∧ xs.map Int32.toInt = (List.range xs.length).map l.ideal ∧
        (s.2.vars.get l.name).toInt = l.ideal xs.length ∧
        (∀ name, s.2.vars.isShadowed name = m.vars.isShadowed name) ∧
        (xs.length < k → s.1 = .more (.line (l.first + 1)) ∧
          s.2.arena.frames.map Frame.mute = l.frame :: m.arena.frames.map Frame.mute) ∧
        (xs.length = k → s.1 = .more (s.2.after l.last) ∧
          s.2.arena.frames.map Frame.mute = m.arena.frames.map Frame.mute) := by
  have hgoes {n : Nat} (hn : n ≤ k) := goesOn_iff hk hfits hn
  refine ⟨exists_rounds hloop hbody fun i hi => (hgoes hi.le).mpr hi, fun xs s hrounds => ?_⟩
  have hsettled := hrounds.settled hloop
  have hle : xs.length ≤ k := by
    by_contra hlt
    exact absurd ((hgoes le_rfl).mp (hsettled.before k (by omega))) (lt_irrefl k)
  have hmap : xs.map Int32.toInt = (List.range xs.length).map l.ideal := by
    rw [hsettled.values, List.map_map, List.length_map, List.length_range]
    refine List.map_congr_left fun i hi => toInt_value hfits ?_
    exact (List.mem_range.mp hi).le.trans hle
  have hlater := hcourse.trans hrounds.course
  refine ⟨hle, hmap, ?_⟩
  obtain hlt | heq := hle.lt_or_eq
  · obtain ⟨hturn, hlevel⟩ := hsettled.enters ((hgoes hle).mpr hlt)
    refine ⟨by rw [hlevel.value, toInt_value hfits hle],
      hlevel.shadowed (by simp [frame]) hcourse hlater, fun _ => ⟨hturn, hlevel.frames⟩, fun heq => ?_⟩
    exact absurd heq hlt.ne
  · obtain ⟨hturn, hlevel⟩ := hsettled.leaves fun hgoes' => ((hgoes hle).mp hgoes').ne heq
    refine ⟨by rw [hlevel.value, toInt_value hfits hle],
      hlevel.shadowed (by simp) hcourse hlater, fun hlt => absurd heq hlt.ne, fun _ => ?_⟩
    exact ⟨hturn, hlevel.frames⟩

/-- The body declares an array with the name of the variable, and every NEXT takes it off again. -/
theorem entered_until_past_hidden :
    let start : Moment Recorder :=
      started { pages := 1, pageSize := 64, arenaSize := 192 } (.blank 64) {}
    let s := session 1 start ["1 FOR I=1 TO 5 STEP 2", "2 DIM I(2)", "3 NEXT I", "RUN"]
    let l : Loop := { name := ⟨8⟩, start := 1, terminal := 5, step := 2, first := 0, last := 2 }
    s.1 = .more (.line 0) ∧ l.Begins s.2 ∧
      ∃ xs s', l.Rounds s.2 xs s' ∧ xs.map Int32.toInt = [1, 3, 5] ∧ s'.1 = .more (s'.2.after 2) ∧
        (s'.2.vars.get ⟨8⟩).toInt = 7 ∧ s'.2.vars.isShadowed ⟨8⟩ = false ∧ s'.2.arena.frames = [] := by
  intro start s l
  have hcourse : Course start s := Machine.course_session ..
  let round (r : Nat) : Moment Recorder := (onward 2)^[r] (s.2.step (.line 0))
  -- One evaluation of the session for all that is read off it.
  obtain ⟨hturn, hfor, hnext, hreads, hstep, hframes, hflag, hrounds, hend⟩ :
      s.1 = .more (.line 0) ∧ s.2.head 0 = some .for ∧ s.2.IsNext 2 ⟨8⟩ ∧
      (Exec.loopHead.exec { machine := { s.2 with host := (Host.breakCheck s.2.host).2 }
                            unread := s.2.condition 0 }).1.toOption = some (⟨8⟩, 1, 5, 2) ∧
      (s.2.step (.line 0)).1 = .more (.line 1) ∧ s.2.arena.frames = [] ∧
      s.2.vars.isShadowed ⟨8⟩ = false ∧
      (∀ r < 3, (round r).1 = .more (.line 1) ∧
        (∀ i < 1, (onward i (round r)).1 ≠ .more (.line 2)) ∧
        (onward 1 (round r)).1 = .more (.line 2) ∧
        (∀ i ≤ 1, l.Spared 0 ((round r).2.vars.get ⟨8⟩) (onward i (round r)).2) ∧
        (onward 1 (round r)).2.IsNext 2 ⟨8⟩ ∧
        (Host.breakCheck (onward 1 (round r)).2.host).1 = false ∧
        (onward 2 (round r)).2.vars.get ⟨8⟩ ≠ (round r).2.vars.get ⟨8⟩) ∧
      (round 3).1 ≠ .more (.line 1) := by
    decide +kernel
  clear_value s
  have hbegins : l.Begins s.2 := ⟨by decide, hfor, hnext, hreads, _, _, Prod.ext hstep rfl⟩
  have hdepth : s.2.arena.depth = 0 := by rw [Arena.depth, hframes, List.length_nil]
  have hstraight : ∀ r < 3, l.Straight s.2.arena.depth 1 (round r) := by
    intro r hr
    obtain ⟨henters, hbefore, harrives, hspared, hnext, hbreak, hcounts⟩ := hrounds r hr
    exact ⟨henters, hbefore, harrives, hdepth ▸ hspared, hnext, hbreak, hcounts⟩
  have hcourse : Course start (.more (.line l.first), s.2) := hturn ▸ hcourse
  have hleast : IsLeast {k | 1 ≤ k ∧ l.Past (l.ideal k)} 3 := by
    refine ⟨by decide, ?_⟩
    rintro k ⟨hpos, hpast⟩
    by_contra hlt
    obtain rfl | rfl : k = 1 ∨ k = 2 := by omega
    all_goals exact absurd hpast (by decide)
  obtain ⟨⟨xs, s', hxs, hlength⟩, hall⟩ :=
    entered_until_past hcourse hbegins (runsThrough_of_straight hstraight hend) hleast (by decide)
  obtain ⟨-, hvalues, hvalue, hflags, -, hleaves⟩ := hall xs s' hxs
  obtain ⟨hturn', hframes'⟩ := hleaves hlength
  rw [hlength] at hvalues hvalue
  rw [hframes, List.map_nil, List.map_eq_nil_iff] at hframes'
  exact ⟨hturn, hbegins, xs, s', hxs, hvalues, hturn', hvalue, (hflags _).trans hflag, hframes'⟩

end

end Loop

end FlashBasic
