import FlashBasic.Proofs.Machine.Loops
import FlashBasic.Proofs.Machine.Shadowing

/-!
Scalars that are hidden by arrays. While a name stands for an array its scalar keeps the value that
it had when the first array of that name was declared, and once RETURN or the NEXT of another variable
has taken that array off the stack, the name reads as that value again
(`Machine.hidden_scalar_of_course`).

Most statements refuse to set the scalar of a shadowed name. NEXT does not ask, but then the name of
the loop whose frame is on top of the stack is not shadowed: no loop starts over the name of an
array, and arrays that are declared later lie above the frame (`LoopsOverScalars`).
-/

namespace FlashBasic

set_option autoImplicit false

theorem Variables.get_set_of_ne {v : Variables} {name other : Letter} (h : name ≠ other)
    (value : Int32) : (v.set name value).get other = v.get other := by
  obtain ⟨i⟩ := name
  obtain ⟨j⟩ := other
  have hslots : (i : Nat) ≠ j := fun heq => h (congrArg Letter.mk (Fin.ext heq))
  simp [get, set, hslots]

/-! ## Loops and arrays on the stack -/

theorem Exec.isLoopOf_mute (name : Letter) (frame : Frame) :
    isLoopOf name frame.mute = isLoopOf name frame := by
  cases frame <;> rfl

/-- No loop runs over a name that is declared below its frame. -/
def LoopsOverScalars : List Frame → Prop
  | [] => True
  | frame :: below =>
    (∀ name, Exec.isLoopOf name frame = true → ¬ Declared below name) ∧ LoopsOverScalars below

namespace LoopsOverScalars

variable {frames : List Frame}

theorem of_mute (h : LoopsOverScalars frames) {frames' : List Frame}
    (hmute : frames'.map Frame.mute = frames.map Frame.mute) : LoopsOverScalars frames' := by
  induction frames' generalizing frames with
  | nil => trivial
  | cons frame' below' ih =>
    obtain ⟨frame, below, rfl, hframe, hbelow⟩ := List.map_eq_cons_iff.mp hmute.symm
    refine ⟨fun name hloop => ?_, ih h.2 hbelow.symm⟩
    rw [← declared_map_mute, ← hbelow, declared_map_mute]
    refine h.1 name ?_
    rwa [← Exec.isLoopOf_mute, hframe, Exec.isLoopOf_mute]

end LoopsOverScalars

/-- An array of this name lies on `depth` other frames, and no other lies below it. -/
def Outermost (frames : List Frame) (name : Letter) (depth : Nat) : Prop :=
  ∃ above a below, frames = above ++ .array a :: below ∧ a.name = name ∧ ¬ Declared below name ∧
    below.length = depth

namespace Outermost

variable {frames frames' : List Frame} {name : Letter} {depth : Nat}

theorem declared (h : Outermost frames name depth) : Declared frames name := by
  obtain ⟨above, a, below, rfl, hname, -⟩ := h
  exact ⟨a, by simp, hname⟩

theorem lt_length (h : Outermost frames name depth) : depth < frames.length := by
  obtain ⟨above, a, below, rfl, -, -, rfl⟩ := h
  rw [List.length_append, List.length_cons]
  omega

theorem cons (h : Outermost frames name depth) (frame : Frame) :
    Outermost (frame :: frames) name depth := by
  obtain ⟨above, a, below, rfl, hrest⟩ := h
  exact ⟨frame :: above, a, below, rfl, hrest⟩

theorem of_cons {frame : Frame} (h : Outermost (frame :: frames) name depth)
    (hdepth : depth < frames.length) : Outermost frames name depth := by
  obtain ⟨above, a, below, hframes, hname, hbelow, hlength⟩ := h
  cases above with
  | nil =>
    obtain ⟨-, rfl⟩ := List.cons.inj hframes
    omega
  | cons top above =>
    obtain ⟨-, rfl⟩ := List.cons.inj hframes
    exact ⟨above, a, below, rfl, hname, hbelow, hlength⟩

theorem of_mute (h : Outermost frames name depth)
    (hmute : frames'.map Frame.mute = frames.map Frame.mute) : Outermost frames' name depth := by
  obtain ⟨above, a, below, rfl, hname, hbelow, hlength⟩ := h
  rw [List.map_append] at hmute
  obtain ⟨above', rest, rfl, -, hrest⟩ := List.map_eq_append_iff.mp hmute
  obtain ⟨frame, below', rfl, hframe, hbelow'⟩ := List.map_eq_cons_iff.mp hrest
  cases frame with
  | array b =>
    have hb := (ArrayFrame.mk.inj (Frame.array.inj hframe)).1
    refine ⟨above', b, below', rfl, hb.trans hname, ?_, ?_⟩
    · rwa [← declared_map_mute, hbelow', declared_map_mute]
    · rw [← hlength, ← List.length_map, hbelow', List.length_map]
  | _ => cases hframe

/-- Without its outermost array, nothing of the name is left. -/
theorem not_declared (h : Outermost frames name depth) (hsuffix : frames' <:+ frames)
    (hlength : frames'.length ≤ depth) : ¬ Declared frames' name := by
  obtain ⟨above, a, below, rfl, -, hbelow, rfl⟩ := h
  have hrest : below <:+ above ++ .array a :: below :=
    (List.suffix_cons _ _).trans (List.suffix_append _ _)
  rintro ⟨b, hb, hname⟩
  exact hbelow ⟨b, (List.suffix_of_suffix_length_le hsuffix hrest hlength).subset hb, hname⟩

end Outermost

/-! ## While a name is shadowed -/

namespace Machine

variable {σ : Type} {m m' : Machine σ} {v : Letter}

theorem not_declared_of_array? (h : Shadowing m.arena.frames m.vars) {name : Letter}
    (hname : m.array? name = none) : ¬ Declared m.arena.frames name := by
  intro hdeclared
  obtain ⟨a, ha⟩ := Arena.exists_array? hdeclared
  rw [array?, Variables.array?, if_pos ((h.shadowed name).mpr hdeclared), ha] at hname
  cases hname

theorem binding_of_not_declared (h : Shadowing m.arena.frames m.vars)
    (hv : ¬ Declared m.arena.frames v) : m.binding v = .scalar (m.vars.get v) := by
  have hflag : m.vars.isShadowed v = false := by
    rw [← Bool.not_eq_true, h.shadowed]
    exact hv
  simp [binding, Variables.binding, Variables.array?, hflag]

variable [Host σ]

theorem kept_loopsOverScalars :
    Kept fun m : Machine σ => Shadowing m.arena.frames m.vars ∧ LoopsOverScalars m.arena.frames where
  move {d m m'} h hmove := by
    refine ⟨kept_shadowing.move h.1 hmove, ?_⟩
    obtain heq | ⟨-, frame, heq, -, hscalar⟩ | ⟨-, ⟨frame, heq⟩ | heq⟩ := hmove.frames
    · exact heq ▸ h.2
    · rw [heq]
      exact ⟨fun name hloop => not_declared_of_array? h.1 (hscalar name hloop), h.2⟩
    · rw [heq] at h
      exact h.2.2
    · rw [heq]
      trivial
  direct h _ := h
  edit {m} h line hnumber := by
    refine ⟨kept_shadowing.edit h.1 hnumber, ?_⟩
    rw [m.frames_edit line]
    trivial
  event h arena hpush := by
    refine ⟨kept_shadowing.event h.1 hpush, ?_⟩
    obtain ⟨-, rfl⟩ := Arena.push_eq_ok hpush
    exact ⟨nofun, h.2⟩
  service h m' service hservice := by
    refine ⟨kept_shadowing.service h.1 hservice, ?_⟩
    obtain ⟨block, arena, halloc, rfl⟩ := eq_of_registerService hservice
    obtain ⟨-, -, rfl⟩ := Arena.alloc_eq_ok halloc
    exact h.2
  notifier h m' name n hnotifier := by
    refine ⟨kept_shadowing.notifier h.1 hnotifier, ?_⟩
    obtain ⟨frames, hmute, rfl⟩ := eq_of_attachNotifier hnotifier
    exact h.2.of_mute hmute

/-- No move touches the scalar of a shadowed name, unless it takes all frames off. -/
theorem Move.get_of_declared {d : Trend} (hmove : Move d m m')
    (hflags : Shadowing m.arena.frames m.vars) (hloops : LoopsOverScalars m.arena.frames)
    (hv : Declared m.arena.frames v) (hdepth : 0 < m'.arena.depth) :
    m'.vars.get v = m.vars.get v := by
  cases hmove with
  | set _ hname value =>
    refine Variables.get_set_of_ne ?_ value
    rintro rfl
    exact not_declared_of_array? hflags hname hv
  | @advance _ _ name step terminal resume frames hframes value =>
    -- An array of that name could only lie below the frame of the loop.
    refine Variables.get_set_of_ne ?_ value
    rintro rfl
    rw [hframes] at hloops hv
    exact hloops.1 name (by simp [Exec.isLoopOf]) ((declared_cons (by simp)).mp hv)
  | @pop _ frame arena hpop => cases frame <;> rfl
  | reset => exact absurd hdepth (Nat.not_lt_zero _)
  | clear => exact absurd hdepth (Nat.not_lt_zero _)
  | storing _ key data =>
    obtain ⟨store, data, hstoring⟩ :=
      m.eq_of_storing (Item.length (data.length + 4)) (·.putRecord? key data)
    rw [hstoring]
  | _ => rfl

/-- The outermost array of a name, and with it the hidden scalar, stays as long as the stack is
higher than what lies below the array. -/
theorem held_hidden (v : Letter) (depth : Nat) (x : Int32) :
    Held depth fun m : Machine σ => Outermost m.arena.frames v depth ∧
      (Shadowing m.arena.frames m.vars ∧ LoopsOverScalars m.arena.frames) ∧ m.vars.get v = x where
  move {d m m'} h hmove hdepth := by
    obtain ⟨hout, hinv, hget⟩ := h
    refine ⟨?_, kept_loopsOverScalars.move hinv hmove, ?_⟩
    · obtain heq | ⟨-, frame, heq, -⟩ | ⟨-, ⟨frame, heq⟩ | heq⟩ := hmove.frames
      · exact heq ▸ hout
      · exact heq ▸ hout.cons frame
      · exact (heq ▸ hout).of_cons hdepth
      · simp [Arena.depth, heq] at hdepth
    · rw [← hget]
      exact hmove.get_of_declared hinv.1 hinv.2 hout.declared (Nat.zero_lt_of_lt hdepth)
  direct h _ := h
  event h arena hpush := by
    obtain ⟨hout, hinv, hget⟩ := h
    have hinv' := kept_loopsOverScalars.event hinv hpush
    obtain ⟨-, rfl⟩ := Arena.push_eq_ok hpush
    exact ⟨hout.cons _, hinv', hget⟩
  service h m' service hservice := by
    obtain ⟨hout, hinv, hget⟩ := h
    have hinv' := kept_loopsOverScalars.service hinv hservice
    obtain ⟨block, arena, halloc, rfl⟩ := eq_of_registerService hservice
    obtain ⟨-, -, rfl⟩ := Arena.alloc_eq_ok halloc
    exact ⟨hout, hinv', hget⟩
  notifier h m' name n hnotifier := by
    obtain ⟨hout, hinv, hget⟩ := h
    have hinv' := kept_loopsOverScalars.notifier hinv hnotifier
    obtain ⟨frames, hmute, rfl⟩ := eq_of_attachNotifier hnotifier
    exact ⟨hout.of_mute hmute, hinv', hget⟩

end Machine

/-! ## Declaring an array -/

/-- An array comes onto the stack, and its name gets its flag, or nothing happens. -/
def Machine.Declares {σ : Type} (m m' : Machine σ) : Prop :=
  m'.arena.frames = m.arena.frames ∧ m'.vars = m.vars ∨
    ∃ a, m'.arena.frames = .array a :: m.arena.frames ∧ m'.vars = m.vars.setShadowed a.name true

namespace Exec

open Machine (Alike)

variable {σ : Type} [Host σ] {t : Execution σ}

/-- Reads a DIM statement: the name and the size of its array. -/
def arrayHead : Exec σ (Letter × Nat) := do
  let name ← read Cursor.letter
  read (Cursor.expect (Ascii.code '('))
  let size ← eval .braces
  read Cursor.expectEnd
  if size < 0 then throw .general
  return (name, size.toInt.toNat)

/-- Makes the array whose statement has been read. -/
def declare (name : Letter) (size : Nat) : Exec σ Flow := do
  let m ← machine
  let (block, arena) ← .ofExcept (m.arena.alloc size)
  match arena.push (.array { name, block, prior := m.vars.isShadowed name }) with
  | .ok arena =>
    modifyMachine fun m => { m with arena, vars := m.vars.setShadowed name true }
    return .next
  | .error e =>
    modifyMachine fun m => { m with arena := arena.release block }
    throw e

theorem dim_eq : (dim : Exec σ Flow) = arrayHead >>= fun head => declare head.1 head.2 := by
  simp only [dim, arrayHead, bind_assoc]
  refine bind_congr fun name => bind_congr fun _ => bind_congr fun size => bind_congr fun _ => ?_
  split
  · rfl
  · rw [pure_bind]
    rfl

theorem via_arrayHead : Via Alike t (arrayHead : Exec σ _) := by
  refine .bind (.read _) fun name t => .bind (.read _) fun _ t => .bind (.eval _) fun size t => ?_
  exact .bind (.read _) fun _ t => .check fun _ => .pure _

omit [Host σ] in
theorem via_declare (name : Letter) (size : Nat) : Via Machine.Declares t (declare name size) := by
  unfold Via
  rw [declare, Action.exec_bind, exec_machine]
  dsimp only
  rw [Action.exec_bind, Action.exec_ofExcept]
  cases halloc : t.machine.arena.alloc size with
  | error e => exact .inl ⟨rfl, rfl⟩
  | ok y =>
    dsimp only
    obtain ⟨-, -, hy⟩ := Arena.alloc_eq_ok halloc
    split
    next arena' hpush =>
      obtain ⟨-, rfl⟩ := Arena.push_eq_ok hpush
      rw [hy]
      exact .inr ⟨_, rfl, rfl⟩
    next e _ =>
      refine .inl ⟨?_, rfl⟩
      show (y.2.release y.1).frames = _
      rw [hy]
      rfl

theorem via_dim : Via Machine.Declares t (dim : Exec σ Flow) := by
  have hread : t.machine.Alike (arrayHead.exec t).2.machine := via_arrayHead
  unfold Via
  rw [dim_eq, Action.exec_bind]
  cases hhead : arrayHead.exec t with
  | mk r t₁ =>
    rw [hhead] at hread
    obtain ⟨host, hhost⟩ := hread
    cases r with
    | error e => exact .inl ⟨congrArg (·.arena.frames) hhost, congrArg (·.vars) hhost⟩
    | ok head =>
      have hdeclare : t₁.machine.Declares _ := via_declare head.1 head.2
      rw [hhost] at hdeclare
      exact hdeclare

end Exec

/-! ## What statements leave of the variables -/

/-- The machines agree in what `f` tells of their variables. -/
def Machine.Preserves {σ α : Type} (f : Variables → α) (m m' : Machine σ) : Prop :=
  f m'.vars = f m.vars

instance {σ α : Type} [Host σ] {f : Variables → α} :
    Exec.Steady (Machine.Preserves (σ := σ) f) where
  refl _ := rfl
  trans h h' := h'.trans h
  evaluate _ _ _ := rfl

theorem Machine.Alike.preserves {σ α : Type} {m m' : Machine σ} {f : Variables → α}
    (h : m.Alike m') : Preserves f m m' := by
  obtain ⟨host, rfl⟩ := h
  rfl

namespace Exec

open Machine (Preserves)

variable {σ : Type} [Host σ] {t : Execution σ} {v : Letter}

theorem preserves_gosub (pc : Pc) : Via (Preserves (·.isShadowed v)) t (gosub pc : Exec σ Flow) := by
  refine .bind .evalLast fun number t => .machine ?_
  exact .bind (.onArena fun arena _ => rfl) fun _ t => .machine (.pure _)

theorem preserves_startLoop (pc : Pc) :
    Via (Preserves (·.isShadowed v)) t (startLoop pc : Exec σ Flow) := by
  rw [startLoop_eq]
  refine .bind (via_loopHead.mono Machine.Alike.preserves) fun head t => ?_
  refine .machine (.check fun _ => .bind (.modifyMachine rfl) fun _ t => .machine ?_)
  exact .bind (.onArena fun arena _ => rfl) fun _ t => .pure _

omit [Host σ] in
theorem preserves_popFrame : Via (Preserves (·.get v)) t (popFrame : Exec σ _) := by
  unfold Via
  rw [exec_popFrame_eq]
  exact Machine.get_dropTop _ v

theorem preserves_popFrames (n : Nat) : Via (Preserves (·.get v)) t (popFrames n : Exec σ Unit) :=
  .popFrames (fun _ => preserves_popFrame) n

theorem preserves_returnToCaller : Via (Preserves (·.get v)) t (returnToCaller : Exec σ Flow) :=
  .returnToCaller fun _ => preserves_popFrame

/-- NEXT sets no other variable than its own. -/
theorem preserves_nextLoop (h : ∀ name, (Cursor.letter.exec t.unread).1 = .ok name → name ≠ v) :
    Via (Preserves (·.get v)) t (nextLoop : Exec σ Flow) := by
  refine .bind_of_exec (.read _) fun name t' hexec => .bind (.read _) fun _ t => .machine ?_
  have hname : name ≠ v := by
    rw [exec_read] at hexec
    exact h name (Prod.mk.inj hexec).1
  split
  · exact .throw _
  · refine .bind (preserves_popFrames _) fun _ t => .machine ?_
    split
    · refine .machine (.bind (.modifyMachine (Variables.get_set_of_ne hname _)) fun _ t => ?_)
      exact .ite (fun _ => .pure _) fun _ => .bind (preserves_popFrames 1) fun _ t => .pure _
    · exact .throw _

end Exec

namespace Machine

variable {σ : Type} [Host σ] {m m' : Machine σ} {pc : Pc} {v : Letter} {s s' : Moment σ}

/-- The variable of the NEXT at a place. -/
def nextOf? (m : Machine σ) (pc : Pc) : Option Letter :=
  match Statement.decode.exec (m.textAt pc) with
  | (.ok .next, rest) => (Cursor.letter.exec rest).1.toOption
  | _ => none

/-- The statement at a place is a RETURN, or a NEXT with another variable. -/
def Uncovers (m : Machine σ) (pc : Pc) (v : Letter) : Prop :=
  Statement.ofText? (m.textAt pc) = some .return ∨ ∃ w, m.nextOf? pc = some w ∧ w ≠ v

theorem Uncovers.get_step (h : m.Uncovers pc v) : (m.step pc).2.vars.get v = m.vars.get v := by
  obtain hreturn | ⟨w, hnext, hw⟩ := h
  · obtain ⟨rest, hdecode⟩ := Statement.exists_decode hreturn
    exact via_step Alike.preserves hdecode fun host => Exec.preserves_returnToCaller (v := v)
  · unfold nextOf? at hnext
    split at hnext
    next rest hdecode =>
      refine via_step Alike.preserves hdecode fun host => Exec.preserves_nextLoop (v := v) ?_
      intro name hname
      rw [hname] at hnext
      exact Option.some.inj hnext ▸ hw
    next => cases hnext

theorem declares_step (h : Statement.ofText? (m.textAt pc) = some .dim) :
    m.Declares (m.step pc).2 := by
  obtain ⟨rest, hdecode⟩ := Statement.exists_decode h
  obtain ⟨host, heq⟩ | ⟨host, host', heq⟩ := alike_step hdecode
  · rw [heq]
    exact .inl ⟨rfl, rfl⟩
  · have hdim := Exec.via_dim (t := { machine := { m with host }, unread := rest })
    rw [heq]
    exact hdim

/-- Only DIM makes a name shadowed. -/
theorem dim_of_shadowed (hflags : Shadowing m.arena.frames m.vars)
    (hflags' : Shadowing (m.step pc).2.arena.frames (m.step pc).2.vars)
    (hbefore : m.vars.isShadowed v = false) (hafter : (m.step pc).2.vars.isShadowed v = true) :
    Statement.ofText? (m.textAt pc) = some .dim := by
  have hchange : ¬ Preserves (·.isShadowed v) m (m.step pc).2 := by
    intro hsame
    have hnever := hafter.symm.trans (hsame.trans hbefore)
    cases hnever
  obtain ⟨status, m', hstep, halike⟩ | ⟨s, rest, hdecode, -⟩ := m.step_cases pc
  · rw [hstep] at hchange
    exact absurd halike.preserves hchange
  · have hs : Statement.ofText? (m.textAt pc) = some s := by
      rw [Statement.ofText?, hdecode]
      rfl
    have hpath := path_step_of_ofText? hs
    have hdown : s.trend ≠ .down := by
      intro hdown
      rw [hdown] at hpath
      obtain ⟨a, ha, hname⟩ := (hflags'.shadowed v).mp hafter
      have hdeclared := (hflags.shadowed v).mpr ⟨a, hpath.suffix_down.subset ha, hname⟩
      rw [hbefore] at hdeclared
      cases hdeclared
    cases s with
    | dim => exact hs
    | gosub =>
      exact absurd (via_step Alike.preserves hdecode fun host => Exec.preserves_gosub pc) hchange
    | «for» =>
      exact absurd (via_step Alike.preserves hdecode fun host => Exec.preserves_startLoop pc) hchange
    | _ => exact absurd rfl hdown

/-! ## From the first DIM on -/

/-- Calls leave the frames, but for their notifiers, push the frame of an event or take all off. -/
theorem Next.frames (h : Next s s') :
    (∃ pc, s.1 = .more pc ∧ s' = s.2.step pc) ∨
      s'.2.arena.frames.map Frame.mute = s.2.arena.frames.map Frame.mute ∨
      s'.2.arena.frames = .event :: s.2.arena.frames ∨ s'.2.arena.frames = [] := by
  cases h with
  | step pc m => exact .inl ⟨pc, rfl, rfl⟩
  | enter status m typed =>
    unfold entered
    split
    · exact .inr (.inl rfl)
    next line _ =>
      split
      · exact .inr (.inr (.inr (m.frames_edit line)))
      · split <;> exact .inr (.inl rfl)
  | event status m line canReturn =>
    unfold raised
    split
    · exact .inr (.inl rfl)
    · split
      · split
        next arena hpush =>
          obtain ⟨-, rfl⟩ := Arena.push_eq_ok hpush
          exact .inr (.inr (.inl rfl))
        next => exact .inr (.inl rfl)
      · exact .inr (.inl rfl)
  | host => exact .inr (.inl rfl)
  | setup status m =>
    refine .inr (.inl ?_)
    unfold Machine.setup
    dsimp only
    split <;> rfl
  | reset => exact .inr (.inr (.inr rfl))
  | service status hservice =>
    obtain ⟨block, arena, halloc, rfl⟩ := eq_of_registerService hservice
    obtain ⟨-, -, rfl⟩ := Arena.alloc_eq_ok halloc
    exact .inr (.inl rfl)
  | notifier status hnotifier =>
    obtain ⟨frames, hmute, rfl⟩ := eq_of_attachNotifier hnotifier
    exact .inr (.inl hmute)

/-- The statement at a place is a DIM that turns a scalar into an array. -/
structure Hides (m : Machine σ) (pc : Pc) (v : Letter) : Prop where
  isDim : Statement.ofText? (m.textAt pc) = some .dim
  scalar : m.vars.isShadowed v = false
  array : (m.step pc).2.vars.isShadowed v = true

/-- The array lies on all frames that were there, and the scalar has the value that it had. -/
theorem Hides.outermost (h : m.Hides pc v) (hflags : Shadowing m.arena.frames m.vars) :
    Outermost (m.step pc).2.arena.frames v m.arena.depth ∧
      (m.step pc).2.vars.get v = m.vars.get v := by
  have harray := h.array
  obtain ⟨-, hvars⟩ | ⟨a, hframes, hvars⟩ := declares_step h.isDim
  · rw [hvars, h.scalar] at harray
    cases harray
  · rw [hvars, Variables.isShadowed_setShadowed, h.scalar] at harray
    have hname : a.name = v := by simpa using harray
    refine ⟨⟨[], a, m.arena.frames, hframes, hname, ?_, rfl⟩, ?_⟩
    · rw [← hflags.shadowed, h.scalar]
      exact Bool.false_ne_true
    · rw [hvars]
      rfl

/-- Once the outermost array of a name is off the stack, no array of that name is left. -/
theorem Next.not_declared (h : Next s s') {depth : Nat} (hs : Outermost s.2.arena.frames v depth)
    (hdepth : s'.2.arena.depth ≤ depth) : ¬ Declared s'.2.arena.frames v := by
  have hbefore := hs.lt_length
  obtain ⟨pc, -, rfl⟩ | hmute | hevent | hnil := h.frames
  · obtain ⟨d, hpath⟩ := s.2.path_step pc
    cases d with
    | up => exact absurd (Nat.lt_of_lt_of_le hbefore hpath.depth_le) (Nat.not_lt_of_le hdepth)
    | down => exact hs.not_declared hpath.suffix_down hdepth
  · have hlength := congrArg List.length hmute
    simp only [List.length_map] at hlength
    unfold Arena.depth at hdepth
    omega
  · rw [Arena.depth, hevent, List.length_cons] at hdepth
    omega
  · rw [hnil]
    exact not_declared_nil v

/-- Only a step makes a name shadowed. -/
theorem Next.hides (h : Next s s') (hflags : Shadowing s.2.arena.frames s.2.vars)
    (hflags' : Shadowing s'.2.arena.frames s'.2.vars) (hbefore : s.2.vars.isShadowed v = false)
    (hafter : s'.2.vars.isShadowed v = true) :
    ∃ pc, s.1 = .more pc ∧ s' = s.2.step pc ∧ s.2.Hides pc v := by
  have hundeclared : ¬ Declared s.2.arena.frames v := by
    rw [← hflags.shadowed, hbefore]
    exact Bool.false_ne_true
  have hdeclared := (hflags'.shadowed v).mp hafter
  obtain ⟨pc, hmore, rfl⟩ | hmute | hevent | hnil := h.frames
  · exact ⟨pc, hmore, rfl, dim_of_shadowed hflags hflags' hbefore hafter, hbefore, hafter⟩
  · rw [← declared_map_mute, hmute, declared_map_mute] at hdeclared
    exact absurd hdeclared hundeclared
  · rw [hevent, declared_cons (by simp)] at hdeclared
    exact absurd hdeclared hundeclared
  · rw [hnil] at hdeclared
    exact absurd hdeclared (not_declared_nil v)

section

variable {config : Config} {flash : Flash} {host : σ}

/-- The array that hides a scalar stays as long as the stack is higher than before it was declared,
and so does the scalar. -/
theorem Hides.course (h : m.Hides pc v) (hm : Course (started config flash host) (.more pc, m))
    (hcourse : CourseWhile (fun m' => m.arena.depth < m'.arena.depth) (m.step pc) s) :
    Outermost s.2.arena.frames v m.arena.depth ∧ s.2.vars.get v = m.vars.get v := by
  have hinv := kept_loopsOverScalars.course (s := started config flash host) ⟨.empty, trivial⟩
    (hm.tail (.step pc m))
  obtain ⟨hout, hget⟩ := h.outermost (flags_of_course hm)
  obtain ⟨hout', -, hget'⟩ := (held_hidden v m.arena.depth (m.vars.get v)).course
    ⟨hout, hinv, hget⟩ hout.lt_length hcourse
  exact ⟨hout', hget'⟩

/-- A shadowed name has been so since a DIM whose array is still on the stack. -/
theorem exists_hides (h : Course (started config flash host) s)
    (hv : s.2.vars.isShadowed v = true) :
    ∃ pc m, Course (started config flash host) (.more pc, m) ∧ m.Hides pc v ∧
      CourseWhile (fun m' => m.arena.depth < m'.arena.depth) (m.step pc) s := by
  -- By induction on the course: a name that was shadowed before keeps its DIM.
  induction h with
  | refl =>
    have hnever : ({} : Variables).isShadowed v = true := hv
    simp at hnever
  | @tail s₁ s₂ hs₁ hnext ih =>
    have hflags₂ := flags_of_course (hs₁.tail hnext)
    cases hbefore : s₁.2.vars.isShadowed v with
    | true =>
      obtain ⟨pc, m, hm, hhides, hcourse⟩ := ih hbefore
      refine ⟨pc, m, hm, hhides, hcourse.tail ⟨hnext, Nat.lt_of_not_le fun hdepth => ?_⟩⟩
      exact hnext.not_declared (hhides.course hm hcourse).1 hdepth ((hflags₂.shadowed v).mp hv)
    | false =>
      obtain ⟨pc, hmore, rfl, hhides⟩ := hnext.hides (flags_of_course hs₁) hflags₂ hbefore hv
      exact ⟨pc, s₁.2, hmore ▸ hs₁, hhides, .refl⟩

/-- In every course, a shadowed name was made so by a DIM, and the array of that DIM is its outermost
one. As long as the array is on the stack, that is, as long as the stack is higher than before the
DIM, the scalar of the name keeps its value, and once RETURN or the NEXT of another variable has taken
the array off, the name reads as the value that it had before the DIM. -/
theorem hidden_scalar_of_course (h : Course (started config flash host) s)
    (hv : s.2.vars.isShadowed v = true) :
    ∃ pc m, Course (started config flash host) (.more pc, m) ∧ m.Hides pc v ∧
      CourseWhile (fun m' => m.arena.depth < m'.arena.depth) (m.step pc) s ∧
      s.2.vars.get v = m.vars.get v ∧
      ∀ s', CourseWhile (fun m' => m.arena.depth < m'.arena.depth) s s' →
        Outermost s'.2.arena.frames v m.arena.depth ∧ s'.2.vars.get v = s.2.vars.get v ∧
        ∀ pc', s'.1 = .more pc' → s'.2.Uncovers pc' v →
          (s'.2.step pc').2.arena.depth ≤ m.arena.depth →
          (s'.2.step pc').2.binding v = .scalar (m.vars.get v) := by
  obtain ⟨pc, m, hm, hhides, hcourse⟩ := exists_hides h hv
  have hget := (hhides.course hm hcourse).2
  refine ⟨pc, m, hm, hhides, hcourse, hget, fun s' hs' => ?_⟩
  obtain ⟨hout, hget'⟩ := hhides.course hm (hcourse.trans hs')
  refine ⟨hout, hget'.trans hget.symm, fun pc' hmore huncovers hdepth => ?_⟩
  have hnext : Next s' (s'.2.step pc') := by
    obtain ⟨turn, m'⟩ := s'
    cases hmore
    exact .step pc' m'
  have hflags := flags_of_course ((h.trans hs'.course).tail hnext)
  rw [binding_of_not_declared hflags (hnext.not_declared hout hdepth), huncovers.get_step, hget']

end

/-- A subroutine declares two arrays over a variable of its caller, and returns. -/
theorem hidden_scalar_of_course_return :
    let start : Moment Recorder :=
      started { pages := 1, pageSize := 128, arenaSize := 256 } (.blank 128) {}
    let s := session 4 start ["10 A=5", "20 GOSUB 40", "30 END", "40 DIM A(3)", "50 DIM A(2)",
      "60 A(1)=7", "70 RETURN", "RUN"]
    Course start s ∧ s.2.vars.isShadowed ⟨0⟩ = true ∧ (onward 2 s).1 = .more (.line 6) ∧
      (onward 2 s).2.Uncovers (.line 6) ⟨0⟩ ∧ (onward 2 s).2.arena.depth = 3 ∧
      (onward 2 s).2.vars.get ⟨0⟩ = 5 ∧
      ((onward 2 s).2.step (.line 6)).2.binding ⟨0⟩ = .scalar 5 := by
  intro start s
  have hcourse : Course start s := course_session ..
  -- One evaluation of the session for all that is read off it.
  obtain ⟨hshadowed, hvalue, hdepth, hup, hthree, hturn, hreturn, hzero⟩ :
      s.2.vars.isShadowed ⟨0⟩ = true ∧ s.2.vars.get ⟨0⟩ = 5 ∧ s.2.arena.depth = 2 ∧
      (∀ k ≤ 2, 2 ≤ (onward k s).2.arena.depth) ∧ (onward 2 s).2.arena.depth = 3 ∧
      (onward 2 s).1 = .more (.line 6) ∧
      Statement.ofText? ((onward 2 s).2.textAt (.line 6)) = some .return ∧
      ((onward 2 s).2.step (.line 6)).2.arena.depth = 0 := by
    decide +kernel
  clear_value s
  obtain ⟨pc, m, -, -, -, hget, hrest⟩ := hidden_scalar_of_course hcourse hshadowed
  have hlow : m.arena.depth < 2 := by
    obtain ⟨hout, -⟩ := hrest s .refl
    exact hdepth ▸ hout.lt_length
  have habove : CourseWhile (fun m' => m.arena.depth < m'.arena.depth) s (onward 2 s) :=
    courseWhile_onward 2 s fun k hk => Nat.lt_of_lt_of_le hlow (hup k hk)
  obtain ⟨-, hkept, hreads⟩ := hrest _ habove
  refine ⟨hcourse, hshadowed, hturn, .inl hreturn, hthree, hkept.trans hvalue, ?_⟩
  rw [← hvalue, hget]
  exact hreads _ hturn (.inl hreturn) (hzero ▸ Nat.zero_le _)

end Machine

end FlashBasic
