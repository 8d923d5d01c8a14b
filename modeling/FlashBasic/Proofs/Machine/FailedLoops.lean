import FlashBasic.Proofs.Machine.Failing
import FlashBasic.Proofs.Machine.Loops

/-!
FOR statements that end in an error. FOR sets its variable before it pushes its frame, and does not
take that back when there is no room for the frame (`Machine.Overflows`). This is the one failed FOR
that leaves something behind, namely the first value in the variable.
-/

namespace FlashBasic

set_option autoImplicit false

namespace Exec

variable {σ : Type} {t t' : Execution σ}

/-- A loop that has been read cannot be started if an array has the name of its variable, or if there
is no room for its frame; then the variable has got its first value already. -/
theorem openLoop_eq_error {pc : Pc} {name : Letter} {start terminal step : Int32} {e : Error}
    (h : (openLoop pc name start terminal step).exec t = (.error e, t')) :
    (t.machine.vars.isShadowed name = true ∧ e = .general ∧ t'.machine = t.machine) ∨
      (t.machine.vars.isShadowed name = false ∧
        t.machine.arena.free < (Frame.loop name step terminal (t.machine.next pc)).size ∧
        e = .outOfMemory ∧
        t'.machine = { t.machine with vars := t.machine.vars.set name start }) := by
  rw [openLoop, Action.exec_bind, exec_machine] at h
  dsimp only at h
  cases hname : t.machine.vars.isShadowed name with
  | true =>
    rw [hname, if_pos rfl] at h
    cases h
    exact .inl ⟨rfl, rfl, rfl⟩
  | false =>
    rw [hname, if_neg Bool.false_ne_true, Action.exec_bind, exec_modifyMachine] at h
    dsimp only at h
    rw [Action.exec_bind, exec_machine] at h
    dsimp only at h
    rw [onArena, bind_assoc, Action.exec_bind, exec_machine] at h
    dsimp only at h
    have hnext : Machine.next { t.machine with vars := t.machine.vars.set name start } pc =
        t.machine.next pc := rfl
    rw [bind_assoc, Action.exec_bind, Action.exec_ofExcept, hnext] at h
    cases hpush : t.machine.arena.push (.loop name step terminal (t.machine.next pc)) with
    | ok arena =>
      rw [hpush] at h
      cases h
    | error e' =>
      rw [hpush] at h
      cases h
      obtain ⟨hfull, rfl⟩ := Arena.push_eq_error hpush
      exact .inr ⟨rfl, hfull, rfl, rfl⟩

/-- A FOR that fails has changed nothing but the host, unless all it lacked was room for its frame. -/
theorem startLoop_eq_error [Host σ] {pc : Pc} {e : Error}
    (h : (startLoop pc).exec t = (.error e, t')) :
    ((∀ head, (loopHead.exec t).1 = .ok head → t.machine.vars.isShadowed head.1 = true) ∧
        t.machine.Alike t'.machine) ∨
      ∃ name start terminal step, (loopHead.exec t).1 = .ok (name, start, terminal, step) ∧
        t.machine.vars.isShadowed name = false ∧
        t.machine.arena.free < (Frame.loop name step terminal (t.machine.next pc)).size ∧
        e = .outOfMemory ∧
        Machine.Alike { t.machine with vars := t.machine.vars.set name start } t'.machine := by
  have hread : t.machine.Alike (loopHead.exec t).2.machine := via_loopHead
  rw [startLoop_eq, Action.exec_bind] at h
  cases hhead : loopHead.exec t with
  | mk r t₁ =>
    rw [hhead] at hread h
    obtain ⟨host, hhost⟩ := hread
    cases r with
    | error e' =>
      cases h
      exact .inl ⟨nofun, host, hhost⟩
    | ok head =>
      obtain ⟨hname, -, hsame⟩ | ⟨hname, hfull, rfl, hset⟩ := openLoop_eq_error h
      · rw [hhost] at hname
        refine .inl ⟨fun head' hok => ?_, host, hsame.trans hhost⟩
        cases hok
        exact hname
      · rw [hhost] at hname hfull hset
        exact .inr ⟨_, _, _, _, rfl, hname, hfull, rfl, host, hset⟩

end Exec

namespace Machine

variable {σ : Type} [Host σ] {m m' : Machine σ} {pc : Pc}

/-- The FOR at a place can be read, and its variable is no array, but there is no room for the frame
of the loop. -/
structure Overflows (m : Machine σ) (pc : Pc) (name : Letter) (start terminal step : Int32) : Prop where
  unbroken : (Host.breakCheck m.host).1 = false
  reads : m.reading? pc (fun _ => Exec.loopHead) = some (name, start, terminal, step)
  scalar : m.vars.isShadowed name = false
  full : m.arena.free < (Frame.loop name step terminal (m.next pc)).size

/-- What a FOR that ends in an error has done: nothing, unless there was no room for its frame, and
then it has set its variable. -/
theorem variable_of_failed_for {e : Error} (hfor : Statement.ofText? (m.textAt pc) = some .for)
    (hfail : m.failure? pc = some (e, m')) :
    m.step pc = halted (m'.fail pc e) ∧ m'.arena = m.arena ∧ m'.store = m.store ∧
      m'.files = m.files ∧
      ((∃ name start terminal step, m.Overflows pc name start terminal step ∧ e = .outOfMemory ∧
          m'.vars = m.vars.set name start) ∨
        (∀ name start terminal step, ¬ m.Overflows pc name start terminal step) ∧
          m'.vars = m.vars) := by
  refine ⟨step_of_failure? hfail, ?_⟩
  obtain ⟨rest, hdecode⟩ := Statement.exists_decode hfor
  rw [failure?, if_neg (ne_end_of_decode hdecode)] at hfail
  split at hfail
  next host hbreak =>
    cases hfail
    refine ⟨rfl, rfl, rfl, .inr ⟨fun name start terminal step hover => ?_, rfl⟩⟩
    have hunbroken := hover.unbroken
    rw [hbreak] at hunbroken
    cases hunbroken
  next host hbreak =>
    have hreads : m.reading? pc (fun _ => Exec.loopHead) =
        (Exec.loopHead.exec { machine := { m with host }, unread := rest }).1.toOption := by
      rw [reading?, hdecode, hbreak]
    split at hfail
    next e' t hexec =>
      cases hfail
      rw [exec_statement_of_decode hdecode, if_neg (by simp [Statement.isProgramOnly]),
        Exec.perform] at hexec
      obtain ⟨hshadowed, host', hsame⟩ |
        ⟨name, start, terminal, step, hhead, hname, hfull, rfl, host', hset⟩ :=
        Exec.startLoop_eq_error hexec
      · rw [hsame]
        refine ⟨rfl, rfl, rfl, .inr ⟨fun name start terminal step hover => ?_, rfl⟩⟩
        have hhead := Error.eq_ok_of_toOption (hreads ▸ hover.reads)
        have hname := hshadowed _ hhead
        rw [hover.scalar] at hname
        cases hname
      · rw [hset]
        refine ⟨rfl, rfl, rfl, .inl ⟨name, start, terminal, step, ⟨?_, ?_, hname, hfull⟩, rfl, rfl⟩⟩
        · rw [hbreak]
        · rw [hreads, hhead]
          rfl
    next => cases hfail

/-- A program starts one loop after the other until the third does not fit. -/
theorem variable_of_failed_for_third_loop :
    let start : Moment Recorder :=
      started { pages := 1, pageSize := 64, arenaSize := 150 } (.blank 64) {}
    let s := session 8 start ["10 J=J+1", "20 FOR I=J TO 9", "30 GOTO 10", "RUN"]
    Course start (.more (.line 1), s.2) ∧
      Statement.ofText? (s.2.textAt (.line 1)) = some .for ∧ s.2.arena.depth = 2 ∧
      s.2.vars.get ⟨8⟩ = 2 ∧
      ∃ m', s.2.failure? (.line 1) = some (.outOfMemory, m') ∧
        s.2.step (.line 1) = halted (m'.fail (.line 1) .outOfMemory) ∧ m'.arena = s.2.arena ∧
        ∃ name start terminal step, s.2.Overflows (.line 1) name start terminal step ∧
          m'.vars = s.2.vars.set name start := by
  intro start s
  have hcourse : Course start s := course_session ..
  -- One evaluation of the session for all that is read off it.
  obtain ⟨hturn, hfor, hdepth, hvalue, hfail⟩ : s.1 = .more (.line 1) ∧
      Statement.ofText? (s.2.textAt (.line 1)) = some .for ∧ s.2.arena.depth = 2 ∧
      s.2.vars.get ⟨8⟩ = 2 ∧
      (s.2.failure? (.line 1)).map (fun f => (f.1, f.2.vars.get ⟨8⟩)) = some (.outOfMemory, 3) := by
    decide +kernel
  clear_value s
  have hmore : Course start (.more (.line 1), s.2) := hturn ▸ hcourse
  obtain ⟨⟨e, m'⟩, hfailure, he⟩ := Option.map_eq_some_iff.mp hfail
  obtain ⟨rfl, hchanged⟩ := Prod.mk.inj he
  obtain ⟨hstep, harena, -, -, ⟨name, first, terminal, step, hover, -, hset⟩ | ⟨-, hsame⟩⟩ :=
    variable_of_failed_for hfor hfailure
  · exact ⟨hmore, hfor, hdepth, hvalue, m', hfailure, hstep, harena, name, first, terminal, step,
      hover, hset⟩
  · rw [hsame, hvalue] at hchanged
    cases hchanged

/-- A loop is typed that does not fit on the stack beside the one that is there. It fails, but its
variable has a new value. -/
theorem failed_for_sets_variable :
    let start : Moment Recorder :=
      started { pages := 1, pageSize := 64, arenaSize := 128 } (.blank 64) {}
    let s := session 0 (session 2 start ["FOR I=1 TO 3"]) ["FOR I=5 TO 9"]
    Course start s ∧ s.1 = .more .direct ∧ Statement.ofText? (s.2.textAt .direct) = some .for ∧
      ∃ m', s.2.failure? .direct = some (.outOfMemory, m') ∧
        s.2.vars.get ⟨8⟩ = 1 ∧ m'.vars.get ⟨8⟩ = 5 := by
  intro start s
  have hcourse : Course start s := (course_session ..).trans (course_session ..)
  -- One evaluation of the session for all that is read off it.
  obtain ⟨hturn, hfor, hvalue, hfail⟩ : s.1 = .more .direct ∧
      Statement.ofText? (s.2.textAt .direct) = some .for ∧ s.2.vars.get ⟨8⟩ = 1 ∧
      (s.2.failure? .direct).map (fun f => (f.1, f.2.vars.get ⟨8⟩)) = some (.outOfMemory, 5) := by
    decide +kernel
  clear_value s
  obtain ⟨⟨e, m'⟩, hfailure, he⟩ := Option.map_eq_some_iff.mp hfail
  obtain ⟨rfl, hchanged⟩ := Prod.mk.inj he
  exact ⟨hcourse, hturn, hfor, m', hfailure, hvalue, hchanged⟩

end Machine

end FlashBasic
