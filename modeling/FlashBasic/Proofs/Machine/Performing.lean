import FlashBasic.Proofs.Machine.Moves
import Mathlib.Logic.Function.Iterate

/-!
What is known once a statement has succeeded. `Exec.Ensures` gives what holds of the result of an
action and of the machine it leaves, provided that it does not fail; `Exec.Sure` is said of actions
that cannot fail. `Machine.step_of_decode` relates a step of the machine to the statement it executes.
-/

namespace FlashBasic

set_option autoImplicit false

/-! ## Taking frames off -/

namespace Machine

variable {σ : Type}

/-- The machine without its top frame, if it has one. -/
def dropTop (m : Machine σ) : Machine σ :=
  match m.arena.pop? with
  | some (frame, arena) => m.popped frame arena
  | none => m

theorem exists_dropTop (m : Machine σ) : ∃ arena vars, m.dropTop = { m with arena, vars } := by
  unfold dropTop popped
  split <;> try split
  all_goals exact ⟨_, _, rfl⟩

theorem frames_dropTop (m : Machine σ) : m.dropTop.arena.frames = m.arena.frames.tail := by
  unfold dropTop
  split
  next h => rw [Exec.frames_popped, Exec.frames_of_pop?_eq_some h, List.tail_cons]
  next h => rw [Exec.frames_of_pop?_eq_none h, List.tail_nil]

theorem exists_dropTop_iterate (n : Nat) (m : Machine σ) :
    ∃ arena vars, dropTop^[n] m = { m with arena, vars } := by
  induction n generalizing m with
  | zero => exact ⟨_, _, rfl⟩
  | succ n ih =>
    obtain ⟨arena, vars, hdrop⟩ := m.exists_dropTop
    rw [Function.iterate_succ_apply, hdrop]
    exact ih _

theorem store_dropTop_iterate (n : Nat) (m : Machine σ) : (dropTop^[n] m).store = m.store := by
  obtain ⟨_, _, hdrop⟩ := exists_dropTop_iterate n m
  rw [hdrop]

theorem host_dropTop_iterate (n : Nat) (m : Machine σ) : (dropTop^[n] m).host = m.host := by
  obtain ⟨_, _, hdrop⟩ := exists_dropTop_iterate n m
  rw [hdrop]

theorem frames_dropTop_iterate (n : Nat) (m : Machine σ) :
    (dropTop^[n] m).arena.frames = m.arena.frames.drop n := by
  induction n generalizing m with
  | zero => rfl
  | succ n ih => rw [Function.iterate_succ_apply, ih, frames_dropTop, List.drop_tail]

theorem sourceOf_dropTop_iterate (n : Nat) (m : Machine σ) (pc : Pc) :
    (dropTop^[n] m).sourceOf pc = m.sourceOf pc := by
  cases pc with
  | line pos => rw [sourceOf, sourceOf, store_dropTop_iterate]
  | _ => rfl

end Machine

namespace Exec

open Machine (Alike)

variable {σ α β : Type} [Host σ] {t : Execution σ}

omit [Host σ] in
theorem exec_popFrame_eq (t : Execution σ) :
    popFrame.exec t =
      (.ok (t.machine.arena.pop?.map (·.1)), { t with machine := t.machine.dropTop }) := by
  rw [exec_popFrame, Machine.dropTop]
  cases t.machine.arena.pop? <;> rfl

def Ensures (t : Execution σ) (a : Exec σ α) (Q : α → Execution σ → Prop) : Prop :=
  ∀ x t', a.exec t = (.ok x, t') → Q x t'

namespace Ensures

section

omit [Host σ]

variable {a : Exec σ α} {Q : β → Execution σ → Prop}

theorem pure {x : β} (h : Q x t) : Ensures t (pure x) Q := by
  intro y t' hexec
  cases hexec
  exact h

theorem throw (e : Error) : Ensures t (throw e) Q := by
  intro y t' hexec
  cases hexec

theorem bind {P : α → Execution σ → Prop} {f : α → Exec σ β} (ha : Ensures t a P)
    (hf : ∀ x t', P x t' → Ensures t' (f x) Q) : Ensures t (a >>= f) Q := by
  intro y u hexec
  obtain ⟨x, t', hx, hy⟩ := Action.exec_bind_eq_ok.mp hexec
  exact hf x t' (ha x t' hx) y u hy

/-- What matters comes later. -/
theorem skip {f : α → Exec σ β} (hf : ∀ x t', Ensures t' (f x) Q) : Ensures t (a >>= f) Q :=
  bind (P := fun _ _ => True) (fun _ _ _ => trivial) fun x t' _ => hf x t'

theorem machine {f : Machine σ → Exec σ β} (hf : Ensures t (f t.machine) Q) :
    Ensures t (machine >>= f) Q :=
  hf

theorem get {f : Execution σ → Exec σ β} (hf : Ensures t (f t) Q) : Ensures t (get >>= f) Q := hf

theorem ite {c : Prop} [Decidable c] {a b : Exec σ β} (ha : c → Ensures t a Q)
    (hb : ¬ c → Ensures t b Q) : Ensures t (if c then a else b) Q := by
  by_cases h : c
  · rw [if_pos h]
    exact ha h
  · rw [if_neg h]
    exact hb h

theorem check {c : Prop} [Decidable c] {e : Error} {f : Unit → Exec σ β}
    (hf : ¬ c → Ensures t (f ()) Q) :
    Ensures t (if c then MonadExcept.throw e >>= f else f ()) Q :=
  ite (fun _ => bind (P := fun _ _ => False) (throw e) fun _ _ h => h.elim) hf

theorem ofExcept {r : Except Error α} {f : α → Exec σ β} (hf : ∀ x, r = .ok x → Ensures t (f x) Q) :
    Ensures t (.ofExcept r >>= f) Q := by
  refine bind (P := fun x t' => r = .ok x ∧ t' = t) ?_ ?_
  · intro x t' hexec
    obtain ⟨hr, ht⟩ := Prod.mk.inj hexec
    exact ⟨hr, ht.symm⟩
  · rintro x t' ⟨hr, rfl⟩
    exact hf x hr

theorem modifyMachine {f : Machine σ → Machine σ} {g : Unit → Exec σ β}
    (h : Ensures { t with machine := f t.machine } (g ()) Q) :
    Ensures t (modifyMachine f >>= g) Q :=
  h

theorem onArena {f : Arena → Except Error Arena} {g : Unit → Exec σ β}
    (h : ∀ arena, f t.machine.arena = .ok arena →
      Ensures { t with machine := { t.machine with arena } } (g ()) Q) :
    Ensures t (onArena f >>= g) Q := by
  rw [Exec.onArena, bind_assoc]
  refine machine ?_
  rw [bind_assoc]
  exact ofExcept h

theorem read (a : Action Cursor α) : Ensures t (read a) fun _ t' => t'.machine = t.machine := by
  intro x t' hexec
  rw [exec_read] at hexec
  obtain ⟨-, rfl⟩ := Prod.mk.inj hexec
  rfl

theorem popFrame :
    Ensures t popFrame fun _ t' => t' = { t with machine := t.machine.dropTop } := by
  intro x t' hexec
  rw [exec_popFrame_eq] at hexec
  exact (Prod.mk.inj hexec).2.symm

theorem popFrames (n : Nat) :
    Ensures t (popFrames n) fun _ t' => t' = { t with machine := Machine.dropTop^[n] t.machine } := by
  induction n generalizing t with
  | zero => exact pure rfl
  | succ n ih =>
    refine bind popFrame ?_
    rintro _ _ rfl
    exact ih

theorem turnTo (text : Cursor) :
    Ensures t (turnTo text) fun _ t' => t'.machine = t.machine := by
  intro x t' hexec
  cases hexec
  rfl

end

theorem eval (mode : Mode) :
    Ensures t (eval mode) fun _ t' => t.machine.Alike t'.machine := by
  refine get (bind (P := fun _ t' => t.machine.Alike t'.machine) ?_ fun _ _ h => ?_)
  · intro y t' hexec
    rw [Action.exec_zoom] at hexec
    obtain ⟨-, rfl⟩ := Prod.mk.inj hexec
    exact ⟨_, rfl⟩
  · exact bind (turnTo _) fun _ _ h' => pure (h' ▸ h)

theorem evalLast : Ensures t evalLast fun _ t' => t.machine.Alike t'.machine :=
  bind (eval _) fun _ _ h₁ => bind (read _) fun _ _ h₂ => pure (h₂ ▸ h₁)

end Ensures

/-! ## Statements -/

/-- DIM allocates a block and pushes a frame for it. -/
theorem ensures_dim :
    Ensures t dim fun _ t' => ∃ m name size block arena arena', t.machine.Alike m ∧
      m.arena.alloc size = .ok (block, arena) ∧
      arena.push (.array { name, block, prior := m.vars.isShadowed name }) = .ok arena' ∧
      t'.machine = { m with arena := arena', vars := m.vars.setShadowed name true } := by
  refine .bind (.read _) fun name t₁ h₁ => .bind (.read _) fun _ t₂ h₂ => ?_
  refine .bind (.eval _) fun size t₃ h₃ => .bind (.read _) fun _ t₄ h₄ => .check fun _ => ?_
  refine .machine (.ofExcept fun y halloc => ?_)
  have halike : t.machine.Alike t₄.machine := h₁ ▸ h₂ ▸ h₄ ▸ h₃
  dsimp only
  split
  next arena' hpush =>
    exact .modifyMachine (.pure ⟨t₄.machine, name, _, y.1, y.2, arena', halike, halloc, hpush, rfl⟩)
  next e _ => exact .modifyMachine (.throw e)

/-- GOSUB pushes a frame with the place after it, and goes to the line it names. -/
theorem ensures_gosub (pc : Pc) :
    Ensures t (gosub pc) fun flow t' => ∃ m number arena, t.machine.Alike m ∧
      m.arena.push (.gosub (m.next pc)) = .ok arena ∧ t'.machine = { m with arena } ∧
      flow = .jump (t'.machine.target number) := by
  refine .bind .evalLast fun number t₁ h₁ => .machine (.onArena fun arena harena => ?_)
  exact .machine (.pure ⟨t₁.machine, number, arena, h₁, harena, rfl, rfl⟩)

/-! ## What cannot fail -/

/-- Executing `a` from `t` does not fail. -/
def Sure (t : Execution σ) (a : Exec σ α) : Prop := ∃ x t', a.exec t = (.ok x, t')

namespace Sure

section

omit [Host σ]

theorem pure (x : α) : Sure t (pure x) := ⟨x, t, rfl⟩

theorem modifyMachine (f : Machine σ → Machine σ) : Sure t (modifyMachine f) :=
  ⟨(), _, rfl⟩

theorem tell (f : σ → σ) : Sure t (tell f) := ⟨(), _, rfl⟩

theorem ask (f : σ → α × σ) : Sure t (ask f) := ⟨_, _, rfl⟩

theorem bind_of_exec {a : Exec σ α} {f : α → Exec σ β} (ha : Sure t a)
    (hf : ∀ x t', a.exec t = (.ok x, t') → Sure t' (f x)) : Sure t (a >>= f) := by
  obtain ⟨x, t', hx⟩ := ha
  obtain ⟨y, u, hy⟩ := hf x t' hx
  exact ⟨y, u, Action.exec_bind_eq_ok.mpr ⟨x, t', hx, hy⟩⟩

theorem bind {a : Exec σ α} {f : α → Exec σ β} (ha : Sure t a)
    (hf : ∀ x t', Sure t' (f x)) : Sure t (a >>= f) :=
  bind_of_exec ha fun x t' _ => hf x t'

theorem machine {f : Machine σ → Exec σ β} (hf : Sure t (f t.machine)) :
    Sure t (machine >>= f) :=
  hf

end

end Sure

theorem sure_notify (a : ArrayFrame) : Sure t (notify a) := by
  unfold notify
  split
  · exact .tell _
  · exact .pure _

theorem sure_load (name : Letter) (data : List UInt8) : Sure t (load name data) := by
  refine .machine ?_
  split
  · exact .bind (.modifyMachine _) fun _ t => .bind (sure_notify _) fun _ t => .pure _
  · exact .bind (.modifyMachine _) fun _ t => .pure _

theorem sure_loadAll (names : List Letter) (data : List UInt8) : Sure t (loadAll names data) := by
  induction names generalizing t data with
  | nil => exact .pure _
  | cons name names ih => exact .bind (sure_load name data) fun rest t => ih rest

omit [Host σ] in
theorem sure_setFile (h : Fin fileCount) (file : Option OpenFile) : Sure t (setFile h file) :=
  .modifyMachine _

omit [Host σ] in
theorem sure_popFrames (n : Nat) : Sure t (popFrames n) := by
  induction n generalizing t with
  | zero => exact .pure _
  | succ n ih => exact .bind ⟨_, _, exec_popFrame_eq t⟩ fun _ t => ih

end Exec

/-! ## Steps -/

theorem Statement.exists_decode {text : List UInt8} {s : Statement} (h : ofText? text = some s) :
    ∃ rest, decode.exec text = (.ok s, rest) := by
  rw [ofText?] at h
  cases hdecode : decode.exec text with
  | mk r rest =>
    rw [hdecode] at h
    have hr : r = .ok s := Error.eq_ok_of_toOption h
    exact ⟨rest, by rw [hr]⟩

namespace Machine

variable {σ : Type} {m m' : Machine σ} {pc pc' : Pc}

theorem ne_end_of_decode {s : Statement} {rest : Cursor}
    (h : Statement.decode.exec (m.textAt pc) = (.ok s, rest)) : pc ≠ .end := by
  rintro rfl
  cases h

variable [Host σ]

/-- What follows the execution of a statement at a place. -/
def outcome (pc : Pc) : Except Error Flow × Execution σ → Turn × Machine σ
  | (.ok .next, t) => (.more (t.machine.next pc), t.machine)
  | (.ok (.jump target), t) => (.more target, t.machine)
  | (.ok (.yield status), t) => (.halt status, t.machine)
  | (.error e, t) => halted (t.machine.fail pc e)

theorem outcome_eq_more {r : Except Error Flow × Execution σ} (h : outcome pc r = (.more pc', m')) :
    ∃ flow t, r = (.ok flow, t) ∧ m' = t.machine ∧
      (flow = .next ∧ pc' = t.machine.next pc ∨ flow = .jump pc') := by
  obtain ⟨r, t⟩ := r
  rcases r with e | (_ | target | status)
  · cases h
  · cases h
    exact ⟨_, t, rfl, rfl, .inl ⟨rfl, rfl⟩⟩
  · cases h
    exact ⟨_, t, rfl, rfl, .inr rfl⟩
  · cases h

theorem perform_eq (m : Machine σ) (pc : Pc) (text : List UInt8) :
    m.perform pc text = outcome pc ((Exec.statement pc).exec { machine := m, unread := text }) := by
  rw [perform]
  rcases (Exec.statement pc).exec { machine := m, unread := text } with ⟨e | (_ | target | status), t⟩ <;>
    rfl

theorem exec_statement_of_decode {text rest : List UInt8} {s : Statement}
    (h : Statement.decode.exec text = (.ok s, rest)) :
    (Exec.statement pc).exec { machine := m, unread := text } =
      if pc = .direct ∧ s.isProgramOnly then (.error .direct, { machine := m, unread := rest })
      else (Exec.perform pc s).exec { machine := m, unread := rest } := by
  rw [Exec.statement, Action.exec_bind, Exec.exec_read]
  simp only [h]
  split <;> rfl

theorem step_eq_perform (h : pc ≠ .end) (hbreak : (Host.breakCheck m.host).1 = false) :
    m.step pc = perform { m with host := (Host.breakCheck m.host).2 } pc (m.textAt pc) := by
  rw [step, if_neg h]
  cases hcheck : Host.breakCheck m.host with
  | mk stop host =>
    rw [hcheck] at hbreak
    obtain rfl := hbreak
    rfl

theorem step_of_break (h : pc ≠ .end) (hbreak : (Host.breakCheck m.host).1 = true) :
    m.step pc = halted (fail { m with host := (Host.breakCheck m.host).2 } pc .break) := by
  rw [step, if_neg h]
  cases hcheck : Host.breakCheck m.host with
  | mk stop host =>
    rw [hcheck] at hbreak
    obtain rfl := hbreak
    rfl

/-- A step executes the statement at its place, unless the host breaks in or the statement makes
sense in programs only. -/
theorem step_of_decode {s : Statement} {rest : Cursor}
    (h : Statement.decode.exec (m.textAt pc) = (.ok s, rest)) :
    (∃ e, m.step pc = halted (fail { m with host := (Host.breakCheck m.host).2 } pc e)) ∨
      m.step pc = outcome pc ((Exec.perform pc s).exec
        { machine := { m with host := (Host.breakCheck m.host).2 }, unread := rest }) := by
  have hpc := ne_end_of_decode h
  cases hbreak : (Host.breakCheck m.host).1 with
  | true => exact .inl ⟨_, step_of_break hpc hbreak⟩
  | false =>
    rw [step_eq_perform hpc hbreak, perform_eq, exec_statement_of_decode h]
    split
    · exact .inl ⟨_, rfl⟩
    · exact .inr rfl

/-- What a step that leads on has done. -/
theorem step_eq_more (h : m.step pc = (.more pc', m')) :
    ∃ s rest flow t, Statement.decode.exec (m.textAt pc) = (.ok s, rest) ∧
      (Exec.perform pc s).exec
        { machine := { m with host := (Host.breakCheck m.host).2 }, unread := rest } =
          (.ok flow, t) ∧
      m' = t.machine ∧ (flow = .next ∧ pc' = t.machine.next pc ∨ flow = .jump pc') := by
  have hpc : pc ≠ .end := by
    rintro rfl
    cases h
  cases hbreak : (Host.breakCheck m.host).1 with
  | true =>
    rw [step_of_break hpc hbreak] at h
    cases h
  | false =>
    cases hdecode : Statement.decode.exec (m.textAt pc) with
    | mk r rest =>
      cases r with
      | error e =>
        rw [step_eq_perform hpc hbreak, perform_eq, Exec.statement, Action.exec_bind,
          Exec.exec_read] at h
        simp only [hdecode] at h
        cases h
      | ok s =>
        obtain ⟨e, hstep⟩ | hstep := step_of_decode hdecode
        · rw [hstep] at h
          cases h
        · rw [hstep] at h
          obtain ⟨flow, t, hexec, hm', hflow⟩ := outcome_eq_more h
          exact ⟨s, rest, flow, t, rfl, hexec, hm', hflow⟩

theorem alike_fail (m : Machine σ) (pc : Pc) (e : Error) : m.Alike (m.fail pc e).2 := ⟨_, rfl⟩

theorem alike_outcome (pc : Pc) (r : Except Error Flow × Execution σ) :
    r.2.machine.Alike (outcome pc r).2 := by
  obtain ⟨e | (_ | target | status), t⟩ := r
  · exact alike_fail _ _ _
  · exact .refl _
  · exact .refl _
  · exact .refl _

/-- A step that does not execute a statement changes nothing but the host. -/
theorem step_cases (m : Machine σ) (pc : Pc) :
    (∃ status m', m.step pc = (.halt status, m') ∧ m.Alike m') ∨
      ∃ s rest, Statement.decode.exec (m.textAt pc) = (.ok s, rest) ∧
        m.step pc = outcome pc ((Exec.perform pc s).exec
          { machine := { m with host := (Host.breakCheck m.host).2 }, unread := rest }) := by
  have hcheck : m.Alike { m with host := (Host.breakCheck m.host).2 } := ⟨_, rfl⟩
  have hfail (e : Error) :
      ∃ status m', halted (fail { m with host := (Host.breakCheck m.host).2 } pc e) =
        (.halt status, m') ∧ m.Alike m' := ⟨_, _, rfl, hcheck.trans (alike_fail _ pc e)⟩
  by_cases hpc : pc = .end
  · subst hpc
    exact .inl ⟨_, _, rfl, _, rfl⟩
  cases hbreak : (Host.breakCheck m.host).1 with
  | true =>
    rw [step_of_break hpc hbreak]
    exact .inl (hfail _)
  | false =>
    cases hdecode : Statement.decode.exec (m.textAt pc) with
    | mk r rest =>
      cases r with
      | error e =>
        rw [step_eq_perform hpc hbreak, perform_eq, Exec.statement, Action.exec_bind,
          Exec.exec_read]
        simp only [hdecode]
        exact .inl ⟨_, _, rfl, hcheck.trans (alike_fail _ pc e)⟩
      | ok s =>
        obtain ⟨e, hstep⟩ | hstep := step_of_decode hdecode
        · rw [hstep]
          exact .inl (hfail e)
        · exact .inr ⟨s, rest, rfl, hstep⟩

/-- What a step changes is what carrying out its statement changes, but for the host. -/
theorem alike_step {s : Statement} {rest : Cursor}
    (hdecode : Statement.decode.exec (m.textAt pc) = (.ok s, rest)) :
    m.Alike (m.step pc).2 ∨
      ∃ host, Alike ((Exec.perform pc s).exec { machine := { m with host }, unread := rest }).2.machine
        (m.step pc).2 := by
  obtain ⟨status, m', hstep, halike⟩ | ⟨s', rest', hdecode', hstep⟩ := m.step_cases pc
  · rw [hstep]
    exact .inl halike
  · rw [hdecode] at hdecode'
    cases hdecode'
    rw [hstep]
    exact .inr ⟨_, alike_outcome pc _⟩

/-- The machine goes along `R` in a step if it does so when the statement is carried out. -/
theorem via_step {R : Machine σ → Machine σ → Prop} [Exec.Steady R]
    (hhost : ∀ {m m' : Machine σ}, m.Alike m' → R m m') {s : Statement} {rest : Cursor}
    (hdecode : Statement.decode.exec (m.textAt pc) = (.ok s, rest))
    (h : ∀ host, Exec.Via R { machine := { m with host }, unread := rest } (Exec.perform pc s)) :
    R m (m.step pc).2 := by
  obtain halike | ⟨host, halike⟩ := alike_step hdecode
  · exact hhost halike
  · exact Exec.Steady.trans (Exec.Steady.trans (hhost ⟨host, rfl⟩) (h host)) (hhost halike)

theorem path_step_of_ofText? {s : Statement} (h : Statement.ofText? (m.textAt pc) = some s) :
    Path s.trend m (m.step pc).2 := by
  obtain ⟨rest, hdecode⟩ := Statement.exists_decode h
  refine via_step ?_ hdecode fun host => Exec.moves_perform pc s
  rintro m _ ⟨host, rfl⟩
  exact .single (.host m host)

end Machine

end FlashBasic
