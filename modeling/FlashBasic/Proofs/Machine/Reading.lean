import FlashBasic.Machine.Run
import Mathlib.Logic.Relation
import Mathlib.Tactic.Common

/-!
How executing part of a statement changes a machine. `Exec.Via R` says that the machine goes along a
relation `R`, whether the part succeeds or fails. Most parts of statements only read: they evaluate
expressions, and all that this can change is the host. So the relations are those that allow for
evaluation (`Exec.Steady`), and a part that only reads goes along any of them.
-/

namespace FlashBasic

set_option autoImplicit false

namespace Exec

variable {σ α β : Type} [Host σ] {R : Machine σ → Machine σ → Prop} {t : Execution σ}

/-- Executing `a` from `t` takes the machine along `R`. -/
def Via (R : Machine σ → Machine σ → Prop) (t : Execution σ) (a : Exec σ α) : Prop :=
  R t.machine (a.exec t).2.machine

/-- Changes of machines among which are those that evaluation makes. -/
class Steady (R : Machine σ → Machine σ → Prop) : Prop where
  refl : ∀ m, R m m
  trans : ∀ {m m' m''}, R m m' → R m' m'' → R m m''
  evaluate : ∀ (m : Machine σ) (mode : Mode) (c : Cursor),
    R m { m with host := ((evaluate m.binding mode c).exec m.host).2 }

namespace Via

omit [Host σ] in
theorem exec {a : Exec σ α} (h : Via R t a) {r : Except Error α} {t' : Execution σ}
    (hexec : a.exec t = (r, t')) : R t.machine t'.machine := by
  unfold Via at h
  rwa [hexec] at h

omit [Host σ] in
theorem mono {S : Machine σ → Machine σ → Prop} {a : Exec σ α} (h : ∀ {m m'}, R m m' → S m m')
    (ha : Via R t a) : Via S t a :=
  h ha

variable [Steady R]

theorem pure (x : α) : Via R t (pure x : Exec σ α) := Steady.refl _

theorem throw (e : Error) : Via R t (throw e : Exec σ α) := Steady.refl _

theorem bind_of_exec {a : Exec σ α} {f : α → Exec σ β} (ha : Via R t a)
    (hf : ∀ x t', a.exec t = (.ok x, t') → Via R t' (f x)) : Via R t (a >>= f) := by
  unfold Via at *
  rw [Action.exec_bind]
  cases h : a.exec t with
  | mk r t' =>
    rw [h] at ha
    cases r with
    | ok x => exact Steady.trans ha (hf x t' h)
    | error e => exact ha

theorem bind {a : Exec σ α} {f : α → Exec σ β} (ha : Via R t a) (hf : ∀ x t', Via R t' (f x)) :
    Via R t (a >>= f) :=
  bind_of_exec ha fun x t' _ => hf x t'

omit [Steady R] [Host σ] in
theorem machine {f : Machine σ → Exec σ β} (hf : Via R t (f t.machine)) :
    Via R t (machine >>= f) :=
  hf

omit [Steady R] [Host σ] in
theorem get {f : Execution σ → Exec σ β} (hf : Via R t (f t)) : Via R t (get >>= f) :=
  hf

omit [Steady R] [Host σ] in
theorem modifyMachine {f : Machine σ → Machine σ} (h : R t.machine (f t.machine)) :
    Via R t (modifyMachine f) :=
  h

theorem read (a : Action Cursor α) : Via R t (read a : Exec σ α) := Steady.refl _

theorem turnTo (text : Cursor) : Via R t (turnTo text : Exec σ Unit) := Steady.refl _

theorem eval (mode : Mode) : Via R t (eval mode : Exec σ Int32) := by
  refine .get (.bind ?_ fun v t => .bind (.turnTo _) fun _ t => .pure _)
  exact Steady.evaluate t.machine mode t.unread

theorem evalLast : Via R t (evalLast : Exec σ Int32) :=
  .bind (.eval _) fun _ _ => .bind (.read _) fun _ _ => .pure _

/-- A test that fails with an error. -/
theorem check {c : Prop} [Decidable c] {e : Error} {f : Unit → Exec σ α}
    (hf : ¬ c → Via R t (f ())) : Via R t (if c then MonadExcept.throw e >>= f else f ()) := by
  by_cases h : c
  · rw [if_pos h]
    exact bind_of_exec (.throw e) fun _ _ hexec => by simp at hexec
  · rw [if_neg h]
    exact hf h

omit [Steady R] [Host σ] in
theorem ite {c : Prop} [Decidable c] {a b : Exec σ α} (ha : c → Via R t a) (hb : ¬ c → Via R t b) :
    Via R t (if c then a else b) := by
  by_cases h : c
  · rw [if_pos h]
    exact ha h
  · rw [if_neg h]
    exact hb h

/-- Two ways to the same continuation. -/
theorem either {c : Prop} [Decidable c] {a b : Exec σ α} {f : α → Exec σ β} (ha : Via R t a)
    (hb : Via R t b) (hf : ∀ x t', Via R t' (f x)) :
    Via R t (if c then a >>= f else b >>= f) :=
  .ite (fun _ => .bind ha hf) fun _ => .bind hb hf

theorem map {a : Exec σ α} (f : α → β) (ha : Via R t a) : Via R t (f <$> a) := by
  rw [map_eq_pure_bind]
  exact .bind ha fun x t => .pure _

omit [Steady R] [Host σ] in
theorem of_map {a : Exec σ α} {f : α → β} (h : Via R t (f <$> a)) : Via R t a := by
  unfold Via at h
  rwa [Action.exec_map] at h

theorem ofExcept {r : Except Error α} {f : α → Exec σ β} (hf : ∀ x, r = .ok x → Via R t (f x)) :
    Via R t (.ofExcept r >>= f) := by
  refine .bind_of_exec (Steady.refl _) fun x t' hexec => ?_
  obtain ⟨hr, rfl⟩ := Prod.mk.inj hexec
  exact hf x hr

theorem onArena {f : Arena → Except Error Arena}
    (hf : ∀ arena, f t.machine.arena = .ok arena → R t.machine { t.machine with arena }) :
    Via R t (onArena f) :=
  .machine (.ofExcept fun arena harena => .modifyMachine (hf arena harena))

end Via

/-! ## Parts that only read -/

variable [Steady R]

theorem via_setting : Via R t (setting : Exec σ _) := by
  refine .bind (.eval _) fun n t => .bind (.read _) fun name t => .bind (.read _) fun _ t => ?_
  exact .check fun _ => .pure _

theorem via_fileNumber : Via R t (fileNumber : Exec σ _) := by
  refine .bind (.eval _) fun n t => ?_
  split
  · exact .pure _
  · exact .throw _

theorem via_handle : Via R t (handle : Exec σ _) :=
  .bind (.read _) fun _ _ => via_fileNumber

theorem via_fileBehind (h : Fin fileCount) (writing : Bool) :
    Via R t (fileBehind h writing : Exec σ _) := by
  refine .machine ?_
  split
  · exact .ite (fun _ => .pure _) fun _ => .throw _
  · exact .throw _

theorem via_writeItem : Via R t (writeItem : Exec σ _) := by
  refine .bind (.read _) fun _ t => .get (.machine ?_)
  split
  · exact .bind (.turnTo _) fun _ t => .bind (.read _) fun _ t => .pure _
  · exact .bind (.eval _) fun v t => .pure _

theorem via_writeItems (fuel : Nat) (data : List UInt8) :
    Via R t (writeItems fuel data : Exec σ _) := by
  induction fuel generalizing t data with
  | zero => exact .throw _
  | succ fuel ih =>
    refine .bind via_writeItem fun item t => .bind (.read _) fun _ t => .get ?_
    exact .ite (fun _ => .pure _) fun _ => ih _

theorem via_position (pc : Pc) : Via R t (position pc : Exec σ Nat) := by
  unfold position
  split
  · exact .pure _
  · exact .throw _

theorem via_nextClause (lines : List (Nat × List UInt8)) (nest : Nat) :
    Via R t (nextClause lines nest : Exec σ Pc) := by
  induction lines generalizing t nest with
  | nil => exact .pure _
  | cons line lines ih =>
    rw [nextClause]
    split
    · exact ih _
    · exact .ite (fun _ => .machine (.pure _)) fun _ => ih _
    · exact .ite (fun _ => .machine (.pure _)) fun _ => ih _
    · refine .ite (fun _ => .bind (.turnTo _) fun _ t => ?_) fun _ => ih _
      refine .bind .evalLast fun v t => ?_
      exact .ite (fun _ => .machine (.pure _)) fun _ => ih _
    · exact ih _

theorem via_branch (pc : Pc) : Via R t (branch pc : Exec σ Flow) := by
  refine .bind .evalLast fun v t => .ite (fun _ => .pure _) fun _ => ?_
  refine .bind (via_position pc) fun pos t => .machine ?_
  exact .bind (via_nextClause _ _) fun pc t => .pure _

theorem via_leaveBlock (pc : Pc) : Via R t (leaveBlock pc : Exec σ Flow) := by
  refine .machine (.bind (via_position pc) fun pos t => ?_)
  split
  · exact .pure _
  · exact .pure _

theorem via_goto : Via R t (goto : Exec σ Flow) :=
  .bind .evalLast fun _ _ => .machine (.pure _)

theorem via_printItems (fuel : Nat) (out : String) :
    Via R t (printItems fuel out : Exec σ String) := by
  induction fuel generalizing t out with
  | zero => exact .throw _
  | succ fuel ih =>
    refine .get (.ite (fun _ => .pure _) fun _ => .ite (fun _ => ?_) fun _ => ?_)
    · exact .bind (.turnTo _) fun _ t => .bind (.read _) fun text t => ih _
    · refine .ite (fun _ => .bind (.turnTo _) fun _ t => ih _) fun _ => ?_
      exact .bind (.eval _) fun v t => ih _

/-! ## Taking frames off the stack -/

namespace Via

variable (hpop : ∀ t : Execution σ, Via R t popFrame)
include hpop

theorem popFrames (n : Nat) : Via R t (popFrames n : Exec σ Unit) := by
  induction n generalizing t with
  | zero => exact .pure _
  | succ n ih => exact .bind (hpop t) fun _ t => ih

theorem unwind (frames : List Frame) : Via R t (unwind frames : Exec σ Flow) := by
  induction frames generalizing t with
  | nil => exact .pure _
  | cons frame frames ih =>
    refine .bind (hpop t) fun _ t => ?_
    cases frame with
    | array a => exact ih
    | gosub resume => exact .pure _
    | event => exact .pure _
    | loop name step terminal resume => exact .throw _

theorem returnToCaller : Via R t (returnToCaller : Exec σ Flow) :=
  .bind (.read _) fun _ _ => .machine (unwind hpop _)

end Via

end Exec

/-! ## Any host -/

namespace Machine

variable {σ : Type}

/-- The machines differ at most in their hosts. -/
def Alike (m m' : Machine σ) : Prop := ∃ host, m' = { m with host }

variable {m m' m'' : Machine σ}

theorem Alike.refl (m : Machine σ) : m.Alike m := ⟨m.host, rfl⟩

theorem Alike.trans (h : m.Alike m') (h' : m'.Alike m'') : m.Alike m'' := by
  obtain ⟨host, rfl⟩ := h
  obtain ⟨host', rfl⟩ := h'
  exact ⟨host', rfl⟩

theorem Alike.arena (h : m.Alike m') : m'.arena = m.arena := by
  obtain ⟨host, rfl⟩ := h
  rfl

theorem Alike.store (h : m.Alike m') : m'.store = m.store := by
  obtain ⟨host, rfl⟩ := h
  rfl

theorem Alike.files (h : m.Alike m') : m'.files = m.files := by
  obtain ⟨host, rfl⟩ := h
  rfl

end Machine

instance {σ : Type} [Host σ] : Exec.Steady (Machine.Alike (σ := σ)) where
  refl := Machine.Alike.refl
  trans := Machine.Alike.trans
  evaluate _ _ _ := ⟨_, rfl⟩

end FlashBasic
