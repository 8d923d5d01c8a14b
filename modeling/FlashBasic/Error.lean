/-!
Errors of the language and the actions that may end in one.

* `Cause` lists what can go wrong, `Error` adds an optional detail, and `Error.message` is the
  wording a user sees.
* `Action S` is a computation over a state `S` that may fail. A failure keeps whatever the
  computation had done to the state by then.
-/

namespace FlashBasic

set_option autoImplicit false

inductive Cause where
  | general
  | expression
  | divisionByZero
  | outOfMemory
  | tooBig
  | badPin
  | direct
  | endOfFile
  | «break»
deriving DecidableEq, Repr, Inhabited

namespace Cause

def all : List Cause :=
  [.general, .expression, .divisionByZero, .outOfMemory, .tooBig, .badPin, .direct, .endOfFile,
    .break]

/-- Causes are numbered from 1. -/
def ofNumber? : Nat → Option Cause
  | 0 => none
  | n + 1 => all[n]?

def text : Cause → String
  | .general => "Error"
  | .expression => "Bad expression"
  | .divisionByZero => "Divide by zero"
  | .outOfMemory => "Out of memory"
  | .tooBig => "Too big"
  | .badPin => "Bad pin"
  | .direct => "Not in direct"
  | .endOfFile => "EOF"
  | .break => "Break"

end Cause

structure Error where
  cause : Cause
  /-- Which resource was involved; empty when there is nothing to add. -/
  detail : String := ""
deriving DecidableEq, Repr, Inhabited

namespace Error

abbrev general : Error := { cause := .general }
abbrev expression : Error := { cause := .expression }
abbrev divisionByZero : Error := { cause := .divisionByZero }
abbrev outOfMemory : Error := { cause := .outOfMemory }
abbrev tooBig : Error := { cause := .tooBig }
abbrev badPin : Error := { cause := .badPin }
abbrev direct : Error := { cause := .direct }
abbrev endOfFile : Error := { cause := .endOfFile }
abbrev «break» : Error := { cause := .break }

def message (e : Error) : String :=
  if e.detail.isEmpty then e.cause.text else e.cause.text ++ "; " ++ e.detail

/-- The message in braces, as a diagnostic dump shows it. -/
def inspect (e : Error) : String :=
  "Error \x7b " ++ e.message ++ " \x7d"

def isOutOfMemory (e : Error) : Bool :=
  e.cause = .outOfMemory

theorem eq_ok_of_toOption {α : Type} {r : Except Error α} {a : α} (h : r.toOption = some a) :
    r = .ok a := by
  cases r with
  | error e => cases h
  | ok b => exact congrArg Except.ok (Option.some.inj h)

end Error

/-! ## Actions -/

/-- A computation over `S` that may fail; the state survives a failure. -/
abbrev Action (S : Type) := ExceptT Error (StateM S)

namespace Action

variable {S T α β : Type}

/-- The result of an action together with the state it leaves. -/
def exec (a : Action S α) (s : S) : Except Error α × S :=
  (ExceptT.run a).run s

/-- An action on a part `T` of the state `S`. -/
def zoom (part : S → T) (put : T → S → S) (a : Action T α) : Action S α :=
  ExceptT.mk fun s =>
    let (r, t) := a.exec (part s)
    (r, put t s)

/-- An action that only changes the state and hands a value out of it. -/
def update (f : S → α × S) : Action S α :=
  ExceptT.mk fun s =>
    let (a, s) := f s
    (.ok a, s)

/-- An action that leaves the state alone. -/
def ofExcept (r : Except Error α) : Action S α :=
  ExceptT.mk fun s => (r, s)

@[simp] theorem exec_pure (a : α) (s : S) : (pure a : Action S α).exec s = (.ok a, s) := rfl

@[simp] theorem exec_throw (e : Error) (s : S) :
    (throw e : Action S α).exec s = (.error e, s) := rfl

theorem exec_bind (a : Action S α) (f : α → Action S β) (s : S) :
    (a >>= f).exec s =
      match a.exec s with
      | (.ok x, s) => (f x).exec s
      | (.error e, s) => (.error e, s) := by
  simp only [exec, ExceptT.run_bind, StateT.run_bind]
  change (match a.run.run s with | (r, t) => _) = _
  obtain ⟨r, t⟩ := a.run.run s
  cases r <;> rfl

theorem exec_map (f : α → β) (a : Action S α) (s : S) :
    (f <$> a).exec s = ((a.exec s).1.map f, (a.exec s).2) := by
  rw [map_eq_pure_bind, exec_bind]
  obtain ⟨r, t⟩ := a.exec s
  cases r <;> rfl

theorem exec_bind_eq_ok {a : Action S α} {f : α → Action S β} {s u : S} {y : β} :
    (a >>= f).exec s = (.ok y, u) ↔ ∃ x t, a.exec s = (.ok x, t) ∧ (f x).exec t = (.ok y, u) := by
  rw [exec_bind]
  obtain ⟨r, t⟩ := a.exec s
  cases r with
  | error e => simp
  | ok x =>
    refine ⟨fun h => ⟨x, t, rfl, h⟩, ?_⟩
    rintro ⟨x', t', hx, h⟩
    cases hx
    exact h

@[simp] theorem exec_get (s : S) : (get : Action S S).exec s = (.ok s, s) := rfl

@[simp] theorem exec_modify (f : S → S) (s : S) :
    (modify f : Action S Unit).exec s = (.ok (), f s) := rfl

@[simp] theorem exec_update (f : S → α × S) (s : S) :
    (update f).exec s = (.ok (f s).1, (f s).2) := rfl

@[simp] theorem exec_ofExcept (r : Except Error α) (s : S) :
    (ofExcept r).exec s = (r, s) := rfl

@[simp] theorem exec_zoom (part : S → T) (put : T → S → S) (a : Action T α) (s : S) :
    (a.zoom part put).exec s = ((a.exec (part s)).1, put (a.exec (part s)).2 s) := rfl

end Action

end FlashBasic
