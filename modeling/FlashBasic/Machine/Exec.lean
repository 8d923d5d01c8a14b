import FlashBasic.Machine.Basic

/-!
Executing a statement: an action on a machine and the part of the statement not read yet. Statements
are carried out while they are read, so an error may come after part of the work was done.
-/

namespace FlashBasic

set_option autoImplicit false

/-- A machine at work on a statement. -/
structure Execution (σ : Type) where
  machine : Machine σ
  unread : Cursor

abbrev Exec (σ : Type) := Action (Execution σ)

/-- Where a statement leads. -/
inductive Flow where
  | next
  | jump (pc : Pc)
  | yield (status : Status)
deriving DecidableEq, Repr

namespace Exec

variable {σ α : Type} [Host σ]

def machine : Exec σ (Machine σ) := return (← get).machine

def modifyMachine (f : Machine σ → Machine σ) : Exec σ Unit :=
  modify fun t => { t with machine := f t.machine }

/-- Reads on in the statement. -/
def read (a : Action Cursor α) : Exec σ α := a.zoom (·.unread) fun unread t => { t with unread }

/-- Goes on reading in another text. -/
def turnTo (text : Cursor) : Exec σ Unit := modify fun t => { t with unread := text }

/-- Asks the host. -/
def ask (f : σ → α × σ) : Exec σ α :=
  Action.update fun t =>
    let (a, host) := f t.machine.host
    (a, { t with machine := { t.machine with host } })

/-- Tells the host. -/
def tell (f : σ → σ) : Exec σ Unit := modifyMachine (·.modifyHost f)

/-- Reads an expression and gives its value. -/
def eval (mode : Mode) : Exec σ Int32 := do
  let t ← get
  let (value, rest) ← Action.zoom (S := Execution σ) (fun t => t.machine.host)
    (fun host t => { t with machine := { t.machine with host } })
    (evaluate t.machine.binding mode t.unread)
  turnTo rest
  return value

/-- Reads the last expression of a statement. -/
def evalLast : Exec σ Int32 := do
  let value ← eval .normal
  read Cursor.expectEnd
  return value

/-- Applies to the arena a step that may fail. -/
def onArena (f : Arena → Except Error Arena) : Exec σ Unit := do
  let arena ← .ofExcept (f (← machine).arena)
  modifyMachine ({ · with arena })

/-! ## Running the parts of a statement -/

section

omit [Host σ]

@[simp] theorem exec_machine (t : Execution σ) : machine.exec t = (.ok t.machine, t) := rfl

@[simp] theorem exec_modifyMachine (f : Machine σ → Machine σ) (t : Execution σ) :
    (modifyMachine f).exec t = (.ok (), { t with machine := f t.machine }) := rfl

@[simp] theorem exec_read (a : Action Cursor α) (t : Execution σ) :
    (read a).exec t = ((a.exec t.unread).1, { t with unread := (a.exec t.unread).2 }) := rfl

@[simp] theorem exec_turnTo (text : Cursor) (t : Execution σ) :
    (turnTo text).exec t = (.ok (), { t with unread := text }) := rfl

end

end Exec

end FlashBasic
