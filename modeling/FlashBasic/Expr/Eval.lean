import FlashBasic.Expr.Arithmetic
import FlashBasic.Expr.Lexeme
import FlashBasic.Expr.Stack
import FlashBasic.Host.Sensors

/-!
Expressions are evaluated while they are read. Operators wait on one stack and values on another
until the precedence of what follows lets an operator be applied; both stacks are short, so deep
nesting is out of memory.

* `Mode` says where an expression ends.
* `Pending` holds the two stacks; `absorb` takes in one lexeme.
* `evaluate` reads an expression and gives its value and the text after it.
-/

namespace FlashBasic

set_option autoImplicit false

/-- Where an expression ends, besides the first thing that cannot continue it. -/
inductive Mode where
  | normal
  /-- At a closing parenthesis that it has not opened, which is read. -/
  | braces
  /-- At a comma outside parentheses, which is read. -/
  | comma
deriving DecidableEq, Repr

/-- What a letter stands for. -/
inductive Binding where
  | scalar (value : Int32)
  | array (bytes : List UInt8)
deriving DecidableEq, Repr

namespace Expr

/-- What waits for its operands. -/
inductive Op where
  | binary (o : Operator)
  | negate
  | paren
  | call (f : Builtin)
  | index (name : Letter)
deriving DecidableEq, Repr

def Op.precedence? : Op → Option Nat
  | .binary o => some o.precedence
  | .negate => some 2
  | _ => none

/-- Whether the operator is applied before one of the given precedence. -/
def Op.yieldsTo (op : Op) (precedence : Nat) : Bool :=
  op.precedence?.any (· ≤ precedence)

structure Pending where
  ops : Stack Op := { capacity := 8, overflow := "EXPRESSION STACK" }
  values : Stack Int32 := { capacity := 8, overflow := "EXPRESSION QUEUE" }
  /-- An operand comes next, so that a minus is a sign. -/
  wantsOperand : Bool := true

namespace Pending

def pushValue (p : Pending) (v : Int32) : Except Error Pending := do
  return { p with values := ← p.values.push v, wantsOperand := false }

def pushOp (p : Pending) (op : Op) : Except Error Pending := do
  return { p with ops := ← p.ops.push op, wantsOperand := true }

def setOps (p : Pending) (ops : List Op) : Pending :=
  { p with ops := { p.ops with items := ops } }

end Pending

section

variable {σ : Type} [Sensors σ] (env : Letter → Binding)

/-! ## Applying operators -/

def call (f : Builtin) (arg : Int32) : Action σ Int32 :=
  match f with
  | .abs => return magnitude arg
  | .rnd => do
    if arg = 0 then throw .divisionByZero
    return residue (← .update Sensors.random) arg
  | .pin bank => do
    if arg < 0 ∨ 8 ≤ arg then throw .badPin
    match ← .update (Sensors.pinRead bank.val.toUInt8 arg.toInt.toNat.toUInt8) with
    | some level => return level
    | none => throw .badPin
  | .btGet => do
    if arg < 0 ∨ 0x8000 ≤ arg then throw .expression
    match ← .update (Sensors.radioParam arg.toInt.toNat.toUInt16) with
    | some value => return value
    | none => throw .expression

/-- The element of an array, which must exist. -/
def element (name : Letter) (i : Int32) : Except Error Int32 :=
  match env name with
  | .scalar _ => .error .expression
  | .array bytes =>
    if i < 0 then .error .expression
    else
      match bytes[i.toInt.toNat]? with
      | some b => .ok (.ofNat b.toNat)
      | none => .error .expression

/-- Replaces the operands of `op` on top of the values by its result. -/
def apply (op : Op) (values : Stack Int32) : Action σ (Stack Int32) := do
  match op with
  | .binary o =>
    let ((a, b), values) ← .ofExcept values.popTwo
    .ofExcept (values.push (← .ofExcept (o.apply a b)))
  | .negate =>
    let (a, values) ← .ofExcept values.pop
    .ofExcept (values.push (-a))
  | .call f =>
    let (a, values) ← .ofExcept values.pop
    .ofExcept (values.push (← call f a))
  | .index name =>
    let (i, values) ← .ofExcept values.pop
    .ofExcept (values.push (← .ofExcept (element env name i)))
  | .paren => throw .expression

/-- Applies operators from the top of the stack as long as `ready` holds of them. -/
def reduceWhile (ready : Op → Bool) : List Op → Stack Int32 → Action σ (List Op × Stack Int32)
  | [], values => return ([], values)
  | op :: ops, values =>
    if ready op then do reduceWhile ready ops (← apply env op values)
    else return (op :: ops, values)

/-- Applies the operators inside the innermost open parenthesis. -/
def reduceToParen (p : Pending) : Action σ Pending := do
  let (ops, values) ← reduceWhile env (· ≠ .paren) p.ops.items p.values
  return { p.setOps ops with values }

/-! ## Taking in lexemes -/

/-- A parenthesis closes: the function or array before it gets its argument. -/
def closeParen (p : Pending) (ops : List Op) : Action σ Pending := do
  match ops with
  | .call f :: ops =>
    return { p.setOps ops with values := ← apply env (.call f) p.values, wantsOperand := false }
  | .index name :: ops =>
    return { p.setOps ops with values := ← apply env (.index name) p.values, wantsOperand := false }
  | ops => return { p.setOps ops with wantsOperand := false }

/-- A closing parenthesis or a comma; `inside` handles it when a parenthesis is open. -/
def punctuate (ends : Bool) (inside : Pending → List Op → Action σ Pending) (p : Pending) :
    Action σ (Pending × Bool) := do
  let p ← reduceToParen env p
  match p.ops.items with
  | _ :: ops => return (← inside p ops, false)
  | [] => if ends then return (p, true) else throw .expression

/-- A binary operator: what binds at least as tightly is applied first. -/
def absorbOperator (p : Pending) (o : Operator) : Action σ Pending := do
  if p.wantsOperand then throw .expression
  let (ops, values) ← reduceWhile env (·.yieldsTo o.precedence) p.ops.items p.values
  .ofExcept ({ p.setOps ops with values }.pushOp (.binary o))

/-- Takes in one lexeme; the second part of the result says whether it ends the expression. -/
def absorb (mode : Mode) (p : Pending) (lexeme : Lexeme) : Action σ (Pending × Bool) := do
  match lexeme with
  | .number v => return (← .ofExcept (p.pushValue v), false)
  | .name l =>
    match env l with
    | .scalar v => return (← .ofExcept (p.pushValue v), false)
    | .array _ => return (← .ofExcept (p.pushOp (.index l)), false)
  | .opening => return (← .ofExcept (p.pushOp .paren), false)
  | .closing => punctuate env (mode = .braces) (closeParen env) p
  | .comma => punctuate env (mode = .comma) (fun p _ => return { p with wantsOperand := true }) p
  | .operator o =>
    if o = .sub ∧ p.wantsOperand then return (← .ofExcept (p.pushOp .negate), false)
    else return (← absorbOperator env p o, false)
  | .call f => return (← .ofExcept (p.pushOp (.call f) >>= (·.pushOp .paren)), false)
  | .millis => do
    let v ← .update Sensors.millis
    return (← .ofExcept (p.pushValue v), false)
  | .battery => do
    let v ← .update Sensors.battery
    return (← .ofExcept (p.pushValue v), false)
  | .length l =>
    match env l with
    | .array bytes => return (← .ofExcept (p.pushValue (.ofNat bytes.length)), false)
    | .scalar _ => throw .expression
  | .malformed => throw .expression

/-- Takes in lexemes until the expression ends. Each takes at least one byte, so the length of the
text is enough `fuel`. -/
def absorbAll (mode : Mode) : (fuel : Nat) → Pending → Cursor → Action σ (Pending × Cursor)
  | 0, p, c => return (p, c)
  | fuel + 1, p, c =>
    match Lexeme.read c.skipBlanks with
    | none => return (p, c.skipBlanks)
    | some (lexeme, rest) => do
      let (p, ended) ← absorb env mode p lexeme
      if ended then return (p, rest) else absorbAll mode fuel p rest

/-- Applies what is left; exactly one value must remain and no parenthesis may be open. -/
def finish (p : Pending) : Action σ Int32 := do
  let p ← reduceToParen env p
  match p.ops.items, p.values.items with
  | [], [v] => return v
  | _, _ => throw .expression

end

end Expr

/-- The value of the expression that the text starts with, and the text after it. -/
def evaluate {σ : Type} [Sensors σ] (env : Letter → Binding) (mode : Mode) (c : Cursor) :
    Action σ (Int32 × Cursor) := do
  let (p, rest) ← Expr.absorbAll env mode c.length {} c
  return (← Expr.finish env p, rest)

end FlashBasic
