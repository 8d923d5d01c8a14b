import FlashBasic.Machine.Exec

/-!
Statements that direct the flow of a program: blocks, loops, subroutines and timers.
-/

namespace FlashBasic

set_option autoImplicit false

namespace Exec

variable {σ : Type} [Host σ]

/-- The position of the line being executed, which must be a stored one. -/
def position (pc : Pc) : Exec σ Nat :=
  match pc with
  | .line pos => return pos
  | _ => throw .direct

/-! ## IF, ELIF, ELSE, END -/

/-- Looks for the clause to execute after a condition that failed. `nest` counts the blocks opened
on the way. -/
def nextClause : (lines : List (Nat × List UInt8)) → (nest : Nat) → Exec σ Pc
  | [], _ => return .end
  | (pos, text) :: rest, nest => do
    match Statement.decode.exec text with
    | (.ok .if, _) => nextClause rest (nest + 1)
    | (.ok .end, _) =>
      if nest = 0 then return (← machine).after pos else nextClause rest (nest - 1)
    | (.ok .else, _) =>
      if nest = 0 then return (← machine).after pos else nextClause rest nest
    | (.ok .elif, condition) =>
      if nest = 0 then
        turnTo condition
        if (← evalLast) ≠ 0 then return (← machine).after pos else nextClause rest nest
      else nextClause rest nest
    | _ => nextClause rest nest

def branch (pc : Pc) : Exec σ Flow := do
  if (← evalLast) ≠ 0 then return .next
  let pos ← position pc
  return .jump (← nextClause ((← machine).linesAfter pos) 0)

/-- The position of the END that closes the block around the given lines. -/
def closingEnd? : (lines : List (Nat × List UInt8)) → (nest : Nat) → Option Nat
  | [], _ => none
  | (pos, text) :: rest, nest =>
    match Statement.ofText? text with
    | some .if => closingEnd? rest (nest + 1)
    | some .end => if nest = 0 then some pos else closingEnd? rest (nest - 1)
    | _ => closingEnd? rest nest

/-- A clause is over when the next one begins: execution goes on after the block. -/
def leaveBlock (pc : Pc) : Exec σ Flow := do
  let m ← machine
  match closingEnd? (m.linesAfter (← position pc)) 0 with
  | some pos => return .jump (m.after pos)
  | none => return .jump .end

/-! ## GOSUB and RETURN -/

def goto : Exec σ Flow := do
  let number ← evalLast
  return .jump ((← machine).target number)

def gosub (pc : Pc) : Exec σ Flow := do
  let number ← evalLast
  onArena (·.push (.gosub ((← machine).next pc)))
  return .jump ((← machine).target number)

/-- Takes the top frame off the stack; an array gives its name back. -/
def popFrame : Exec σ (Option Frame) := do
  match (← machine).arena.pop? with
  | none => return none
  | some (frame, arena) =>
    modifyMachine ({ · with arena })
    if let .array a := frame then
      modifyMachine fun m => { m with vars := m.vars.setShadowed a.name a.prior }
    return some frame

/-- Takes frames off the stack until one says where to go. The frames on the stack are `frames`. -/
def unwind : (frames : List Frame) → Exec σ Flow
  | [] => return .jump .end
  | frame :: frames => do
    let _ ← popFrame
    match frame with
    | .array _ => unwind frames
    | .gosub resume => return .jump resume
    | .event => return .yield .ready
    | .loop .. => throw { cause := .outOfMemory, detail := "STACK" }

def returnToCaller : Exec σ Flow := do
  read Cursor.expectEnd
  unwind (← machine).arena.frames

/-! ## FOR and NEXT -/

def startLoop (pc : Pc) : Exec σ Flow := do
  let name ← read Cursor.letter
  read (Cursor.expectToken (.op .eq))
  let start ← eval .normal
  read (Cursor.expectToken .to)
  let terminal ← eval .normal
  let step ← if ← read (Cursor.acceptToken .step) then eval .normal else pure 1
  read Cursor.expectEnd
  if (← machine).vars.isShadowed name then throw .general
  modifyMachine fun m => { m with vars := m.vars.set name start }
  onArena (·.push (.loop name step terminal ((← machine).next pc)))
  return .next

def isLoopOf (name : Letter) : Frame → Bool
  | .loop n .. => n = name
  | _ => false

/-- Whether a loop goes on with this value of its variable. -/
def continues (step terminal value : Int32) : Bool :=
  (0 < step && value ≤ terminal) || (step < 0 && terminal ≤ value)

/-- Takes `n` frames off the stack. -/
def popFrames : Nat → Exec σ Unit
  | 0 => return
  | n + 1 => do
    let _ ← popFrame
    popFrames n

/-- Every frame above that of the loop is dropped. -/
def nextLoop : Exec σ Flow := do
  let name ← read Cursor.letter
  read Cursor.expectEnd
  match (← machine).arena.frames.findIdx? (isLoopOf name) with
  | none => throw .general
  | some above =>
    popFrames above
    match (← machine).arena.frames with
    | .loop _ step terminal resume :: _ =>
      let value := (← machine).vars.get name + step
      modifyMachine fun m => { m with vars := m.vars.set name value }
      if continues step terminal value then return .jump resume
      popFrames 1
      return .next
    | _ => throw .general

/-! ## Timers -/

/-- The timer that serves DELAY and the start of a stored program. -/
def delayTimer : Nat := 3

def inRange (n : Int32) (bound : Nat) : Bool := 0 ≤ n && n.toInt < bound

def timer : Exec σ Flow := do
  let id ← eval .comma
  if ← read (Cursor.acceptToken .stop) then
    read Cursor.expectEnd
    if !inRange id timerCount then throw .general
    tell (Host.timerStop id.toInt.toNat.toUInt8)
    return .next
  if !inRange id delayTimer then throw .general
  let timeout ← eval .normal
  let repeats ← read (Cursor.acceptToken .repeat)
  read (Cursor.expectToken .gosub)
  let line ← evalLast
  if line < 1 ∨ (Cursor.maxLineNumber : Int) < line.toInt then throw .general
  let armed ← ask
    (Host.timerStart id.toInt.toNat.toUInt8 timeout repeats line.toInt.toNat.toUInt16)
  if !armed then throw .general
  return .next

/-- Hands control back until the timer resumes with the next line. -/
def delay (pc : Pc) : Exec σ Flow := do
  let timeout ← evalLast
  if timeout < 0 then throw .general
  let m ← machine
  if let .line pos := m.next pc then
    if let some line := m.store.lineNumber? pos then
      let _ ← ask (Host.timerStart delayTimer.toUInt8 timeout false line)
  return .yield .ready

end Exec

end FlashBasic
