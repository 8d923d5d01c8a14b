import FlashBasic.Machine.Control
import FlashBasic.Machine.Data
import FlashBasic.Machine.Output

/-!
Running programs. `Machine.step` executes one statement; `Machine.run?` repeats it until control
goes back to the host, within a number of statements. A machine does nothing between the calls of

* `Machine.setup`, once after `Machine.boot`,
* `Machine.enter?` for a typed line,
* `Machine.event?` for a timer or an interrupt.
-/

namespace FlashBasic

set_option autoImplicit false

namespace Exec

variable {σ : Type} [Host σ]

/-- Carries out a statement whose first word has been read. -/
def perform (pc : Pc) : Statement → Exec σ Flow
  | .list => list
  | .new => do
    read Cursor.expectEnd
    modifyMachine fun m => { m with store := m.store.clear }.reset
    return .jump .end
  | .run => do
    read Cursor.expectEnd
    modifyMachine (·.reset)
    return .jump (← machine).first
  | .mem => do
    read Cursor.expectEnd
    modifyMachine fun m => m.print m.freeText
    return .next
  | .rem => return .next
  | .let => assign
  | .if => branch pc
  | .elif | .else => leaveBlock pc
  | .end => do
    read Cursor.expectEnd
    return .next
  | .goto => goto
  | .gosub => gosub pc
  | .return => returnToCaller
  | .for => startLoop pc
  | .next => nextLoop
  | .print => print
  | .dim => dim
  | .timer => timer
  | .delay => delay pc
  | .autorun => autorun
  | .dsave => dsave
  | .dload => dload
  | .open => openFile
  | .close => close
  | .read => readFile
  | .write => writeFile
  | .pin bank => setPin bank
  | .reboot => do
    read Cursor.expectEnd
    tell Host.reboot
    return .yield .terminate

/-- Executes the statement at a place. -/
def statement (pc : Pc) : Exec σ Flow := do
  let s ← read Statement.decode
  if pc = .direct ∧ s.isProgramOnly then throw .direct
  perform pc s

end Exec

namespace Machine

variable {σ : Type} [Host σ]

/-- What follows a statement. -/
inductive Turn where
  | more (pc : Pc)
  | halt (status : Status)
deriving DecidableEq, Repr

/-- The text to execute at a place; a line that is not there is empty. -/
def textAt (m : Machine σ) : Pc → List UInt8
  | .direct => m.direct
  | .line pos => ((m.store.line? pos).map (·.2)).getD []
  | .end => []

def halted (r : Status × Machine σ) : Turn × Machine σ := (.halt r.1, r.2)

/-- Executes `text` at a place. -/
def perform (m : Machine σ) (pc : Pc) (text : List UInt8) : Turn × Machine σ :=
  match (Exec.statement pc).exec { machine := m, unread := text } with
  | (.ok .next, t) => (.more (t.machine.next pc), t.machine)
  | (.ok (.jump target), t) => (.more target, t.machine)
  | (.ok (.yield status), t) => (.halt status, t.machine)
  | (.error e, t) => halted (t.machine.fail pc e)

/-- One step of execution. -/
def step (m : Machine σ) (pc : Pc) : Turn × Machine σ :=
  if pc = .end then (.halt .ready, m.print "OK\n")
  else
    let text := m.textAt pc
    match Host.breakCheck m.host with
    | (true, host) => halted (fail { m with host } pc .break)
    | (false, host) => perform { m with host } pc text

/-- Executes statements until control goes back to the host; `none` when `fuel` statements were not
enough. -/
def run? : (fuel : Nat) → Machine σ → Pc → Option (Status × Machine σ)
  | 0, _, _ => none
  | fuel + 1, m, pc =>
    match m.step pc with
    | (.more pc, m) => run? fuel m pc
    | (.halt status, m) => some (status, m)

/-! ## Calls from the host -/

/-- Greets, and schedules the stored program if it is to start by itself. -/
def setup (m : Machine σ) : Machine σ :=
  let m := (m.print "BlueBasic 0.6.0\n").print m.freeText
  match m.store.record? .autorun, m.store.lineNumber? 0 with
  | some _, some line =>
    m.modifyHost fun h => (Host.timerStart Exec.delayTimer.toUInt8 5000 false line h).2
  | _, _ => m

/-- A line from the terminal: a numbered line edits the program, any other runs at once. -/
def enterWith (put? : Store → UInt16 → List UInt8 → Option Store) (fuel : Nat) (m : Machine σ)
    (typed : String) : Option (Status × Machine σ) :=
  match Line.parse typed with
  | .error e => some (m.fail .end e)
  | .ok line =>
    if !line.isDirect then some (m.editWith put? line)
    else if line.isEmpty then some (.ready, m)
    else run? fuel { m with direct := line.text } .direct

def enter? (fuel : Nat) (m : Machine σ) (typed : String) : Option (Status × Machine σ) :=
  m.enterWith Store.putLine? fuel typed

/-- Runs from the line numbered `line`, if there is one. With `canReturn` it may end in RETURN. -/
def event? (fuel : Nat) (m : Machine σ) (line : UInt16) (canReturn : Bool) :
    Option (Status × Machine σ) :=
  match m.store.find? line with
  | none => some (.ready, m)
  | some pos =>
    if canReturn then
      match m.arena.push .event with
      | .ok arena => run? fuel { m with arena } (.line pos)
      | .error e => some (m.fail .end e)
    else run? fuel m (.line pos)

/-- Holds an outside resource until the next reset. -/
def registerService (m : Machine σ) (service : UInt16) : Except Error (Machine σ) := do
  return { m with arena := ← m.arena.addService service }

/-- Asks for the host to be told when an array changes. -/
def attachNotifier (m : Machine σ) (name : Letter) (notifier : UInt16) :
    Except Error (Machine σ) :=
  match m.arena.setNotifier? name (some notifier) with
  | some arena => .ok { m with arena }
  | none => .error .general

end Machine

end FlashBasic
