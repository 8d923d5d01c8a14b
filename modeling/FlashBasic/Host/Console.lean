import FlashBasic.Host.Recorder

/-!
The host of a terminal session. The clock is a field that is set from outside before each call;
what is printed waits in `output`, and timers that have run out are taken by `Console.due?`.
-/

namespace FlashBasic

set_option autoImplicit false

structure Alarm where
  due : Nat
  timer : Timer
deriving DecidableEq, Repr

structure Console where
  output : String := ""
  /-- Milliseconds since the start. -/
  now : Nat := 0
  seed : UInt32 := 1
  alarms : Vector (Option Alarm) timerCount := Vector.replicate timerCount none

namespace Console

def setAlarm (c : Console) (id : Nat) (alarm : Option Alarm) : Console :=
  { c with alarms := c.alarms.setIfInBounds id alarm }

instance : Host Console where
  millis c := (.ofNat c.now, c)
  random c :=
    let seed := Recorder.scramble c.seed
    ((seed >>> 1).toInt32, { c with seed })
  putByte b c := { c with output := c.output.push (Char.ofNat b.toNat) }
  report e line c :=
    let text := "\x1b[1m" ++ e.message ++ "\x1b[0m\n" ++ (line.map (">> " ++ · ++ "\n")).getD ""
    { c with output := c.output ++ text }
  timerStart id timeout repeats line c :=
    if id.toNat < timerCount then
      let alarm := { due := c.now + timeout.toInt.toNat, timer := { timeout, repeats, line } }
      (true, c.setAlarm id.toNat (some alarm))
    else (false, c)
  timerStop id c := c.setAlarm id.toNat none

/-- The alarm as it is after it went off at `now`. -/
def rearmed (now : Nat) (a : Alarm) : Option Alarm :=
  if a.timer.repeats then some { a with due := now + max a.timer.timeout.toInt.toNat 1 } else none

/-- Takes the first alarm that has gone off: its timer and the line to run. -/
def due? (c : Console) : Option (Nat × UInt16 × Console) :=
  (List.range timerCount).findSome? fun id =>
    match c.alarms[id]?.join with
    | some a =>
      if a.due ≤ c.now then some (id, a.timer.line, c.setAlarm id (rearmed c.now a)) else none
    | none => none

end Console

end FlashBasic
