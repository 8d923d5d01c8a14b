import FlashBasic.Host

/-!
A host that keeps everything in memory.
-/

namespace FlashBasic

set_option autoImplicit false

structure Timer where
  timeout : Int32
  repeats : Bool
  line : UInt16
deriving DecidableEq, Repr

structure Recorder where
  output : Array UInt8 := #[]
  millis : Int32 := 0
  seed : UInt32 := 1
  battery : Int32 := 3300
  /-- The pins that exist, in order of bank and number, and whether they are high. -/
  pins : List ((UInt8 × UInt8) × Bool) := []
  radio : List (UInt16 × Int32) := []
  timers : Vector (Option Timer) timerCount := Vector.replicate timerCount none
  notified : List UInt16 := []
  tornDown : List UInt16 := []
  rebooted : Bool := false
  /-- Statements to allow before a break. -/
  breakAfter : Option UInt32 := none
deriving DecidableEq, Repr

namespace Recorder

/-- Sets an entry of a table that is kept in the order of its keys. -/
def putPin (key : UInt8 × UInt8) (high : Bool) :
    List ((UInt8 × UInt8) × Bool) → List ((UInt8 × UInt8) × Bool)
  | [] => [(key, high)]
  | (k, h) :: rest =>
    if k = key then (key, high) :: rest
    else if key.1 < k.1 ∨ key.1 = k.1 ∧ key.2 < k.2 then (key, high) :: (k, h) :: rest
    else (k, h) :: putPin key high rest

def setPin (r : Recorder) (bank pin : UInt8) (high : Bool) : Recorder :=
  { r with pins := putPin (bank, pin) high r.pins }

def setRadio (r : Recorder) (param : UInt16) (value : Int32) : Recorder :=
  { r with radio := (param, value) :: r.radio }

/-- One step of a 32-bit xorshift generator, which never reaches zero from a seed other than
zero. -/
def scramble (seed : UInt32) : UInt32 :=
  let x := max seed 1
  let x := x ^^^ (x <<< 13)
  let x := x ^^^ (x >>> 17)
  x ^^^ (x <<< 5)

def setTimer (r : Recorder) (id : UInt8) (timer : Option Timer) : Recorder :=
  { r with timers := r.timers.setIfInBounds id.toNat timer }

/-- Counts down to a break, which happens once. -/
def countDown (r : Recorder) : Bool × Recorder :=
  match r.breakAfter with
  | none => (false, r)
  | some n => if n = 0 then (true, { r with breakAfter := none })
    else (false, { r with breakAfter := some (n - 1) })

instance : Host Recorder where
  millis r := (r.millis, r)
  random r :=
    let seed := scramble r.seed
    ((seed >>> 1).toInt32, { r with seed })
  battery r := (r.battery, r)
  pinRead bank pin r := ((r.pins.lookup (bank, pin)).map fun high => if high then 1 else 0, r)
  radioParam p r := (r.radio.lookup p, r)
  putByte b r := { r with output := r.output.push b }
  timerStart id timeout repeats line r :=
    if id.toNat < timerCount then (true, r.setTimer id (some { timeout, repeats, line }))
    else (false, r)
  timerStop id r := r.setTimer id none
  pinWrite bank pin high r :=
    if (r.pins.lookup (bank, pin)).isSome then (true, r.setPin bank pin high) else (false, r)
  breakCheck := countDown
  notify n r := { r with notified := r.notified ++ [n] }
  teardown n r := { r with tornDown := r.tornDown ++ [n] }
  reboot r := { r with rebooted := true }

end Recorder

end FlashBasic
