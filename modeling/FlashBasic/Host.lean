import FlashBasic.Error
import FlashBasic.Host.Sensors

/-!
Everything a machine needs from the outside world. A host must provide output, a clock, random
numbers and timers; hardware that it says nothing about is absent.
-/

namespace FlashBasic

set_option autoImplicit false

def timerCount : Nat := 4

class Host (σ : Type) extends Sensors σ where
  putByte : UInt8 → σ → σ
  /-- Arms a timer to run a line after `timeout` milliseconds. False when it cannot be armed. -/
  timerStart : (id : UInt8) → (timeout : Int32) → (repeats : Bool) → (line : UInt16) → σ →
    Bool × σ
  timerStop : (id : UInt8) → σ → σ
  /-- Shows an error and the stored line that caused it, if there is one. -/
  report : Error → Option String → σ → σ := fun e line s =>
    let text := e.message ++ "\n" ++ (line.map (">> " ++ · ++ "\n")).getD ""
    (Ascii.bytes text).foldl (fun s b => putByte b s) s
  /-- False when there is no such pin. -/
  pinWrite : (bank : UInt8) → (pin : UInt8) → (high : Bool) → σ → Bool × σ :=
    fun _ _ _ s => (false, s)
  /-- Asked before each statement. True stops the program. -/
  breakCheck : σ → Bool × σ := fun s => (false, s)
  /-- An array with this notifier was changed. -/
  notify : UInt16 → σ → σ := fun _ s => s
  /-- A service is no longer needed. -/
  teardown : UInt16 → σ → σ := fun _ s => s
  reboot : σ → σ := fun s => s

namespace Host

variable {σ : Type} [Host σ]

/-- Puts out the UTF-8 bytes of a text. -/
def print (text : String) (s : σ) : σ :=
  (Ascii.bytes text).foldl (fun s b => putByte b s) s

end Host

end FlashBasic
