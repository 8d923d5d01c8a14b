import FlashBasic.Flash.Image
import FlashBasic.Host.Console
import FlashBasic.Machine.Run

/-!
The command line: a terminal session on a flash image kept in a file, which is named by the first
argument.
-/

namespace FlashBasic.Terminal

set_option autoImplicit false

/-- The file used when none is named. -/
def defaultImage : String := "bluebasic.flash"

/-- Statements to execute in one call before giving up. -/
def patience : Nat := 1000000000000

def readImage (path : String) : IO (Option (List UInt8)) := do
  try return some (← IO.FS.readBinFile path).data.toList
  catch _ => return none

/-- Shows what was printed, and saves flash if it differs from what was saved. -/
def settle (path : String) (saved : Flash) (m : Machine Console) : IO (Machine Console) := do
  IO.print m.host.output
  (← IO.getStdout).flush
  if m.store.flash ≠ saved then
    IO.FS.writeBinFile path ⟨(Image.encode m.store.flash.bytes.toList).toArray⟩
  return { m with host := { m.host with output := "" } }

/-- A typed line in the making. -/
abbrev Typing := Task (Except IO.Error String)

def listen : IO Typing := do IO.asTask (← IO.getStdin).getLine

/-- Runs expired timers and typed lines as they come, until the input ends or the machine
reboots. -/
partial def serve (path : String) (start : Nat) (typing : Typing) (m : Machine Console) :
    IO Unit := do
  let m := { m with host := { m.host with now := (← IO.monoMsNow) - start } }
  let saved := m.store.flash
  let goOn (typing : Typing) : Option (Status × Machine Console) → IO Unit
    | none => return
    | some (status, after) => do
      let after ← settle path saved after
      unless status = .terminate do serve path start typing after
  match m.host.due? with
  | some (id, line, host) =>
    goOn typing ({ m with host }.event? patience line (id ≠ Exec.delayTimer))
  | none =>
    if ← IO.hasFinished typing then
      match typing.get with
      | .error _ => return
      | .ok "" => return
      | .ok line =>
        let m := m.modifyHost (Host.timerStop Exec.delayTimer.toUInt8)
        goOn (← listen) (m.enter? patience line)
    else
      IO.sleep 10
      serve path start typing m

end FlashBasic.Terminal

open FlashBasic in
def main (args : List String) : IO Unit := do
  let path := args.headD Terminal.defaultImage
  let config : Config := {}
  let flash := (FileFlash.openFile (← Terminal.readImage path) config.flashSize).flash
  let seed := (← IO.rand 1 0x7FFFFFFF).toUInt32
  let m := Machine.boot config flash ({ seed } : Console)
  let m ← Terminal.settle path flash m.setup
  Terminal.serve path (← IO.monoMsNow) (← Terminal.listen) m
