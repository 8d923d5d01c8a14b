import FlashBasic.Cursor

/-!
The kinds of statement. A line holds one statement, and its first byte tells which.
-/

namespace FlashBasic

set_option autoImplicit false

inductive Statement where
  | list | new | run | mem | rem
  | «let» | «if» | elif | «else» | «end»
  | goto | gosub | «return» | «for» | next
  | print | dim | timer | delay | autorun
  | dsave | dload | «open» | close | read | write
  | pin (bank : PinBank)
  | reboot
deriving DecidableEq, Repr

namespace Statement

/-- The statement that a word starts. -/
def ofToken? : Token → Option Statement
  | .list => some .list
  | .new => some .new
  | .run => some .run
  | .mem => some .mem
  | .rem | .comment => some .rem
  | .let => some .let
  | .if => some .if
  | .elif => some .elif
  | .else => some .else
  | .end => some .end
  | .goto => some .goto
  | .gosub => some .gosub
  | .return => some .return
  | .for => some .for
  | .next => some .next
  | .print => some .print
  | .dim => some .dim
  | .timer => some .timer
  | .delay => some .delay
  | .autorun => some .autorun
  | .dsave => some .dsave
  | .dload => some .dload
  | .open => some .open
  | .close => some .close
  | .read => some .read
  | .write => some .write
  | .pin bank => some (.pin bank)
  | .reboot => some .reboot
  | _ => none

/-- Reads the word that starts a statement. A variable in its place starts an assignment and is left
to be read. -/
def decode : Action Cursor Statement := do
  modify Cursor.skipBlanks
  let b := (← get).peek
  if (Letter.ofByte? b).isSome then return .let
  match (Token.ofByte? b).bind ofToken? with
  | some s => do modify Cursor.advance; return s
  | none => throw .general

/-- The statement at the start of a text, if it starts with one. -/
def ofText? (text : List UInt8) : Option Statement :=
  (decode.exec text).1.toOption

/-- Makes sense only within a program. -/
def isProgramOnly : Statement → Bool
  | .if | .elif | .else | .delay => true
  | _ => false

end Statement

end FlashBasic
