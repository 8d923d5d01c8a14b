import FlashBasic.Machine.Exec

/-!
Statements that put something out: LIST and PRINT.
-/

namespace FlashBasic

set_option autoImplicit false

/-! ## LIST -/

namespace Program

/-- The indentation of a line that stands at `depth`, and the depth of the line after it. -/
def indentation (depth : Nat) (text : List UInt8) : Nat × Nat :=
  match Statement.ofText? text with
  | some .if | some .for => (depth, depth + 1)
  | some .else | some .elif => (depth - 1, depth)
  | some .end | some .next => (depth - 1, depth - 1)
  | _ => (depth, depth)

/-- A line with its number set to five columns. -/
def listLine (number : UInt16) (indent : Nat) (text : List UInt8) : String :=
  let digits := toString number.toNat
  String.ofList (List.replicate (5 - digits.length) ' ') ++ digits ++ " " ++
    String.ofList (List.replicate (2 * indent) ' ') ++ listing text ++ "\n"

/-- Lists the lines numbered `start` or above; the others only count for the indentation. -/
def listLines (start : Int32) : (depth : Nat) → List (UInt16 × List UInt8) → String
  | _, [] => ""
  | depth, (number, text) :: rest =>
    let (indent, depth) := indentation depth text
    let line := if start.toInt ≤ number.toNat then listLine number indent text else ""
    line ++ listLines start depth rest

end Program

namespace Exec

variable {σ : Type} [Host σ]

def list : Exec σ Flow := do
  read (modify Cursor.skipBlanks)
  let start ← if (← get).unread.atEnd then pure 0 else eval .normal
  read Cursor.expectEnd
  let m ← machine
  let lines := (List.range m.store.size).filterMap m.store.line?
  tell (Host.print (Program.listLines start 0 lines))
  return .next

/-! ## PRINT -/

/-- Reads a literal whose opening quote has been read, with its closing quote. Each byte is a
character. -/
def literal (quote : UInt8) : Action Cursor String := do
  let c ← get
  let body := c.takeWhile fun b => b ≠ quote && b ≠ Ascii.newline
  let rest : Cursor := c.drop body.length
  if rest.peek ≠ quote then throw .general
  set rest.advance
  return String.ofList (body.map fun b => Char.ofNat b.toNat)

/-- Reads the items of PRINT and appends what they print. Each item takes at least one byte, so one
more than the length of the text is enough `fuel`. -/
def printItems : (fuel : Nat) → (out : String) → Exec σ String
  | 0, _ => throw .general
  | fuel + 1, out => do
    let c := (← get).unread
    let b := c.peek
    if b = Ascii.newline then return out
    else if Ascii.isQuote b then
      turnTo c.advance
      printItems fuel (out ++ (← read (literal b)))
    else if b = Ascii.code ',' ∨ b = Ascii.code ' ' then
      turnTo c.advance
      printItems fuel out
    else
      let value ← eval .comma
      printItems fuel (out ++ toString value.toInt)

def print : Exec σ Flow := do
  let text ← printItems ((← get).unread.length + 1) ""
  tell (Host.print (text ++ "\n"))
  return .next

end Exec

end FlashBasic
