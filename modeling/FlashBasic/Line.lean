import FlashBasic.Cursor
import FlashBasic.Token.Lexer
import FlashBasic.Token.Listing

/-!
Lines: a number and token text. Number 0 marks a line that is not part of a program and runs at
once.
-/

namespace FlashBasic

set_option autoImplicit false

structure Line where
  number : UInt16
  /-- Token bytes without the number, ended by a newline. -/
  text : List UInt8
deriving DecidableEq, Repr

namespace Line

/-- Reads a typed line. -/
def parse (typed : String) : Except Error Line := do
  let (number, rest) := Cursor.lineNumber (Lexer.tokenize (← Lexer.prepare typed))
  if number = Cursor.noLineNumber then throw .general
  return { number, text := rest.skipBlanks }

def isDirect (l : Line) : Bool := l.number == 0

def isEmpty (l : Line) : Bool := Cursor.atEnd l.text

/-- The line as it would be typed. -/
def render (l : Line) : String :=
  if l.isDirect then listing l.text else toString l.number.toNat ++ " " ++ listing l.text

end Line

end FlashBasic
