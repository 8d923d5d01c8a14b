import FlashBasic.Error
import FlashBasic.Letter
import FlashBasic.Token

/-!
Reading token text. A `Cursor` is the part of the text that has not been read; past the end of the
text one reads newlines. The operations that may refuse the text are actions, and blanks that they
skip stay skipped when they refuse.
-/

namespace FlashBasic

set_option autoImplicit false

/-- The unread bytes of a text. -/
abbrev Cursor := List UInt8

namespace Cursor

def peek (c : Cursor) : UInt8 := c.headD Ascii.newline

def peekAt (c : Cursor) (offset : Nat) : UInt8 := c.getD offset Ascii.newline

def advance (c : Cursor) : Cursor := c.tail

def skipBlanks (c : Cursor) : Cursor := c.dropWhile Ascii.isBlank

def atEnd (c : Cursor) : Bool := c.peek == Ascii.newline

/-- The number of bytes of `text` read so far. -/
def position (c : Cursor) (text : List UInt8) : Nat := text.length - c.length

/-! ## Reading -/

def next : Action Cursor UInt8 := .update fun c => (c.peek, c.advance)

/-- Reads the byte `b` if it comes next after blanks. -/
def accept (b : UInt8) : Action Cursor Bool := .update fun c =>
  let c := c.skipBlanks
  if c.peek = b then (true, c.advance) else (false, c)

def acceptToken (t : Token) : Action Cursor Bool := accept t.byte

def expect (b : UInt8) : Action Cursor Unit := do
  unless ← accept b do throw .general

def expectToken (t : Token) : Action Cursor Unit := expect t.byte

/-- Only blanks are left on the line. -/
def expectEnd : Action Cursor Unit := do
  modify skipBlanks
  unless (← get).atEnd do throw .general

def letter : Action Cursor Letter := do
  modify skipBlanks
  match Letter.ofByte? (← get).peek with
  | some name => do modify advance; return name
  | none => throw .general

/-! ## Line numbers -/

/-- The highest number of a stored line; the two numbers above it have other uses in flash. -/
def maxLineNumber : Nat := 0xFFFD

/-- What `lineNumber` gives for a number that is too high. -/
def noLineNumber : UInt16 := 0xFFFF

/-- Appends a decimal digit, as long as the number so far has not left 16 bits. -/
def addDigit (number : UInt32) (b : UInt8) : UInt32 :=
  if number < 0x10000 then number * 10 + (b - Ascii.code '0').toUInt32 else number

/-- The leading digits as a line number: 0 when there are none. -/
def lineNumber (c : Cursor) : UInt16 × Cursor :=
  let number := (c.takeWhile Ascii.isDigit).foldl addDigit 0
  (if number.toNat ≤ maxLineNumber then number.toUInt16 else noLineNumber,
    c.dropWhile Ascii.isDigit)

end Cursor

end FlashBasic
