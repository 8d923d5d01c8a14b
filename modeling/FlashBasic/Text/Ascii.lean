/-!
Byte classes of program text. Text is a list of bytes; letters, digits and punctuation are ASCII,
and every class below is empty above 0x7F.
-/

namespace FlashBasic.Ascii

set_option autoImplicit false

/-- The byte of an ASCII character. -/
def code (c : Char) : UInt8 := c.toNat.toUInt8

/-- The UTF-8 bytes of a string. -/
def bytes (s : String) : List UInt8 := s.toUTF8.data.toList

/-- Ends every line of program text. -/
def newline : UInt8 := 0x0A

def isBlank (b : UInt8) : Bool := b == code ' ' || b == code '\t'

def isUpper (b : UInt8) : Bool := code 'A' ≤ b && b ≤ code 'Z'

def isLower (b : UInt8) : Bool := code 'a' ≤ b && b ≤ code 'z'

def isAlpha (b : UInt8) : Bool := isUpper b || isLower b

def isDigit (b : UInt8) : Bool := code '0' ≤ b && b ≤ code '9'

def isAlphanum (b : UInt8) : Bool := isAlpha b || isDigit b

/-- Either quote mark opens a literal, which runs to the next mark of the same kind. -/
def isQuote (b : UInt8) : Bool := b == code '"' || b == code '\''

def toUpper (b : UInt8) : UInt8 := if isLower b then b - 0x20 else b

/-- The value of a digit in `base`, where letters of either case continue the decimal digits. -/
def digit? (base : Nat) (b : UInt8) : Option Nat :=
  let value :=
    if isDigit b then some (b - code '0').toNat
    else if isAlpha b then some ((toUpper b - code 'A').toNat + 10)
    else none
  value.filter (· < base)

/-- The quote mark in force after `b`, given the one in force before it. -/
def quoteAfter (quote : Option UInt8) (b : UInt8) : Option UInt8 :=
  if isQuote b then
    match quote with
    | none => some b
    | some q => if q = b then none else some q
  else quote

end FlashBasic.Ascii
