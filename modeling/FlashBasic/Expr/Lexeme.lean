import FlashBasic.Expr.Number

/-!
The pieces of an expression. `Lexeme.read` takes the next piece off the text; text that starts with
none ends the expression.
-/

namespace FlashBasic

set_option autoImplicit false

inductive Lexeme where
  | number (value : Int32)
  | name (letter : Letter)
  | opening
  | closing
  | comma
  | operator (o : Operator)
  /-- A function with its opening parenthesis. -/
  | call (f : Builtin)
  | millis
  | battery
  | length (letter : Letter)
  /-- A word that lacks what must follow it. -/
  | malformed
deriving DecidableEq, Repr

namespace Lexeme

def number? (maxLength base : Nat) (c : Cursor) : Lexeme × Cursor :=
  match Number.digits base maxLength c with
  | ([], rest) => (.malformed, rest)
  | (ds, rest) => (.number (Number.ofDigits base ds), rest)

/-- `lexeme`, provided that a closing parenthesis follows. -/
def closed (lexeme : Lexeme) (c : Cursor) : Lexeme × Cursor :=
  let c := c.skipBlanks
  if c.peek = Ascii.code ')' then (lexeme, c.advance) else (.malformed, c)

/-- The array whose length is asked for, with the closing parenthesis. -/
def lengthOf (c : Cursor) : Lexeme × Cursor :=
  let c := c.skipBlanks
  match Letter.ofByte? c.peek with
  | some l => closed (.length l) c.advance
  | none => (.malformed, c)

/-- The lexeme that starts with the token `t`, before which the text `rest` stands. -/
def ofToken? (t : Token) (rest : Cursor) : Option (Lexeme × Cursor) :=
  match t with
  | .constant =>
    match namedValue? rest.peek with
    | some (_, value) => some (.number value, rest.advance)
    | none => some (.malformed, rest)
  | .hex => some (number? 8 16 rest)
  | .millis => some (closed .millis rest)
  | .battery => some (closed .battery rest)
  | .len => some (lengthOf rest)
  | .abs => some (.call .abs, rest)
  | .rnd => some (.call .rnd, rest)
  | .pin bank => some (.call (.pin bank), rest)
  | .btGet => some (.call .btGet, rest)
  | .op o => some (.operator o, rest)
  | _ => none

/-- The next lexeme of a text that does not start with a blank. -/
def read : Cursor → Option (Lexeme × Cursor)
  | [] => none
  | b :: rest =>
    if Ascii.isDigit b then some (number? 10 10 (b :: rest))
    else if b = Ascii.code '(' then some (.opening, rest)
    else if b = Ascii.code ')' then some (.closing, rest)
    else if b = Ascii.code ',' then some (.comma, rest)
    else
      match Letter.ofByte? b with
      | some l => some (.name l, rest)
      | none => (Token.ofByte? b).bind (ofToken? · rest)

end Lexeme

end FlashBasic
