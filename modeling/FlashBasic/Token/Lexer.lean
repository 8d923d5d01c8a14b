import FlashBasic.Error
import FlashBasic.Token

/-!
From a typed line to token bytes.

* `prepare` folds case outside quotes and ends the line.
* `tokenize` replaces words by their tokens. It works in place: a `Pass` reads ahead of where it
  writes in one buffer, and gives up (`none`) rather than read past the end of the buffer or write
  over a byte that it has not read yet.
-/

namespace FlashBasic.Lexer

set_option autoImplicit false

/-! ## Preparing a typed line -/

/-- The longest typed line, its end not counted. -/
def maxLineLength : Nat := 255

/-- Drops carriage returns and line feeds, and puts letters outside quotes into upper case. -/
def foldCase : (quote : Option UInt8) → List UInt8 → List UInt8
  | _, [] => []
  | quote, b :: rest =>
    if b = Ascii.code '\r' ∨ b = Ascii.code '\n' then foldCase quote rest
    else
      let quote := Ascii.quoteAfter quote b
      (if quote.isNone then Ascii.toUpper b else b) :: foldCase quote rest

def prepare (typed : String) : Except Error (List UInt8) :=
  let line := foldCase none (Ascii.bytes typed)
  if line.length ≤ maxLineLength then .ok (line ++ [Ascii.newline]) else .error .tooBig

/-! ## Words -/

/-- A word of the language and the bytes that stand for it. -/
structure Spelling where
  word : List UInt8
  coded : List UInt8
deriving DecidableEq, Repr

def spellings : List Spelling :=
  (Token.all.filter (· ≠ .constant)).map (fun t => ⟨Ascii.bytes t.word, [t.byte]⟩) ++
  namedValues.mapIdx (fun i v => ⟨Ascii.bytes v.1, [Token.constant.byte, 0x80 ||| i.toUInt8]⟩)

/-- The number of groups that the spellings are sorted into. -/
def groupCount : Nat := 13

/-- The group of the words that start with a byte. -/
def groupOf (b : UInt8) : Nat := b.toNat % groupCount

/-- Puts a spelling behind those that are at least as long. -/
def insertByLength (s : Spelling) : List Spelling → List Spelling
  | [] => [s]
  | x :: rest =>
    if x.word.length < s.word.length then s :: x :: rest else x :: insertByLength s rest

/-- The spellings of a group, longest first. -/
def group (k : Nat) : List Spelling :=
  (spellings.filter (·.word.head?.map groupOf == some k)).foldl
    (fun sorted s => insertByLength s sorted) []

def groups : List (List Spelling) := (List.range groupCount).map group

/-- The longest spelling that the text starts with. -/
def longest? : (text : List UInt8) → Option Spelling
  | [] => none
  | b :: rest => (groups.getD (groupOf b) []).find? (·.word.isPrefixOf (b :: rest))

/-! ## Tokenizing in place -/

/-- A buffer that is read and written at the same time. -/
structure Pass where
  buffer : Array UInt8
  read : Nat := 0
  write : Nat := 0

namespace Pass

def peek? (p : Pass) : Option UInt8 := p.buffer[p.read]?

def skip (p : Pass) (n : Nat) : Pass := { p with read := p.read + n }

/-- Writes one byte, which must fall on a byte that has been read. -/
def emit? (p : Pass) (b : UInt8) : Option Pass :=
  if p.write < p.read ∧ p.write < p.buffer.size then
    some { p with buffer := p.buffer.set! p.write b, write := p.write + 1 }
  else none

def emitAll? (p : Pass) : List UInt8 → Option Pass
  | [] => some p
  | b :: rest => (p.emit? b).bind (·.emitAll? rest)

/-- Moves the byte at the read position. -/
def copy? (p : Pass) : Option Pass := do
  let b ← p.peek?
  (p.skip 1).emit? b

/-- Whether the last byte written is a space. -/
def endsInSpace (p : Pass) : Bool :=
  p.write ≠ 0 && p.buffer[p.write - 1]? == some (Ascii.code ' ')

/-- Copies the rest of a literal, through its closing quote or up to the end of the line. -/
def copyQuoted? (quote : UInt8) : (fuel : Nat) → Pass → Option Pass
  | 0, _ => none
  | fuel + 1, p => do
    let b ← p.peek?
    if b = Ascii.newline then some p
    else
      let p ← p.copy?
      if b = quote then some p else copyQuoted? quote fuel p

/-- Copies a run of capital letters. -/
def copyCapitals? : (fuel : Nat) → Pass → Option Pass
  | 0, _ => none
  | fuel + 1, p => do
    if Ascii.isUpper (← p.peek?) then copyCapitals? fuel (← p.copy?) else some p

def skipBlanks? : (fuel : Nat) → Pass → Option Pass
  | 0, _ => none
  | fuel + 1, p => do
    if Ascii.isBlank (← p.peek?) then skipBlanks? fuel (p.skip 1) else some p

/-- Replaces a word by its token, which takes the place of one space before it and of all blanks
after it. -/
def emitWord? (fuel : Nat) (p : Pass) (s : Spelling) : Option Pass := do
  let p := if p.endsInSpace then { p with write := p.write - 1 } else p
  let p ← (p.skip s.word.length).emitAll? s.coded
  p.skipBlanks? fuel

/-- Keeps one space of a run of blanks, and none at the start of the line or after another. -/
def emitBlank? (fuel : Nat) (p : Pass) : Option Pass := do
  if p.write = 0 ∨ p.endsInSpace then p.skipBlanks? fuel
  else
    let p ← (p.skip 1).emit? (Ascii.code ' ')
    p.skipBlanks? fuel

/-- Handles what starts with the byte `b` at the read position. -/
def step? (p : Pass) (b : UInt8) : Option Pass :=
  let fuel := p.buffer.size
  if Ascii.isQuote b then p.copy?.bind (copyQuoted? b fuel)
  else
    match longest? (p.buffer.toList.drop p.read) with
    | some s => p.emitWord? fuel s
    | none =>
      if Ascii.isUpper b then p.copyCapitals? fuel
      else if Ascii.isBlank b then p.emitBlank? fuel
      else p.copy?

def run? : (fuel : Nat) → Pass → Option (List UInt8)
  | 0, _ => none
  | fuel + 1, p => do
    let b ← p.peek?
    if b = Ascii.newline then some (p.buffer.toList.take p.write ++ [Ascii.newline])
    else run? fuel (← p.step? b)

end Pass

/-- The line with its end added when it is missing. -/
def terminated (line : List UInt8) : List UInt8 :=
  if line.getLast? = some Ascii.newline then line else line ++ [Ascii.newline]

/-- The token bytes of a prepared line, up to its first newline. -/
def tokenize (line : List UInt8) : List UInt8 :=
  let buffer := (terminated line).toArray
  (Pass.run? buffer.size { buffer }).getD [Ascii.newline]

end FlashBasic.Lexer
