import FlashBasic.Text.Ascii

/-!
The reserved bytes of program text. Bytes below 0x80 are plain ASCII; each byte from 0x80 up is one
`Token`, in the order of `Token.all`. A symbolic constant takes two bytes: `Token.constant` and the
position of its name in `namedValues` with the high bit set.
-/

namespace FlashBasic

set_option autoImplicit false

/-! ## Operators and built-in functions -/

inductive Operator where
  | add | sub | mul | div | mod
  | and | or | xor
  | ge | ne | gt | eqEq | eq | le | lt | neBang
  | shl | shr
deriving DecidableEq, Repr, Inhabited

namespace Operator

def all : List Operator :=
  [.add, .sub, .mul, .div, .mod, .and, .or, .xor, .ge, .ne, .gt, .eqEq, .eq, .le, .lt, .neBang,
    .shl, .shr]

def word : Operator → String
  | .add => "+"
  | .sub => "-"
  | .mul => "*"
  | .div => "/"
  | .mod => "%"
  | .and => "&"
  | .or => "|"
  | .xor => "^"
  | .ge => ">="
  | .ne => "<>"
  | .gt => ">"
  | .eqEq => "=="
  | .eq => "="
  | .le => "<="
  | .lt => "<"
  | .neBang => "!="
  | .shl => "<<"
  | .shr => ">>"

/-- A lower number binds tighter. -/
def precedence : Operator → Nat
  | .mul | .div | .mod => 3
  | .add | .sub => 4
  | .shl | .shr => 5
  | .ge | .gt | .le | .lt => 6
  | .ne | .eqEq | .eq | .neBang => 7
  | .and => 8
  | .xor => 9
  | .or => 10

end Operator

/-- A group of eight pins. -/
abbrev PinBank := Fin 3

/-- The functions of one argument that an expression may call. -/
inductive Builtin where
  | abs
  | rnd
  | pin (bank : PinBank)
  | btGet
deriving DecidableEq, Repr

/-! ## Tokens -/

inductive Token where
  | constant
  | list | mem | new | run | next | «let» | «if» | elif | «else» | «end»
  | goto | gosub | «return» | rem | comment | «for» | print | reboot | dim
  | timer | delay | autorun
  | «open» | close | read | write | append | dsave | dload
  | pin (bank : PinBank)
  | op (operator : Operator)
  | abs | len | rnd | millis | battery | hex | btGet
  | to | step | stop | «repeat»
deriving DecidableEq, Repr, Inhabited

namespace Token

def all : List Token :=
  [.constant,
    .list, .mem, .new, .run, .next, .let, .if, .elif, .else, .end,
    .goto, .gosub, .return, .rem, .comment, .for, .print, .reboot, .dim,
    .timer, .delay, .autorun,
    .open, .close, .read, .write, .append, .dsave, .dload,
    .pin 0, .pin 1, .pin 2] ++
  Operator.all.map .op ++
  [.abs, .len, .rnd, .millis, .battery, .hex, .btGet,
    .to, .step, .stop, .repeat]

/-- The first byte that stands for a token. -/
def base : UInt8 := 0x80

def byte (t : Token) : UInt8 := base + (all.idxOf t).toUInt8

def ofByte? (b : UInt8) : Option Token :=
  if b < base then none else all[(b - base).toNat]?

/-- How the token is typed and listed; `constant` has no spelling of its own. -/
def word : Token → String
  | .constant => ""
  | .list => "LIST"
  | .mem => "MEM"
  | .new => "NEW"
  | .run => "RUN"
  | .next => "NEXT"
  | .let => "LET"
  | .if => "IF"
  | .elif => "ELIF"
  | .else => "ELSE"
  | .end => "END"
  | .goto => "GOTO"
  | .gosub => "GOSUB"
  | .return => "RETURN"
  | .rem => "REM"
  | .comment => "//"
  | .for => "FOR"
  | .print => "PRINT"
  | .reboot => "REBOOT"
  | .dim => "DIM"
  | .timer => "TIMER"
  | .delay => "DELAY"
  | .autorun => "AUTORUN"
  | .open => "OPEN"
  | .close => "CLOSE"
  | .read => "READ"
  | .write => "WRITE"
  | .append => "APPEND"
  | .dsave => "DSAVE"
  | .dload => "DLOAD"
  | .pin 0 => "P0("
  | .pin 1 => "P1("
  | .pin 2 => "P2("
  | .op o => o.word
  | .abs => "ABS("
  | .len => "LEN("
  | .rnd => "RND("
  | .millis => "MILLIS("
  | .battery => "BATTERY("
  | .hex => "0X"
  | .btGet => "BTGET("
  | .to => "TO"
  | .step => "STEP"
  | .stop => "STOP"
  | .repeat => "REPEAT"

/-- The binding strength of a token that joins two operands. -/
def precedence? : Token → Option Nat
  | .op o => some o.precedence
  | _ => none

theorem ofByte?_byte (t : Token) : ofByte? t.byte = some t := by
  cases t with
  | pin bank => revert bank; decide
  | op o => cases o <;> rfl
  | _ => rfl

end Token

/-! ## Symbolic constants -/

def namedValues : List (String × Int32) :=
  [("TRUE", 1), ("FALSE", 0), ("ON", 1), ("OFF", 0), ("YES", 1), ("NO", 0), ("HIGH", 1), ("LOW", 0),
    ("ADVERT_ENABLED", 0x0305),
    ("MIN_CONN_INTERVAL", 0x0311),
    ("MAX_CONN_INTERVAL", 0x0312),
    ("SLAVE_LATENCY", 0x0313),
    ("TIMEOUT_MULTIPLIER", 0x0314),
    ("RXGAIN", 0x0F00),
    ("TXPOWER", 0x0F01),
    ("LIM_DISC_ADV_INT_MIN", 6),
    ("LIM_DISC_ADV_INT_MAX", 7),
    ("GEN_DISC_ADV_INT_MIN", 8),
    ("GEN_DISC_ADV_INT_MAX", 9)]

/-- The constant named by the byte that follows `Token.constant`. -/
def namedValue? (b : UInt8) : Option (String × Int32) :=
  if b < 0x80 then none else namedValues[(b - 0x80).toNat]?

end FlashBasic
