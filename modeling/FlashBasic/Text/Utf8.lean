/-!
Decoding of UTF-8 that never fails: each maximal run of bytes that starts a character but cannot
be completed is read as one U+FFFD.
-/

namespace FlashBasic.Utf8

set_option autoImplicit false

/-- What a first byte announces: the bits it contributes, how many bytes follow, and the range of
the first of them. Later ones range over 0x80 to 0xBF. -/
structure Lead where
  bits : Nat
  following : Nat
  low : UInt8 := 0x80
  high : UInt8 := 0xBF

/-- `none` for a byte that starts no character. The narrowed ranges exclude overlong forms,
surrogates and values above U+10FFFF. -/
def lead? (b : UInt8) : Option Lead :=
  let n := b.toNat
  if n < 0x80 then some { bits := n, following := 0 }
  else if n < 0xC2 then none
  else if n < 0xE0 then some { bits := n - 0xC0, following := 1 }
  else if n = 0xE0 then some { bits := 0, following := 2, low := 0xA0 }
  else if n = 0xED then some { bits := 0xD, following := 2, high := 0x9F }
  else if n < 0xF0 then some { bits := n - 0xE0, following := 2 }
  else if n = 0xF0 then some { bits := 0, following := 3, low := 0x90 }
  else if n < 0xF4 then some { bits := n - 0xF0, following := 3 }
  else if n = 0xF4 then some { bits := 4, following := 3, high := 0x8F }
  else none

/-- Reads the `following` bytes after a lead. The character is missing when one of them is out of
range; the bytes up to that one are consumed either way. -/
def continuation (bits : Nat) : (following : Nat) → (low high : UInt8) → List UInt8 →
    Option Char × List UInt8
  | 0, _, _, rest => (some (Char.ofNat bits), rest)
  | _ + 1, _, _, [] => (none, [])
  | n + 1, low, high, b :: rest =>
    if low ≤ b ∧ b ≤ high then
      continuation (bits * 64 + (b.toNat - 0x80)) n 0x80 0xBF rest
    else (none, b :: rest)

def replacement : Char := '\uFFFD'

/-- `fuel` bounds the number of characters; the number of bytes is always enough. -/
def decodeFrom : (fuel : Nat) → List UInt8 → List Char
  | 0, _ => []
  | _ + 1, [] => []
  | fuel + 1, b :: rest =>
    match lead? b with
    | none => replacement :: decodeFrom fuel rest
    | some l =>
      let (c, rest) := continuation l.bits l.following l.low l.high rest
      c.getD replacement :: decodeFrom fuel rest

def decodeLossy (bytes : List UInt8) : String :=
  String.ofList (decodeFrom bytes.length bytes)

end FlashBasic.Utf8
