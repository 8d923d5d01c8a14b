import FlashBasic.Text.Utf8
import FlashBasic.Token

/-!
Token bytes back to readable text. Words are set off by spaces where the text around them would
otherwise run into them; operators and other symbols are not.
-/

namespace FlashBasic.Listing

set_option autoImplicit false

/-- Whether a word after `last` needs a space before it. -/
def separates (last : UInt8) : Bool :=
  Ascii.isAlphanum last || last == Ascii.code ')' || Ascii.isQuote last

/-- Writes `word`, which follows `last` and stands before `next`. Returns what is written and the
byte that counts as the last one for the next word. -/
def place (word : String) (last next : UInt8) : List UInt8 × UInt8 :=
  let bytes := Ascii.bytes word
  let final := bytes.getLastD last
  if !bytes.any Ascii.isAlpha then (bytes, final)
  else
    let before := if separates last then [Ascii.code ' '] else []
    if final == Ascii.code '(' || word == Token.hex.word then
      (before ++ bytes, Ascii.code '(')
    else if next == Ascii.newline || next == Ascii.code ',' || next == Ascii.code ')' then
      (before ++ bytes, final)
    else (before ++ bytes ++ [Ascii.code ' '], Ascii.code ' ')

/-- The word for the byte after `Token.constant`. -/
def constantName (b : UInt8) : String :=
  ((namedValue? b).map (·.1)).getD "?"

/-- Lists the text up to its first newline, given the byte last written and the quote in force. -/
def bytesFrom (last : UInt8) (quote : Option UInt8) : List UInt8 → List UInt8
  | [] => []
  | b :: rest =>
    if b = Ascii.newline then []
    else if quote.isSome then b :: bytesFrom b (if quote = some b then none else quote) rest
    else
      match Token.ofByte? b with
      | none => b :: bytesFrom b (if Ascii.isQuote b then some b else none) rest
      | some .constant =>
        match rest with
        | [] => (place "?" last Ascii.newline).1
        | c :: rest =>
          let (written, last) := place (constantName c) last (rest.headD Ascii.newline)
          written ++ bytesFrom last none rest
      | some t =>
        let (written, last) := place t.word last (rest.headD Ascii.newline)
        written ++ bytesFrom last none rest

/-- The bytes of the listing, before they are read as UTF-8. -/
def bytes (text : List UInt8) : List UInt8 :=
  bytesFrom (Ascii.code ' ') none text

end FlashBasic.Listing

namespace FlashBasic

/-- Token text as a user reads it. -/
def listing (text : List UInt8) : String :=
  Utf8.decodeLossy (Listing.bytes text)

end FlashBasic
