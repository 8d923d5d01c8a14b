import FlashBasic.Text.LittleEndian

/-!
Items, the units of the store. An item is a four-byte header and a payload, padded to a multiple of
four bytes. The header holds an id, the length of the whole item and the number of padding bytes.
The id tells lines (their numbers) from records and marks what was deleted and what is free.
-/

namespace FlashBasic

set_option autoImplicit false

namespace Item

inductive Kind where
  | tombstone
  | line (number : UInt16)
  | record
  | free
deriving DecidableEq, Repr

def tombstoneId : UInt16 := 0

def recordId : UInt16 := 0xFFFE

def freeId : UInt16 := 0xFFFF

def Kind.ofId (id : UInt16) : Kind :=
  if id = tombstoneId then .tombstone
  else if id = recordId then .record
  else if id = freeId then .free
  else .line id

def headerLength : Nat := 4

/-- The longest item whose length fits one byte and is a multiple of four. -/
def maxLength : Nat := 252

/-- The bytes that an item with so long a payload takes. -/
def length (payloadLength : Nat) : Nat := (headerLength + payloadLength + 3) / 4 * 4

structure Header where
  id : UInt16
  /-- Bytes of the whole item. -/
  length : UInt8
  /-- Bytes that follow the payload. -/
  padding : UInt8
deriving DecidableEq, Repr

namespace Header

def decode (bytes : List UInt8) : Header where
  id := LittleEndian.toUInt16 bytes
  length := bytes.getD 2 0
  padding := bytes.getD 3 0

def encode (h : Header) : List UInt8 := LittleEndian.ofUInt16 h.id ++ [h.length, h.padding]

def kind (h : Header) : Kind := .ofId h.id

def payloadLength (h : Header) : Nat := h.length.toNat - (headerLength + h.padding.toNat)

/-- The header of the same item once it is deleted; it only clears bits. -/
def tombstone (h : Header) : Header := { h with id := tombstoneId }

end Header

def encode (id : UInt16) (payload : List UInt8) : List UInt8 :=
  let total := length payload.length
  let padding := total - headerLength - payload.length
  Header.encode ⟨id, total.toUInt8, padding.toUInt8⟩ ++ payload ++ List.replicate padding 0xFF

end Item

end FlashBasic
