import FlashBasic.Store.Item

/-!
One page of the store: an age stamp followed by items, followed by free space. `Page.scan` walks the
items of a page image. Free space begins at the first header with the free id; a header whose length
makes no sense ends the walk as well, and what follows it is lost until the page is erased.
-/

namespace FlashBasic.Page

set_option autoImplicit false

/-- Bytes of the age stamp at the start of a page. -/
def ageLength : Nat := 4

/-- The age of a page that was erased and not yet stamped. -/
def erasedAge : UInt32 := 0xFFFFFFFF

structure Scan where
  /-- Offsets and headers of the items, in order. -/
  items : List (Nat × Item.Header)
  /-- Where the last readable item ends. -/
  stop : Nat
  /-- What follows `stop` is neither an item nor free space. -/
  damaged : Bool
deriving DecidableEq, Repr

/-- Whether an item may have this length with so many bytes left on the page. -/
def fits (length left : Nat) : Bool :=
  Item.headerLength ≤ length && length % 4 == 0 && length ≤ left

/-- Walks the bytes that start at `offset`. An item has at least four bytes, so the number of bytes
is enough `fuel`. -/
def scanFrom : (fuel offset : Nat) → List UInt8 → Scan
  | 0, offset, _ => ⟨[], offset, false⟩
  | fuel + 1, offset, bytes =>
    let header := Item.Header.decode bytes
    if bytes.length < Item.headerLength ∨ header.kind = .free then ⟨[], offset, false⟩
    else if fits header.length.toNat bytes.length then
      let length := header.length.toNat
      let rest := scanFrom fuel (offset + length) (bytes.drop length)
      { rest with items := (offset, header) :: rest.items }
    else ⟨[], offset, true⟩

def scan (page : List UInt8) : Scan :=
  scanFrom page.length ageLength (page.drop ageLength)

/-! ## Bookkeeping -/

/-- What is kept in memory about a page. -/
structure Info where
  /-- Bytes that can still be written. -/
  free : Nat
  /-- Bytes that compacting the page would gain. -/
  waste : Nat
deriving DecidableEq, Repr, Inhabited

/-- The bytes of an item that are wasted if it is a tombstone. -/
def wasteOf (h : Item.Header) : Nat :=
  if h.kind = .tombstone then h.length.toNat else 0

def Scan.info (s : Scan) (pageSize : Nat) : Info :=
  let tail := pageSize - s.stop
  let waste := s.items.foldr (wasteOf ·.2 + ·) 0
  if s.damaged then { free := 0, waste := tail + waste } else { free := tail, waste }

/-- Offsets of the lines among the items. -/
def Scan.lines (s : Scan) : List Nat :=
  s.items.filterMap fun (offset, h) =>
    match h.kind with
    | .line _ => some offset
    | _ => none

end FlashBasic.Page
