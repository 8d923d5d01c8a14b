import FlashBasic.Flash
import FlashBasic.Store.Page
import Mathlib.Algebra.Ring.Nat
import Mathlib.Data.List.GetD

/-!
The structure of a page. Every page image is an age, items one after the other, and a tail at which
the walk over the items stops.

* `Item.Stored` is a run of bytes that a walk takes for an item; `Item.Stored.bury` deletes it, and
  `Item.Stored.ofPayload` makes a new one.
* `Page.Layout` is a page taken apart. `Page.exists_layout` takes any page apart, and
  `Page.Layout.scan_bytes` says that a scan finds exactly the items of the layout.
-/

namespace FlashBasic

set_option autoImplicit false

namespace Item

/-! ## Headers -/

namespace Header

@[simp] theorem length_encode (h : Header) : h.encode.length = headerLength := rfl

@[simp] theorem decode_encode (h : Header) (rest : List UInt8) : decode (h.encode ++ rest) = h := by
  have hid : LittleEndian.toUInt16 (LittleEndian.ofUInt16 h.id ++ ([h.length, h.padding] ++ rest)) =
      h.id := LittleEndian.toUInt16_ofUInt16 h.id _
  rw [decode, encode, List.append_assoc, hid]
  rfl

theorem encode_decode {bytes : List UInt8} (h : headerLength ≤ bytes.length) :
    (decode bytes).encode = bytes.take headerLength := by
  match bytes, h with
  | a :: b :: c :: d :: bytes, _ =>
    have hid : LittleEndian.toUInt16 (a :: b :: c :: d :: bytes) = LittleEndian.toUInt16 [a, b] :=
      rfl
    rw [encode, decode, hid, LittleEndian.ofUInt16_toUInt16]
    rfl

/-- A header is read from the first four bytes. -/
theorem decode_append (bytes rest : List UInt8) (h : headerLength ≤ bytes.length) :
    decode (bytes ++ rest) = decode bytes := by
  unfold headerLength at h
  have hget : ∀ n, n < 4 → (bytes ++ rest).getD n 0 = bytes.getD n 0 :=
    fun n hn => List.getD_append _ _ _ _ (by omega)
  simp only [decode, LittleEndian.toUInt16, hget 0 (by omega), hget 1 (by omega),
    hget 2 (by omega), hget 3 (by omega)]

@[simp] theorem drop_encode (h : Header) (rest : List UInt8) :
    (h.encode ++ rest).drop headerLength = rest := rfl

/-- Header bytes that were written on others show the bits that both have. -/
theorem decode_and {old new : List UInt8} (hold : headerLength ≤ old.length)
    (hnew : headerLength ≤ new.length) :
    decode (List.zipWith (· &&& ·) old new) =
      ⟨(decode old).id &&& (decode new).id, (decode old).length &&& (decode new).length,
        (decode old).padding &&& (decode new).padding⟩ := by
  match old, new, hold, hnew with
  | a :: b :: c :: d :: old, a' :: b' :: c' :: d' :: new, _, _ =>
    have hid := LittleEndian.toUInt16_and a b a' b'
    simp only [decode, List.zipWith_cons_cons, List.getD_cons_zero, List.getD_cons_succ]
    simpa [LittleEndian.toUInt16] using hid

@[simp] theorem kind_tombstone (h : Header) : h.tombstone.kind = .tombstone := rfl

end Header

theorem Kind.ofId_ne_free {id : UInt16} (h : id ≠ freeId) : Kind.ofId id ≠ .free := by
  unfold Kind.ofId
  by_cases h0 : id = tombstoneId
  · simp [h0]
  · by_cases h1 : id = recordId
    · rw [if_neg h0, if_pos h1]
      exact fun hk => by cases hk
    · rw [if_neg h0, if_neg h1, if_neg h]
      exact fun hk => by cases hk

/-! ## Items -/

/-- The bytes of one item as a page holds them. -/
structure Stored where
  bytes : List UInt8
  length_eq : (Header.decode bytes).length.toNat = bytes.length
  header_le : headerLength ≤ bytes.length
  aligned : bytes.length % 4 = 0
  used : (Header.decode bytes).kind ≠ .free

namespace Stored

@[ext] theorem ext {i j : Stored} (h : i.bytes = j.bytes) : i = j := by
  cases i; cases j; cases h; rfl

def header (i : Stored) : Header := .decode i.bytes

def length (i : Stored) : Nat := i.bytes.length

def kind (i : Stored) : Kind := i.header.kind

def payload (i : Stored) : List UInt8 :=
  (i.bytes.drop headerLength).take i.header.payloadLength

def isLive (i : Stored) : Bool := i.kind ≠ .tombstone

theorem header_length (i : Stored) : i.header.length.toNat = i.length := i.length_eq

theorem four_le_length (i : Stored) : 4 ≤ i.length := i.header_le

theorem length_pos (i : Stored) : 0 < i.length := by
  have := i.four_le_length
  omega

theorem fits (i : Stored) (rest : List UInt8) :
    Page.fits i.header.length.toNat (i.bytes ++ rest).length = true := by
  have hle := i.header_le
  have hal := i.aligned
  rw [i.header_length]
  simp [Page.fits, length, hle, hal]

/-- The item once it is deleted. -/
def bury (i : Stored) : Stored where
  bytes := i.header.tombstone.encode ++ i.bytes.drop headerLength
  length_eq := by
    have hle := i.header_le
    rw [Header.decode_encode]
    simp only [Header.tombstone, i.header_length, length, List.length_append, Header.length_encode,
      List.length_drop]
    omega
  header_le := by simp
  aligned := by
    have hle := i.header_le
    have hal := i.aligned
    simp only [List.length_append, Header.length_encode, List.length_drop]
    omega
  used := by
    rw [Header.decode_encode, Header.kind_tombstone]
    exact fun h => by cases h

@[simp] theorem header_bury (i : Stored) : i.bury.header = i.header.tombstone :=
  Header.decode_encode _ _

@[simp] theorem kind_bury (i : Stored) : i.bury.kind = .tombstone := by
  rw [kind, header_bury, Header.kind_tombstone]

@[simp] theorem isLive_bury (i : Stored) : i.bury.isLive = false := by
  simp [isLive]

@[simp] theorem length_bury (i : Stored) : i.bury.length = i.length := by
  rw [← header_length, ← header_length, header_bury]
  rfl

/-! ## New items -/

theorem length_le (n : Nat) : headerLength + n ≤ Item.length n := by
  unfold Item.length headerLength
  omega

theorem length_encode (id : UInt16) (payload : List UInt8) :
    (Item.encode id payload).length = Item.length payload.length := by
  have hle := length_le payload.length
  simp only [Item.encode, List.length_append, Header.length_encode, List.length_replicate]
  omega

theorem decode_item (id : UInt16) (payload : List UInt8) :
    Header.decode (Item.encode id payload) =
      ⟨id, (Item.length payload.length).toUInt8,
        (Item.length payload.length - headerLength - payload.length).toUInt8⟩ := by
  simp only [Item.encode, List.append_assoc, Header.decode_encode]

theorem payloadLength_item (id : UInt16) {payload : List UInt8}
    (hlen : Item.length payload.length ≤ maxLength) :
    (Header.decode (Item.encode id payload)).payloadLength = payload.length := by
  have hle := length_le payload.length
  have hpad : Item.length payload.length - headerLength - payload.length < 256 := by
    unfold Item.length headerLength
    omega
  unfold maxLength at hlen
  simp only [decode_item, Header.payloadLength, Nat.toUInt8_eq, UInt8.toNat_ofNat']
  omega

/-- The item that holds a payload under an id. -/
def ofPayload (id : UInt16) (payload : List UInt8) (hid : id ≠ freeId)
    (hlen : Item.length payload.length ≤ maxLength) : Stored where
  bytes := Item.encode id payload
  length_eq := by
    rw [decode_item, length_encode]
    unfold maxLength at hlen
    simp only [Nat.toUInt8_eq, UInt8.toNat_ofNat']
    omega
  header_le := by
    have hle := length_le payload.length
    rw [length_encode]
    omega
  aligned := by
    rw [length_encode]
    unfold Item.length
    omega
  used := by
    rw [decode_item]
    exact Kind.ofId_ne_free hid

variable (id : UInt16) (data : List UInt8) (hid : id ≠ freeId)
  (hlen : Item.length data.length ≤ maxLength)

theorem length_ofPayload : (ofPayload id data hid hlen).length = Item.length data.length :=
  length_encode id data

theorem kind_ofPayload : (ofPayload id data hid hlen).kind = Kind.ofId id := by
  rw [kind, header, ofPayload, decode_item]
  rfl

theorem payload_ofPayload : (ofPayload id data hid hlen).payload = data := by
  have hpayload : (ofPayload id data hid hlen).header.payloadLength = data.length :=
    payloadLength_item id hlen
  rw [payload, hpayload]
  simp only [ofPayload, Item.encode, List.append_assoc, Header.drop_encode]
  rw [List.take_append_of_le_length (Nat.le_refl _), List.take_length]

end Stored

end Item

/-! ## Walking over items -/

namespace Page

open Item (Stored)

/-- The bytes that several items take. -/
def span (items : List Stored) : Nat := (items.map (·.length)).sum

/-- The bytes of the items that are not deleted. -/
def Scan.liveBytes (s : Scan) : Nat :=
  ((s.items.filter fun e => e.2.kind ≠ .tombstone).map fun e => e.2.length.toNat).sum

/-- Items with their offsets, the first standing at `offset`. -/
def places : (offset : Nat) → List Stored → List (Nat × Stored)
  | _, [] => []
  | offset, i :: items => (offset, i) :: places (offset + i.length) items

/-- No item starts here. -/
def Ended (tail : List UInt8) : Prop :=
  tail.length < Item.headerLength ∨ (Item.Header.decode tail).kind = .free ∨
    fits (Item.Header.decode tail).length.toNat tail.length = false

/-- What starts here is not free space. -/
def broken (tail : List UInt8) : Bool :=
  Item.headerLength ≤ tail.length && (Item.Header.decode tail).kind ≠ .free

@[simp] theorem span_nil : span [] = 0 := rfl

@[simp] theorem span_cons (i : Stored) (items : List Stored) :
    span (i :: items) = i.length + span items := by
  simp [span]

@[simp] theorem span_append (items items' : List Stored) :
    span (items ++ items') = span items + span items' := by
  simp [span]

theorem length_flatMap_bytes (items : List Stored) :
    (items.flatMap (·.bytes)).length = span items := by
  simp [List.length_flatMap, span, Stored.length]

theorem places_append (offset : Nat) (items items' : List Stored) :
    places offset (items ++ items') =
      places offset items ++ places (offset + span items) items' := by
  induction items generalizing offset with
  | nil => simp [places]
  | cons i items ih => simp [places, ih, Nat.add_assoc]

@[simp] theorem map_snd_places (offset : Nat) (items : List Stored) :
    (places offset items).map (·.2) = items := by
  induction items generalizing offset with
  | nil => rfl
  | cons i items ih => simp [places, ih]

/-- An item stands before the end of all of them. -/
theorem places_bounds {offset o : Nat} {items : List Stored} {i : Stored}
    (h : (o, i) ∈ places offset items) : offset ≤ o ∧ o + i.length ≤ offset + span items := by
  induction items generalizing offset with
  | nil => simp [places] at h
  | cons j items ih =>
    rw [places, List.mem_cons] at h
    rw [span_cons]
    rcases h with h | h
    · cases h
      omega
    · have := ih h
      omega

/-- Cutting the items where one of them stands. -/
theorem places_split {offset o : Nat} {items : List Stored} {i : Stored}
    (h : (o, i) ∈ places offset items) :
    ∃ before after, items = before ++ i :: after ∧ o = offset + span before := by
  induction items generalizing offset with
  | nil => simp [places] at h
  | cons j items ih =>
    rw [places, List.mem_cons] at h
    rcases h with h | h
    · cases h
      exact ⟨[], items, rfl, by simp⟩
    · obtain ⟨before, after, rfl, ho⟩ := ih h
      exact ⟨j :: before, after, rfl, by rw [ho, span_cons]; omega⟩

/-- Items follow one another without overlap. -/
theorem places_apart (offset : Nat) (items : List Stored) :
    (places offset items).Pairwise fun a b => a.1 + a.2.length ≤ b.1 := by
  induction items generalizing offset with
  | nil => exact List.Pairwise.nil
  | cons i items ih =>
    refine List.Pairwise.cons ?_ (ih _)
    rintro ⟨o, j⟩ hj
    exact (places_bounds hj).1

theorem kind_erased (rest : List UInt8) :
    (Item.Header.decode (0xFF :: 0xFF :: rest)).kind = .free := by
  have hid : LittleEndian.toUInt16 (0xFF :: 0xFF :: rest) = Item.freeId := by
    simp only [LittleEndian.toUInt16, List.getD_cons_zero, List.getD_cons_succ]
    decide
  rw [Item.Header.kind, Item.Header.decode, hid]
  exact (by decide : Item.Kind.ofId Item.freeId = .free)

theorem ended_replicate (n : Nat) : Ended (List.replicate n 0xFF) := by
  by_cases h : n < 4
  · exact Or.inl (by simpa [Item.headerLength] using h)
  · obtain ⟨m, rfl⟩ : ∃ m, n = m + 4 := ⟨n - 4, by omega⟩
    exact Or.inr (Or.inl (kind_erased _))

@[simp] theorem broken_replicate (n : Nat) : broken (List.replicate n 0xFF) = false := by
  by_cases h : n < 4
  · simp [broken, Item.headerLength, show ¬ 4 ≤ n by omega]
  · obtain ⟨m, rfl⟩ : ∃ m, n = m + 4 := ⟨n - 4, by omega⟩
    have hkind : (Item.Header.decode (List.replicate (m + 4) 0xFF)).kind = .free := kind_erased _
    simp [broken, hkind]

theorem scanFrom_tail (fuel offset : Nat) (tail : List UInt8) (hfuel : tail.length ≤ fuel)
    (h : Ended tail) : scanFrom fuel offset tail = ⟨[], offset, broken tail⟩ := by
  cases fuel with
  | zero =>
    have hnil : tail = [] := List.length_eq_zero_iff.mp (Nat.le_zero.mp hfuel)
    rw [hnil]
    rfl
  | succ fuel =>
    rw [scanFrom]
    by_cases hfree : tail.length < Item.headerLength ∨ (Item.Header.decode tail).kind = .free
    · have hbroken : broken tail = false := by
        rcases hfree with hlt | hk
        · simp [broken, Nat.not_le.mpr hlt]
        · simp [broken, hk]
      rw [if_pos hfree, hbroken]
    · have hbroken : broken tail = true := by
        simp only [not_or, Nat.not_lt] at hfree
        simp [broken, hfree.1, hfree.2]
      have hfits : fits (Item.Header.decode tail).length.toNat tail.length = false := by
        rcases h with h | h | h
        · exact absurd (Or.inl h) hfree
        · exact absurd (Or.inr h) hfree
        · exact h
      rw [if_neg hfree, hbroken]
      simp only [hfits, Bool.false_eq_true, if_false]

/-- A walk over items and a tail finds the items and stops at the tail. -/
theorem scanFrom_items (fuel offset : Nat) (items : List Stored) (tail : List UInt8)
    (hfuel : span items + tail.length ≤ fuel) (h : Ended tail) :
    scanFrom fuel offset (items.flatMap (·.bytes) ++ tail) =
      ⟨(places offset items).map fun p => (p.1, p.2.header), offset + span items, broken tail⟩ := by
  induction items generalizing fuel offset with
  | nil => exact scanFrom_tail fuel offset tail (by simpa using hfuel) h
  | cons i items ih =>
    have hpos := i.length_pos
    have hle := i.header_le
    rw [span_cons] at hfuel
    obtain ⟨fuel, rfl⟩ : ∃ k, fuel = k + 1 := ⟨fuel - 1, by omega⟩
    have hrest := ih fuel (offset + i.length) (by omega)
    have hdecode : Item.Header.decode (i.bytes ++ (items.flatMap (·.bytes) ++ tail)) = i.header :=
      Item.Header.decode_append _ _ hle
    have hused : ¬ ((i.bytes ++ (items.flatMap (·.bytes) ++ tail)).length < Item.headerLength ∨
        i.header.kind = .free) := by
      rintro (hshort | hfree)
      · rw [List.length_append] at hshort
        omega
      · exact i.used hfree
    have hfits := i.fits (items.flatMap (·.bytes) ++ tail)
    rw [List.flatMap_cons, List.append_assoc, scanFrom, hdecode, if_neg hused]
    dsimp only
    rw [if_pos hfits, i.header_length, Stored.length, List.drop_left]
    rw [Stored.length] at hrest
    rw [hrest, places, List.map_cons, span_cons]
    simp only [Stored.length, Nat.add_assoc]

/-- Any bytes are items followed by a tail. -/
theorem exists_items (bytes : List UInt8) :
    ∃ (items : List Stored) (tail : List UInt8),
      bytes = items.flatMap (·.bytes) ++ tail ∧ Ended tail := by
  induction hn : bytes.length using Nat.strongRecOn generalizing bytes with
  | ind n ih =>
    by_cases hend : Ended bytes
    · exact ⟨[], bytes, rfl, hend⟩
    · simp only [Ended, not_or, Nat.not_lt, Bool.not_eq_false] at hend
      obtain ⟨hlen, hkind, hfits⟩ := hend
      simp only [fits, Bool.and_eq_true, decide_eq_true_eq, beq_iff_eq] at hfits
      obtain ⟨⟨hle, hal⟩, hleft⟩ := hfits
      generalize hm : (Item.Header.decode bytes).length.toNat = m at *
      unfold Item.headerLength at hlen hle
      have htake : (bytes.take m).length = m := List.length_take_of_le hleft
      have hdecode : Item.Header.decode (bytes.take m) = Item.Header.decode bytes := by
        have h := Item.Header.decode_append (bytes.take m) (bytes.drop m)
          (by rw [htake]; exact hle)
        rw [List.take_append_drop] at h
        exact h.symm
      let i : Stored := {
        bytes := bytes.take m
        length_eq := by rw [hdecode, htake, hm]
        header_le := by rw [htake]; exact hle
        aligned := by rw [htake]; exact hal
        used := by rw [hdecode]; exact hkind }
      obtain ⟨items, tail, hrest, htail⟩ := ih (bytes.drop m).length
        (by rw [List.length_drop]; omega) (bytes.drop m) rfl
      refine ⟨i :: items, tail, ?_, htail⟩
      rw [List.flatMap_cons, List.append_assoc, ← hrest, List.take_append_drop]

/-- Changing items in place leaves every item where it stands. -/
theorem places_map (offset : Nat) (items : List Stored) (g : Nat × Stored → Stored)
    (hg : ∀ p, (g p).length = p.2.length) :
    places offset ((places offset items).map g) =
      (places offset items).map fun p => (p.1, g p) := by
  induction items generalizing offset with
  | nil => rfl
  | cons i items ih =>
    simp only [places, List.map_cons, hg]
    rw [ih]

/-! ## Pages taken apart -/

structure Layout where
  age : List UInt8
  items : List Stored
  tail : List UInt8
  age_length : age.length = ageLength
  ended : Ended tail

namespace Layout

def bytes (L : Layout) : List UInt8 := L.age ++ (L.items.flatMap (·.bytes) ++ L.tail)

/-- Where the tail begins. -/
def stop (L : Layout) : Nat := ageLength + span L.items

def places (L : Layout) : List (Nat × Stored) := Page.places ageLength L.items

/-- The bytes of deleted items. -/
def buried (L : Layout) : Nat := span (L.items.filter fun i => !i.isLive)

def info (L : Layout) : Info :=
  if broken L.tail then { free := 0, waste := L.tail.length + L.buried }
  else { free := L.tail.length, waste := L.buried }

/-- Free space holds erased bytes only. -/
def IsClean (L : Layout) : Prop :=
  broken L.tail = false → L.tail = List.replicate L.tail.length Flash.erased

theorem length_bytes (L : Layout) : L.bytes.length = L.stop + L.tail.length := by
  simp only [bytes, List.length_append, length_flatMap_bytes, L.age_length, stop]
  omega

/-- The bytes of an item stand at its offset. -/
theorem drop_place (L : Layout) {o : Nat} {i : Stored} (h : (o, i) ∈ L.places) :
    ∃ rest, L.bytes.drop o = i.bytes ++ rest := by
  obtain ⟨before, after, hitems, rfl⟩ := places_split h
  have hhead : (L.age ++ before.flatMap (·.bytes)).length = ageLength + span before := by
    rw [List.length_append, length_flatMap_bytes, L.age_length]
  have hcut : L.bytes = (L.age ++ before.flatMap (·.bytes)) ++
      (i.bytes ++ (after.flatMap (·.bytes) ++ L.tail)) := by
    simp [bytes, hitems]
  exact ⟨_, by rw [hcut, ← hhead, List.drop_left]⟩

theorem scan_bytes (L : Layout) :
    scan L.bytes = ⟨L.places.map fun p => (p.1, p.2.header), L.stop, broken L.tail⟩ := by
  have hlen := L.length_bytes
  have hdrop : L.bytes.drop ageLength = L.items.flatMap (·.bytes) ++ L.tail := by
    rw [bytes, ← L.age_length, List.drop_left]
  rw [scan, hdrop]
  exact scanFrom_items _ _ _ _ (by rw [hlen, stop]; omega) L.ended

theorem foldr_wasteOf (offset : Nat) (items : List Stored) :
    ((Page.places offset items).map fun p => (p.1, p.2.header)).foldr (wasteOf ·.2 + ·) 0 =
      span (items.filter fun i => !i.isLive) := by
  induction items generalizing offset with
  | nil => rfl
  | cons i items ih =>
    simp only [Page.places, List.map_cons, List.foldr_cons]
    rw [ih]
    by_cases hk : i.header.kind = .tombstone
    · have hlive : i.isLive = false := by simp [Stored.isLive, Stored.kind, hk]
      simp [wasteOf, hk, hlive, i.header_length]
    · have hlive : i.isLive = true := by simp [Stored.isLive, Stored.kind, hk]
      simp [wasteOf, hk, hlive]

theorem info_scan (L : Layout) : (scan L.bytes).info L.bytes.length = L.info := by
  have htail : L.bytes.length - L.stop = L.tail.length := by
    rw [L.length_bytes]
    omega
  rw [scan_bytes, Scan.info]
  dsimp only
  rw [places, foldr_wasteOf, htail]
  rfl

theorem liveBytes_scan (L : Layout) :
    (scan L.bytes).liveBytes = span (L.items.filter (·.isLive)) := by
  rw [scan_bytes, Scan.liveBytes, places]
  generalize ageLength = offset
  induction L.items generalizing offset with
  | nil => rfl
  | cons i items ih =>
    simp only [Page.places, List.map_cons, List.filter_cons]
    by_cases hk : i.header.kind = .tombstone
    · have hlive : i.isLive = false := by simp [Stored.isLive, Stored.kind, hk]
      simpa [hk, hlive] using ih (offset + i.length)
    · have hlive : i.isLive = true := by simp [Stored.isLive, Stored.kind, hk]
      simpa [hk, hlive, i.header_length] using ih (offset + i.length)

end Layout

/-- Any page can be taken apart. -/
theorem exists_layout (page : List UInt8) (h : ageLength ≤ page.length) :
    ∃ L : Layout, L.bytes = page := by
  obtain ⟨items, tail, hrest, htail⟩ := exists_items (page.drop ageLength)
  refine ⟨⟨page.take ageLength, items, tail, List.length_take_of_le h, htail⟩, ?_⟩
  rw [Layout.bytes, ← hrest, List.take_append_drop]

end Page

end FlashBasic
