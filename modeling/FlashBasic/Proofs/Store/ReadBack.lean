import FlashBasic.Proofs.Store.PowerLoss

/-!
Reading back what was written, whatever flash held before. A page counts as free from the first free
marker on, and what stands behind that marker is not looked at. Where it is erased a line is stored
as given. Where it is not, writing only clears bits: the line gets its number, since the marker
itself has all its bits set, but its text comes back if and only if no bit of it was cleared before
(`Store.line_put_on_image`). The lines that were stored before stay as they are in either case.
-/

namespace FlashBasic

set_option autoImplicit false

open Item (Stored)
open Page (Layout)

/-! ## An item written on a free marker -/

namespace Item

theorem take_encode (id : UInt16) (text : List UInt8) :
    (encode id text).take (headerLength + text.length) =
      (Header.decode (encode id text)).encode ++ text := by
  rw [Stored.decode_item, encode, List.append_assoc, ← List.append_assoc]
  exact List.take_left' (by rw [List.length_append, Header.length_encode])

/-- A payload keeps its length only if no bit of the header's figures is cleared: the length of an
item stays a multiple of four, and there are fewer than four bytes of padding to make up for it. -/
theorem eq_of_payloadLength_and {n : Nat} {id : UInt16} {length padding a b : UInt8} (hn : 0 < n)
    (hmax : Item.length n ≤ maxLength) (hlength : length = (Item.length n).toUInt8)
    (hpadding : padding = (Item.length n - headerLength - n).toUInt8)
    (hkept : Header.payloadLength ⟨id, a &&& length, b &&& padding⟩ = n) :
    a &&& length = length ∧ b &&& padding = padding := by
  have hle := Stored.length_le n
  have hmod : Item.length n % 4 = 0 := by
    unfold Item.length
    omega
  have hpad : Item.length n - headerLength - n < 4 := by
    unfold Item.length headerLength
    omega
  unfold maxLength at hmax
  have hl : length.toNat = Item.length n := by
    rw [hlength, Nat.toUInt8_eq, UInt8.toNat_ofNat']
    omega
  have hp : padding.toNat = Item.length n - headerLength - n := by
    rw [hpadding, Nat.toUInt8_eq, UInt8.toNat_ofNat']
    omega
  have hl' : (a &&& length).toNat ≤ length.toNat := by
    rw [UInt8.toNat_and]
    exact Nat.and_le_right
  have hp' : (b &&& padding).toNat ≤ padding.toNat := by
    rw [UInt8.toNat_and]
    exact Nat.and_le_right
  have hmod' : (a &&& length).toNat % 4 = 0 := by
    rw [UInt8.toNat_and, Nat.and_mod_two_pow (n := 2), hl, hmod, Nat.and_zero]
  simp only [Header.payloadLength] at hkept
  unfold headerLength at *
  constructor
  · exact UInt8.toNat_inj.mp (by omega)
  · exact UInt8.toNat_inj.mp (by omega)

end Item

namespace Flash

variable {f : Flash} {addr : Nat} {id : UInt16} {text : List UInt8}

/-- A header that is written on a free marker keeps its id, and of its other fields the bits that
were not cleared before. -/
theorem header_write_item (hfree : (f.header addr).id = Item.freeId)
    (hin : addr + Item.length text.length ≤ f.size) :
    (f.write addr (Item.encode id text)).header addr =
      ⟨id, (f.header addr).length &&& (Item.Header.decode (Item.encode id text)).length,
        (f.header addr).padding &&& (Item.Header.decode (Item.encode id text)).padding⟩ := by
  have hle := Stored.length_le text.length
  have hlen := Stored.length_encode id text
  have hold : (f.slice addr Item.headerLength).length = Item.headerLength :=
    Memory.length_slice _ _ _ (by have : f.bytes.size = f.size := rfl; omega)
  have hnew : ((Item.encode id text).take Item.headerLength).length = Item.headerLength :=
    List.length_take_of_le (by omega)
  have hdecode := Item.Header.decode_append ((Item.encode id text).take Item.headerLength)
    ((Item.encode id text).drop Item.headerLength) (Nat.le_of_eq hnew.symm)
  rw [List.take_append_drop] at hdecode
  rw [header, f.slice_write_self addr _ _ (by omega),
    Item.Header.decode_and (Nat.le_of_eq hold.symm) (Nat.le_of_eq hnew.symm), ← hdecode]
  have hid : (Item.Header.decode (Item.encode id text)).id = id := by rw [Stored.decode_item]
  rw [header] at hfree
  rw [hfree, hid]
  have hall : Item.freeId &&& id = id :=
    UInt16.toBitVec_inj.mp (BitVec.allOnes_and (x := id.toBitVec))
  rw [hall]
  rfl

theorem itemId_write_item (hfree : (f.header addr).id = Item.freeId)
    (hin : addr + Item.length text.length ≤ f.size) :
    (f.write addr (Item.encode id text)).itemId addr = id := by
  rw [itemId, header_write_item hfree hin]

theorem length_write_item (hfree : (f.header addr).id = Item.freeId)
    (hin : addr + Item.length text.length ≤ f.size) :
    ((f.write addr (Item.encode id text)).header addr).length.toNat ≤ Item.length text.length := by
  rw [header_write_item hfree hin, Stored.decode_item, UInt8.toNat_and]
  refine Nat.le_trans Nat.and_le_right ?_
  rw [Nat.toUInt8_eq, UInt8.toNat_ofNat']
  exact Nat.mod_le _ _

/-- The header and the text of an item are those that were written, byte for byte, if flash takes
them. -/
theorem takes_item_iff :
    f.Takes addr ((Item.encode id text).take (Item.headerLength + text.length)) ↔
      (f.write addr (Item.encode id text)).slice addr (Item.headerLength + text.length) =
        (Item.Header.decode (Item.encode id text)).encode ++ text := by
  have hle := Stored.length_le text.length
  have hlen := Stored.length_encode id text
  rw [Takes, List.length_take_of_le (by omega), f.slice_write_self addr _ _ (by omega),
    Item.take_encode]

/-- A text reads back exactly if it is empty or flash takes all of it and of its header. -/
theorem payload_write_item_iff (hfree : (f.header addr).id = Item.freeId)
    (hmax : Item.length text.length ≤ Item.maxLength)
    (hin : addr + Item.length text.length ≤ f.size) :
    (f.write addr (Item.encode id text)).payload addr = text ↔
      text = [] ∨
        f.Takes addr ((Item.encode id text).take (Item.headerLength + text.length)) := by
  have hheader := @header_write_item f addr id text hfree hin
  -- The payload as flash shows it ends within the bytes of the item.
  have hlength := @length_write_item f addr id text hfree hin
  have hsize : (f.write addr (Item.encode id text)).size = f.size := f.size_apply (.write _ _)
  rw [takes_item_iff]
  generalize hg : f.write addr (Item.encode id text) = g at hheader hlength hsize ⊢
  have hdecoded := Stored.decode_item id text
  have hle := Stored.length_le text.length
  have hshown : (g.payload addr).length = (g.header addr).payloadLength := by
    refine Memory.length_slice _ _ _ ?_
    have hbytes : g.bytes.size = g.size := rfl
    rw [Item.Header.payloadLength]
    unfold Item.headerLength at *
    omega
  have hslice : g.slice addr Item.headerLength = (g.header addr).encode := by
    have hfull : (g.slice addr Item.headerLength).length = Item.headerLength :=
      Memory.length_slice _ _ _ (by have : g.bytes.size = g.size := rfl; omega)
    rw [header, Item.Header.encode_decode (Nat.le_of_eq hfull.symm),
      List.take_of_length_le (Nat.le_of_eq hfull)]
  rw [g.slice_add]
  constructor
  · intro hread
    by_cases htext : text = []
    · exact Or.inl htext
    · right
      have hkept : (g.header addr).payloadLength = text.length := by rw [← hshown, hread]
      have hsame : g.header addr = .decode (Item.encode id text) := by
        rw [hheader, hdecoded] at hkept ⊢
        obtain ⟨hl, hp⟩ :=
          Item.eq_of_payloadLength_and (List.length_pos_iff.mpr htext) hmax rfl rfl hkept
        rw [hl, hp]
      rw [hslice, hsame, ← hkept]
      exact congrArg _ hread
  · rintro (rfl | htakes)
    · refine List.length_eq_zero_iff.mp ?_
      rw [hshown, Item.Header.payloadLength]
      have hfour : Item.length ([] : List UInt8).length = Item.headerLength := rfl
      omega
    · rw [hslice] at htakes
      obtain ⟨hhead, htext⟩ := List.append_inj htakes rfl
      have hsame : g.header addr = .decode (Item.encode id text) := by
        have := Item.Header.decode_encode (g.header addr) []
        rw [hhead, Item.Header.decode_encode] at this
        exact this.symm
      rw [payload, hsame, Stored.payloadLength_item id hmax, htext]

/-- An item is read from the bytes that its header gives it. -/
theorem read_congr {g : Flash} {length : Nat} (h : f.slice addr length = g.slice addr length)
    (hhead : Item.headerLength ≤ length) (hlength : (g.header addr).length.toNat ≤ length) :
    f.header addr = g.header addr ∧ f.payload addr = g.payload addr := by
  have hslice : ∀ k n, k + n ≤ length → f.slice (addr + k) n = g.slice (addr + k) n := by
    intro k n hn
    rw [f.slice_slice addr length k n hn, h, ← g.slice_slice addr length k n hn]
  have hheader : f.header addr = g.header addr :=
    congrArg Item.Header.decode (hslice 0 Item.headerLength (by omega))
  refine ⟨hheader, ?_⟩
  rw [payload, payload, hheader]
  refine hslice _ _ ?_
  rw [Item.Header.payloadLength]
  omega

end Flash

namespace Store

/-! ## A line put among others -/

/-- What becomes of the lines of a volume when line `n` is written at `addr`: `i` stands for it in
the index, in the place of an older line `n` if there is one. -/
structure Overlaid (f' : Flash) (index' : List Nat) (es es' : List (Nat × Stored)) (addr : Nat)
    (i : Stored) (n : UInt16) : Prop where
  number : i.number? = some n
  indexes : Indexes ((addr, i) :: es') index'
  lines : ∀ b j m, j.number? = some m → ((b, j) ∈ es' ↔ (b, j) ∈ es ∧ m ≠ n)
  kept : ∀ b j m, (b, j) ∈ es' → j.number? = some m → f'.slice b j.length = j.bytes

variable {s : Store} {vol : List Layout}

/-- The place found for an item is free and holds no other. -/
theorem Coherent.place?_free (h : s.Coherent vol) {data : List UInt8} {p addr : Nat}
    (hplace : s.place? data = some (p, addr)) :
    addr + Item.length data.length ≤ s.flash.size ∧
      (s.flash.header addr).id = Item.freeId ∧
      ∀ b j, (b, j) ∈ entries s.pageSize vol →
        b + j.length ≤ addr ∨ addr + Item.length data.length ≤ b := by
  obtain ⟨-, L, hL, hbroken, rfl, hfits⟩ := h.place?_eq_some hplace
  have hstop := h.reads.stop_le hL
  have hend := s.flash.page_end_le (h.reads.lt_pageCount hL)
  have hmin := Stored.length_le data.length
  refine ⟨by omega, ?_, ?_⟩
  · have hhead : Item.headerLength ≤ L.tail.length := by omega
    have hdecode := Item.Header.decode_append (L.tail.take Item.headerLength)
      (L.tail.drop Item.headerLength) (Nat.le_of_eq (List.length_take_of_le hhead).symm)
    rw [List.take_append_drop] at hdecode
    rw [Flash.header, h.reads.slice_tail hL hhead, ← hdecode]
    by_contra hne
    have hused := Item.Kind.ofId_ne_free hne
    rw [Page.broken, decide_eq_true hhead, Bool.true_and] at hbroken
    have hkind : (Item.Header.decode L.tail).kind = .free := by simpa using hbroken
    exact hused hkind
  · intro b j hj
    have := h.reads.tail_apart hL hj
    omega

theorem Coherent.putLineChange?_overlaid (h : s.Coherent vol) {n : UInt16} {text : List UInt8}
    {c : Change} (hn : Item.Kind.ofId n = .line n) (hc : s.putLineChange? n text = some c) :
    ∃ p addr i es', s.place? text = some (p, addr) ∧
      Overlaid (s.flash.applyAll c.ops) c.index (entries s.pageSize vol) es' addr i n ∧
      (s.flash.applyAll c.ops).slice addr (Item.length text.length) =
        (s.flash.write addr (Item.encode n text)).slice addr (Item.length text.length) := by
  obtain ⟨-, -, -, hne⟩ := Item.Kind.ofId_eq_line.mp hn
  rw [Store.putLineChange?] at hc
  obtain ⟨⟨p, addr⟩, hplace, hchange⟩ := Option.map_eq_some_iff.mp hc
  obtain ⟨hmax, -⟩ := h.place?_eq_some hplace
  obtain ⟨-, -, hapart⟩ := h.place?_free hplace
  have hlen := Stored.length_encode n text
  let i : Stored := .ofPayload n text hne hmax
  have hnumber : i.number? = some n :=
    Stored.number?_eq_some_iff.mpr ((Stored.kind_ofPayload n text hne hmax).trans hn)
  have hnew : ∀ j, (addr, j) ∉ entries s.pageSize vol := by
    intro j hj
    have := hapart addr j hj
    have := j.length_pos
    have := i.length_pos
    have : i.length = Item.length text.length := Stored.length_ofPayload n text hne hmax
    omega
  dsimp only at hchange
  have happly : s.flash.apply (.write addr (Item.encode n text)) =
      s.flash.write addr (Item.encode n text) := rfl
  rw [happly] at hchange
  -- The item is written beside those of the volume.
  have hkept : ∀ b j, (b, j) ∈ entries s.pageSize vol →
      (s.flash.write addr (Item.encode n text)).slice b j.length = j.bytes := by
    intro b j hj
    rw [s.flash.slice_write_of_disjoint addr b _ _ (by rw [hlen]; exact hapart b j hj),
      h.reads.slice_entry hj]
  have hid : ∀ b j m, (b, j) ∈ entries s.pageSize vol → j.number? = some m →
      (s.flash.write addr (Item.encode n text)).itemId b = m := by
    intro b j m hj hm
    rw [Flash.itemId, Flash.header_of_slice (hkept b j hj), Stored.id_of_number? hm]
  have hfound := (h.indexes.lowerBound_spec hid n).2.2.2
  split at hchange
  · rename_i old hold
    subst hchange
    obtain ⟨hget, hidold⟩ := Option.filter_eq_some_iff.mp hold
    rw [decide_eq_true_eq] at hidold
    obtain ⟨j, m, hj, hm⟩ := (h.indexes.mem old).mp (List.mem_of_getElem? hget)
    have hmn : m = n := by rw [← hidold, hid old j m hj hm]
    rw [hmn] at hm
    have hfour := j.four_le_length
    -- Deleting the old copy touches neither the new one nor another item.
    refine ⟨p, addr, i, (entries s.pageSize vol).map (buryIf old), hplace, ⟨hnumber,
      h.indexes.set_lowerBound hid hnumber hnew hj hm, ?_, ?_⟩, ?_⟩
    · intro b k l hl
      constructor
      · intro hk
        obtain ⟨hb, hk, -⟩ := mem_map_buryIf.mp ⟨hk, hl⟩
        exact ⟨hk, fun hln => hb (h.indexes.address_unique hk hj (hln ▸ hl) hm)⟩
      · rintro ⟨hk, hln⟩
        refine (mem_map_buryIf.mpr ⟨?_, hk, hl⟩).1
        rintro rfl
        rw [h.reads.entry_unique hk hj, hm] at hl
        exact hln (Option.some.inj hl).symm
    · intro b k l hk hl
      obtain ⟨hb, hk, -⟩ := mem_map_buryIf.mp ⟨hk, hl⟩
      have := h.reads.entry_apart hk hj hb
      refine (Flash.slice_write_of_disjoint _ old b _ _ ?_).trans (hkept b k hk)
      rw [Item.Header.length_encode, Item.headerLength]
      omega
    · refine Flash.slice_write_of_disjoint _ old addr _ _ ?_
      have := hapart old j hj
      rw [Item.Header.length_encode, Item.headerLength]
      omega
  · rename_i hold
    subst hchange
    have hnone : ∀ b j, (b, j) ∈ entries s.pageSize vol → ¬ j.number? = some n := by
      intro b j hj hm
      obtain ⟨hb, hbid⟩ := hfound b j hj hm
      exact Option.filter_eq_none_iff.mp hold b hb (by simpa using hbid)
    refine ⟨p, addr, i, entries s.pageSize vol, hplace, ⟨hnumber,
      h.indexes.insert_lowerBound hid hnumber hnew hnone, ?_, fun b k _ hk _ => hkept b k hk⟩, rfl⟩
    intro b k l hl
    exact ⟨fun hk => ⟨hk, fun hln => hnone b k hk (hln ▸ hl)⟩, fun hk => hk.1⟩

/-- Flash shows the lines under their numbers, the new one among them. -/
theorem Overlaid.itemId {f' : Flash} {index' : List Nat} {es es' : List (Nat × Stored)}
    {addr : Nat} {i : Stored} {n : UInt16} (h : Overlaid f' index' es es' addr i n)
    (haddr : f'.itemId addr = n) (b : Nat) (j : Stored) (m : UInt16)
    (hj : (b, j) ∈ (addr, i) :: es') (hm : j.number? = some m) : f'.itemId b = m := by
  rcases List.mem_cons.mp hj with he | hj
  · cases he
    rw [haddr]
    exact Option.some.inj (h.number.symm.trans hm)
  · rw [Flash.itemId, Flash.header_of_slice (h.kept b j m hj hm), Stored.id_of_number? hm]

/-- The other lines keep their texts. -/
theorem Overlaid.lineText? {s' : Store} {es' : List (Nat × Stored)} {addr : Nat} {i : Stored}
    {n : UInt16} (h : s.Coherent vol)
    (hover : Overlaid s'.flash s'.index (entries s.pageSize vol) es' addr i n)
    (haddr : s'.flash.itemId addr = n) {m : UInt16} (hm : m ≠ n) :
    s'.lineText? m = s.lineText? m := by
  have hids := hover.itemId haddr
  have hascending : s'.Ascending := hover.indexes.ascending hids
  refine Option.ext fun t => ?_
  rw [hascending.lineText?_eq_some_iff, h.sorted.lineText?_eq_some_iff]
  constructor
  · rintro ⟨a, ha, hid, htext⟩
    obtain ⟨j, l, hj, hl⟩ := (hover.indexes.mem a).mp ha
    have hlm : l = m := (hids a j l hj hl).symm.trans hid
    rw [hlm] at hl
    rcases List.mem_cons.mp hj with he | hj
    · cases he
      exact absurd (Option.some.inj (hl.symm.trans hover.number)) hm
    · have hold := ((hover.lines a j m hl).mp hj).1
      refine ⟨a, (h.indexes.mem a).mpr ⟨j, m, hold, hl⟩, h.itemId_of_number? hold hl, ?_⟩
      rw [h.reads.payload_entry hold, ← htext, Flash.payload_of_slice (hover.kept a j m hj hl)]
  · rintro ⟨a, ha, hid, htext⟩
    obtain ⟨j, l, hj, hl⟩ := (h.indexes.mem a).mp ha
    have hlm : l = m := (h.itemId_of_number? hj hl).symm.trans hid
    rw [hlm] at hl
    have hnew := (hover.lines a j m hl).mpr ⟨hj, hm⟩
    have hmem := List.mem_cons_of_mem (addr, i) hnew
    refine ⟨a, (hover.indexes.mem a).mpr ⟨j, m, hmem, hl⟩, hids a j m hmem hl, ?_⟩
    rw [Flash.payload_of_slice (hover.kept a j m hnew hl), ← h.reads.payload_entry hj, htext]

/-- Erased space takes any item. -/
theorem Sound.takes (h : s.Sound vol) {text : List UInt8} {p addr : Nat}
    (hplace : s.place? text = some (p, addr)) {bytes : List UInt8}
    (hbytes : bytes.length ≤ Item.length text.length) : s.flash.Takes addr bytes := by
  obtain ⟨-, L, hL, hbroken, rfl, hfits⟩ := h.place?_eq_some hplace
  have htail := h.clean L (List.mem_of_getElem? hL) hbroken
  rw [Flash.Takes, h.reads.slice_tail hL (by omega), htail, List.take_replicate,
    Nat.min_eq_left (by omega), Flash.zipWith_and_erased]

/-! ## A line put on any image -/

/-- A line that is put into the store mounted from any image is found under its number, and the other
lines keep their texts. It reads back as given if and only if its place still had every bit of it;
free space that is erased always has. -/
theorem line_put_on_image (image : Flash) (pageSize : Nat) (hsize : Page.ageLength ≤ pageSize)
    (n : UInt16) (hn : 1 ≤ n ∧ n ≤ 0xFFFD) (text : List UInt8) (t : Store)
    (hput : (mount image pageSize).putLine? n text = some t) :
    let s := mount image pageSize
    ∃ p addr pos, s.place? text = some (p, addr) ∧ t.find? n = some pos ∧
      (t.line? pos = some (n, text) ↔ text = [] ∨ s.flash.Takes addr
        ((Item.encode n text).take (Item.headerLength + text.length))) ∧
      (CleanTailed image pageSize → t.line? pos = some (n, text)) ∧
      ∀ m, m ≠ n → t.lineText? m = s.lineText? m := by
  intro s
  obtain ⟨vol, hreads⟩ := exists_volume image pageSize hsize
  obtain ⟨dropped, hrecovers⟩ := Reads.exists_recover
    (s := { flash := image, pageSize, pages := [], index := [], lastAge := 0 }) hreads
  have hcoherent : s.Coherent (recovered pageSize vol dropped) := hrecovers.coherent
  obtain ⟨c, hc, rfl⟩ := Option.map_eq_some_iff.mp hput
  obtain ⟨p, addr, i, es', hplace, hover, hslice⟩ :=
    hcoherent.putLineChange?_overlaid (ofId_eq_line hn) hc
  obtain ⟨hmax, -⟩ := hcoherent.place?_eq_some hplace
  obtain ⟨hin, hfree, -⟩ := hcoherent.place?_free hplace
  have hmin := Stored.length_le text.length
  obtain ⟨hheader, hpayload⟩ := Flash.read_congr hslice (by omega)
    (Flash.length_write_item hfree hin)
  have hid : (s.commit c).flash.itemId addr = n :=
    (congrArg Item.Header.id hheader).trans (Flash.itemId_write_item hfree hin)
  have hascending : (s.commit c).Ascending := hover.indexes.ascending (hover.itemId hid)
  have hindexed : addr ∈ (s.commit c).index :=
    (hover.indexes.mem addr).mpr ⟨i, n, List.mem_cons_self, hover.number⟩
  obtain ⟨pos, hfind, hline⟩ := hascending.exists_find? hindexed hid
  have hiff : (s.commit c).line? pos = some (n, text) ↔ text = [] ∨ s.flash.Takes addr
      ((Item.encode n text).take (Item.headerLength + text.length)) := by
    rw [hline, Option.some.injEq, Prod.mk.injEq, eq_self, true_and,
      ← Flash.payload_write_item_iff hfree hmax hin]
    exact Eq.congr_left hpayload
  refine ⟨p, addr, pos, hplace, hfind, hiff, ?_, fun m hm => hover.lineText? hcoherent hid hm⟩
  intro hclean
  have hsound : s.Sound (recovered pageSize vol dropped) :=
    ⟨hcoherent, isClean_recovered (hclean.isClean hreads) dropped⟩
  refine hiff.mpr (Or.inr (hsound.takes hplace ?_))
  rw [List.length_take, Stored.length_encode]
  omega

/-- A page with two lines and, behind the free marker, a byte that is not erased but has every bit of
the new text of line 20. -/
theorem line_put_on_image_leftover :
    let image : Flash := ⟨#[1, 0, 0, 0, 10, 0, 8, 3, 65, 255, 255, 255, 20, 0, 8, 3,
      66, 255, 255, 255, 255, 255, 255, 255, 71, 255, 255, 255, 255, 255, 255, 255]⟩
    let s := mount image 32
    Page.ageLength ≤ 32 ∧ (1 ≤ (20 : UInt16) ∧ (20 : UInt16) ≤ 0xFFFD) ∧
      ¬ CleanTailed image 32 ∧ s.lineText? 10 = some [65] ∧ s.lineText? 20 = some [66] ∧
      s.flash.Takes 20 ((Item.encode 20 [67]).take 5) ∧
      ∃ t, s.putLine? 20 [67] = some t ∧
        ∃ p addr pos, s.place? [67] = some (p, addr) ∧ t.find? 20 = some pos ∧
          (t.line? pos = some (20, [67]) ↔ ([67] : List UInt8) = [] ∨ s.flash.Takes addr
            ((Item.encode 20 [67]).take (Item.headerLength + [67].length))) ∧
          (CleanTailed image 32 → t.line? pos = some (20, [67])) ∧
          ∀ m, m ≠ 20 → t.lineText? m = s.lineText? m := by
  intro image s
  have hsome : (s.putLine? 20 [67]).isSome = true := by decide +kernel
  obtain ⟨t, ht⟩ := Option.isSome_iff_exists.mp hsome
  refine ⟨by decide, by decide, by decide +kernel, by decide +kernel, by decide +kernel,
    by decide +kernel, t, ht, ?_⟩
  exact line_put_on_image image 32 (by decide) 20 (by decide) [67] t ht

/-- Flash that was used with pages of 64 bytes and is mounted with pages of 32: the second page starts
in the middle of a record, whose data looks like a free page but has cleared bits. Line 10 goes there
and is found, with another text than the one it was given. -/
theorem line_put_on_image_lost :
    let data : List UInt8 := [0, 0, 0, 0, 1, 0, 0, 0, 2, 0, 0, 0, 3, 0, 0, 0, 4, 0, 0, 0, 1, 0, 0, 0,
      255, 255, 255, 255, 0, 0, 0, 0]
    let image := (grown 64 64 [.putRecord 5 data]).flash
    (grown 64 64 [.putRecord 5 data]).record? 5 = some data ∧
      ∃ t, (mount image 32).putLine? 10 [65] = some t ∧ t.find? 10 = some 0 ∧
        t.line? 0 = some (10, [0]) := by
  intro data image
  have hsome : ((mount image 32).putLine? 10 [65]).any (fun t =>
      decide (t.find? 10 = some 0 ∧ t.line? 0 = some (10, [0]))) = true := by decide +kernel
  obtain ⟨t, ht, hfound⟩ := (Option.any_eq_true _ _).mp hsome
  exact ⟨by decide +kernel, t, ht, of_decide_eq_true hfound⟩

end Store

end FlashBasic
