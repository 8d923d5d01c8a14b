import FlashBasic.Line
import Mathlib.Data.List.Induction
import Mathlib.Data.List.Infix
import Mathlib.Data.List.Nodup
import Mathlib.Tactic.Common

/-!
The words of the language.
-/

namespace FlashBasic

set_option autoImplicit false

theorem Token.eq_byte_of_ofByte? {b : UInt8} {t : Token} (h : ofByte? b = some t) : b = t.byte := by
  unfold ofByte? at h
  split at h
  · simp at h
  next hle =>
    obtain ⟨hlt, rfl⟩ := List.getElem?_eq_some_iff.mp h
    have hindex : all.idxOf (all.get ⟨(b - base).toNat, hlt⟩) = (b - base).toNat :=
      List.Nodup.idxOf_getElem (by decide) _ hlt
    unfold byte
    rw [List.get_eq_getElem] at hindex
    rw [hindex]
    simp [UInt8.add_comm base]

theorem Token.byte_injective : Function.Injective Token.byte := by
  intro t u h
  have htoken := congrArg ofByte? h
  rw [ofByte?_byte, ofByte?_byte] at htoken
  exact Option.some.inj htoken

theorem Token.mem_all (t : Token) : t ∈ Token.all := by
  have hbyte := ofByte?_byte t
  unfold ofByte? at hbyte
  split at hbyte
  · cases hbyte
  · exact List.mem_of_getElem? hbyte

namespace Lexer

open Ascii (newline isBlank isQuote isUpper isLower isDigit)

/-! ## Bytes -/

/-- Neither a blank nor a quote, and not changed when a line is prepared. -/
def solid (b : UInt8) : Bool :=
  b < 0x80 && !isBlank b && !isQuote b && b != newline && b != Ascii.code '\r' && !isLower b

theorem solid_facts {b : UInt8} (h : solid b = true) : b < 0x80 ∧ isBlank b = false ∧
    isQuote b = false ∧ b ≠ newline ∧ b ≠ Ascii.code '\r' ∧ isLower b = false := by
  simpa [solid, and_assoc] using h

theorem forall_byte {P : UInt8 → Prop} (h : ∀ n : Fin 256, P (.ofNat n)) (b : UInt8) : P b := by
  have hb := h ⟨b.toNat, b.toNat_lt⟩
  rwa [UInt8.ofNat_toNat] at hb

-- one check of all bytes, since each is a run over the 256 of them
theorem byte_facts : ∀ b : UInt8,
    (isQuote b = true → b < 0x80 ∧ b ≠ newline ∧ b ≠ Ascii.code '\r' ∧ isLower b = false ∧
      Token.ofByte? b = none) ∧
    (isUpper b = true → solid b = true ∧ Listing.separates b = true) ∧
    (isBlank b = true → isQuote b = false ∧ isUpper b = false ∧ isDigit b = false) ∧
    (isDigit b = true → solid b = true ∧ isUpper b = false ∧ b ≠ Ascii.code 'X') ∧
    (¬ b < 0x80 → isUpper b = false ∧ isDigit b = false ∧ isBlank b = false ∧ isQuote b = false) :=
  forall_byte (by decide +kernel)

section

variable {b : UInt8}

theorem facts_of_isQuote (h : isQuote b = true) : b < 0x80 ∧ b ≠ newline ∧ b ≠ Ascii.code '\r' ∧
    isLower b = false ∧ Token.ofByte? b = none :=
  (byte_facts b).1 h

theorem solid_of_isUpper (h : isUpper b = true) : solid b = true :=
  ((byte_facts b).2.1 h).1

theorem separates_of_isUpper (h : isUpper b = true) : Listing.separates b = true :=
  ((byte_facts b).2.1 h).2

theorem not_isQuote_of_isUpper (h : isUpper b = true) : isQuote b = false :=
  (solid_facts (solid_of_isUpper h)).2.2.1

theorem facts_of_isBlank (h : isBlank b = true) :
    isQuote b = false ∧ isUpper b = false ∧ isDigit b = false :=
  (byte_facts b).2.2.1 h

theorem facts_of_isDigit (h : isDigit b = true) :
    solid b = true ∧ isUpper b = false ∧ b ≠ Ascii.code 'X' :=
  (byte_facts b).2.2.2.1 h

theorem facts_of_high (h : ¬ b < 0x80) :
    isUpper b = false ∧ isDigit b = false ∧ isBlank b = false ∧ isQuote b = false :=
  (byte_facts b).2.2.2.2 h

end

/-! ## The table -/

namespace Spelling

def ofToken (t : Token) : Spelling := ⟨Ascii.bytes t.word, [t.byte]⟩

@[simp] theorem word_ofToken (t : Token) : (ofToken t).word = Ascii.bytes t.word := rfl

/-- The word is set off from the text around it neither when it is typed nor when it is listed. -/
def isSymbol (s : Spelling) : Bool := !s.word.any Ascii.isAlpha

end Spelling

/-- Words are solid, and only that of a hexadecimal number starts with a digit. -/
theorem spelling_facts : ∀ s ∈ spellings, s.word ≠ [] ∧ s.word.all solid = true ∧ s.coded ≠ [] ∧
    s.coded.all (0x80 ≤ ·) = true ∧ s.coded.length ≤ s.word.length ∧
    (s.isSymbol = true → ∀ c ∈ s.word.getLast?, Listing.separates c = false) ∧
    (s.word.head?.any isDigit = true → s.word.tail.head? = some (Ascii.code 'X')) := by
  decide +kernel

theorem mem_spellings {s : Spelling} (hs : s ∈ spellings) :
    (∃ t : Token, t ≠ .constant ∧ s = .ofToken t) ∨
      ∃ k : Fin namedValues.length, s = ⟨Ascii.bytes (namedValues.get k).1,
        [Token.constant.byte, 0x80 ||| k.val.toUInt8]⟩ := by
  rw [spellings, List.mem_append] at hs
  obtain hs | hs := hs
  · obtain ⟨t, ht, rfl⟩ := List.mem_map.mp hs
    exact .inl ⟨t, by simpa using (List.mem_filter.mp ht).2, rfl⟩
  · obtain ⟨k, hk, rfl⟩ := List.mem_mapIdx.mp hs
    exact .inr ⟨⟨k, hk⟩, rfl⟩

theorem constant_facts : ∀ k : Fin namedValues.length,
    Listing.constantName (0x80 ||| k.val.toUInt8) = (namedValues.get k).1 ∧
    (Spelling.mk (Ascii.bytes (namedValues.get k).1)
      [Token.constant.byte, 0x80 ||| k.val.toUInt8]).isSymbol = false ∧
    (0x80 ||| k.val.toUInt8).toNat = 0x80 + k.val := by
  decide +kernel

/-- The bytes for a word do not start those for another. -/
theorem eq_of_coded_starts {s x : Spelling} (hs : s ∈ spellings) (hx : x ∈ spellings)
    (h : s.coded <+: x.coded) : s = x := by
  obtain ⟨t, ht, rfl⟩ | ⟨k, rfl⟩ := mem_spellings hs
  · obtain ⟨u, -, rfl⟩ | ⟨j, rfl⟩ := mem_spellings hx
    · rw [Token.byte_injective (List.cons_prefix_cons.mp h).1]
    · exact absurd (Token.byte_injective (List.cons_prefix_cons.mp h).1) ht
  · obtain ⟨u, -, rfl⟩ | ⟨j, rfl⟩ := mem_spellings hx
    · have hlength : 2 ≤ 1 := h.length_le
      omega
    · obtain ⟨-, hlast⟩ := List.cons_prefix_cons.mp h
      have hbyte := congrArg UInt8.toNat (List.cons_prefix_cons.mp hlast).1
      rw [(constant_facts k).2.2, (constant_facts j).2.2] at hbyte
      have hsame : k = j := Fin.ext (Nat.add_left_cancel hbyte)
      rw [hsame]

theorem words_check : (spellings.all fun s => spellings.all fun x =>
    !s.word.isPrefixOf x.word || s == x || (s.isSymbol && x.isSymbol && spellings.any fun y =>
      y.isSymbol && y.word.length == 1 && x.word == s.word ++ y.word)) = true := by
  decide +kernel

/-- A word that starts another is a symbol, and one more symbol makes it the other. -/
theorem symbols_of_word_starts {s x : Spelling} (hs : s ∈ spellings) (hx : x ∈ spellings)
    (h : s.word <+: x.word) (hne : s ≠ x) : s.isSymbol = true ∧ x.isSymbol = true ∧
      ∃ y ∈ spellings, y.isSymbol = true ∧ y.word.length = 1 ∧ x.word = s.word ++ y.word := by
  have hcheck := List.all_eq_true.mp (List.all_eq_true.mp words_check s hs) x hx
  have hstarts : s.word.isPrefixOf x.word = true := List.isPrefixOf_iff_prefix.mpr h
  have hdiffers : (s == x) = false := beq_false_of_ne hne
  simpa [hstarts, hdiffers, and_assoc] using hcheck

theorem eq_of_word_eq {s x : Spelling} (hs : s ∈ spellings) (hx : x ∈ spellings)
    (h : s.word = x.word) : s = x := by
  by_contra hne
  obtain ⟨-, -, y, -, -, hlength, hword⟩ :=
    symbols_of_word_starts hs hx (h ▸ List.prefix_refl _) hne
  have hsame := congrArg List.length hword
  rw [← h, List.length_append] at hsame
  omega

/-! ## The longest word -/

theorem mem_insertByLength {x s : Spelling} {sorted : List Spelling} :
    x ∈ insertByLength s sorted ↔ x = s ∨ x ∈ sorted := by
  induction sorted with
  | nil => simp [insertByLength]
  | cons y rest ih =>
    rw [insertByLength]
    split
    · rw [List.mem_cons]
    · simp only [List.mem_cons, ih]
      tauto

/-- No spelling comes before a longer one. -/
abbrev LongestFirst (words : List Spelling) : Prop :=
  words.Pairwise fun s x => x.word.length ≤ s.word.length

theorem LongestFirst.insertByLength {sorted : List Spelling} (h : LongestFirst sorted) (s : Spelling) :
    LongestFirst (insertByLength s sorted) := by
  induction sorted with
  | nil => exact List.pairwise_singleton _ _
  | cons y rest ih =>
    obtain ⟨hy, hrest⟩ := List.pairwise_cons.mp h
    rw [Lexer.insertByLength]
    split
    next hlt =>
      refine List.pairwise_cons.mpr ⟨fun x hx => ?_, h⟩
      obtain rfl | hx := List.mem_cons.mp hx
      · exact hlt.le
      · exact (hy x hx).trans hlt.le
    next hle =>
      refine List.pairwise_cons.mpr ⟨fun x hx => ?_, ih hrest⟩
      obtain rfl | hx := mem_insertByLength.mp hx
      · exact not_lt.mp hle
      · exact hy x hx

/-- Inserting one spelling after the other keeps all of them, longest first. -/
theorem foldl_insertByLength (words : List Spelling) :
    LongestFirst (words.foldl (fun sorted s => insertByLength s sorted) []) ∧
      ∀ x, x ∈ words.foldl (fun sorted s => insertByLength s sorted) [] ↔ x ∈ words := by
  induction words using List.reverseRecOn with
  | nil => exact ⟨.nil, fun _ => Iff.rfl⟩
  | append_singleton words s ih =>
    rw [List.foldl_append, List.foldl_cons, List.foldl_nil]
    refine ⟨ih.1.insertByLength s, fun x => ?_⟩
    rw [mem_insertByLength, ih.2, List.mem_append, List.mem_singleton, or_comm]

theorem longestFirst_group (k : Nat) : LongestFirst (group k) :=
  (foldl_insertByLength _).1

theorem mem_group {k : Nat} {s : Spelling} :
    s ∈ group k ↔ s ∈ spellings ∧ s.word.head?.map groupOf = some k := by
  rw [group, (foldl_insertByLength _).2, List.mem_filter, beq_iff_eq]

/-- All the words that a text may start with are in one group. -/
theorem mem_group_of_starts {b : UInt8} {rest : List UInt8} {s : Spelling} (hs : s ∈ spellings)
    (hword : s.word <+: b :: rest) : s ∈ group (groupOf b) := by
  obtain ⟨c, tail, hc⟩ := List.exists_cons_of_ne_nil (spelling_facts s hs).1
  rw [hc, List.cons_prefix_cons] at hword
  rw [mem_group, hc, hword.1]
  exact ⟨hs, rfl⟩

theorem longest?_cons (b : UInt8) (rest : List UInt8) :
    longest? (b :: rest) = (group (groupOf b)).find? (·.word.isPrefixOf (b :: rest)) := by
  have hlt : groupOf b < groupCount := Nat.mod_lt _ (by decide)
  have hget : groups.getD (groupOf b) [] = group (groupOf b) := by simp [groups, hlt]
  rw [longest?, hget]

theorem longest?_nil : longest? [] = none := rfl

theorem longest?_eq_none {text : List UInt8} :
    longest? text = none ↔ ∀ x ∈ spellings, ¬ x.word <+: text := by
  cases text with
  | nil =>
    exact ⟨fun _ s hs hword => (spelling_facts s hs).1 (List.prefix_nil.mp hword), fun _ => rfl⟩
  | cons b rest =>
    simp only [longest?_cons, List.find?_eq_none, List.isPrefixOf_iff_prefix]
    exact ⟨fun h x hx hword => h x (mem_group_of_starts hx hword) hword,
      fun h x hx => h x (mem_group.mp hx).1⟩

/-- The first spelling of its group that fits is the longest of all that do. -/
theorem longest_of_find {b : UInt8} {rest : List UInt8} {s : Spelling}
    (h : (group (groupOf b)).find? (·.word.isPrefixOf (b :: rest)) = some s) :
    s ∈ spellings ∧ s.word <+: b :: rest ∧
      ∀ x ∈ spellings, x.word <+: b :: rest → x.word.length ≤ s.word.length := by
  obtain ⟨hword, longer, shorter, hgroup, hlonger⟩ := List.find?_eq_some_iff_append.mp h
  refine ⟨(mem_group.mp (List.mem_of_find?_eq_some h)).1, List.isPrefixOf_iff_prefix.mp hword,
    fun x hx hxword => ?_⟩
  have hsorted := longestFirst_group (groupOf b)
  have hmem := mem_group_of_starts hx hxword
  rw [hgroup] at hsorted hmem
  obtain hmem | hmem := List.mem_append.mp hmem
  · have hnot := hlonger x hmem
    rw [List.isPrefixOf_iff_prefix.mpr hxword] at hnot
    cases hnot
  · obtain rfl | hmem := List.mem_cons.mp hmem
    · exact le_rfl
    · exact (List.pairwise_cons.mp (List.pairwise_append.mp hsorted).2.1).1 x hmem

theorem longest?_eq_some {text : List UInt8} {s : Spelling} :
    longest? text = some s ↔ s ∈ spellings ∧ s.word <+: text ∧
      ∀ x ∈ spellings, x.word <+: text → x.word.length ≤ s.word.length := by
  have hspec {t : Spelling} (h : longest? text = some t) : t ∈ spellings ∧ t.word <+: text ∧
      ∀ x ∈ spellings, x.word <+: text → x.word.length ≤ t.word.length := by
    cases text with
    | nil => cases h
    | cons b rest => exact longest_of_find (longest?_cons b rest ▸ h)
  refine ⟨hspec, ?_⟩
  rintro ⟨hs, hstext, hsmax⟩
  cases h : longest? text with
  | none => exact absurd hstext (longest?_eq_none.mp h s hs)
  | some t =>
    obtain ⟨ht, htext, hmax⟩ := hspec h
    have hlength : s.word.length = t.word.length :=
      le_antisymm (hmax s hs hstext) (hsmax t ht htext)
    have hword : s.word = t.word :=
      (List.prefix_of_prefix_length_le hstext htext hlength.le).eq_of_length hlength
    exact congrArg some (eq_of_word_eq ht hs hword.symm)

/-- A word starts with a solid byte. -/
theorem solid_of_longest? {b : UInt8} {rest : List UInt8} {s : Spelling}
    (h : longest? (b :: rest) = some s) : solid b = true := by
  obtain ⟨hs, hword, -⟩ := longest?_eq_some.mp h
  obtain ⟨hne, hsolid, -⟩ := spelling_facts s hs
  obtain ⟨c, tail, hc⟩ := List.exists_cons_of_ne_nil hne
  rw [hc, List.cons_prefix_cons] at hword
  rw [hc, List.all_cons, hword.1, Bool.and_eq_true] at hsolid
  exact hsolid.1

end Lexer

end FlashBasic
