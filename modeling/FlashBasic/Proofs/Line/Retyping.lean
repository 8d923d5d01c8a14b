import FlashBasic.Proofs.Line.Typed
import FlashBasic.Proofs.Text
import FlashBasic.Proofs.Token.Relisting

/-!
Typing a listed line again. What is stored is the line that was listed, as long as the listing does
not run two parts of it together (`Line.parse_render_iff`).
-/

namespace FlashBasic

set_option autoImplicit false

open Ascii (newline isBlank isDigit)

namespace Lexer

/-! ## Before the text of a line -/

/-- Only a hexadecimal number starts with a digit. -/
theorem longest?_digit {b : UInt8} {rest : List UInt8} (hb : isDigit b = true)
    (hrest : ∀ a ∈ rest.head?, a ≠ Ascii.code 'X') : longest? (b :: rest) = none := by
  refine longest?_eq_none.mpr fun s hs hword => ?_
  have hhex := (spelling_facts s hs).2.2.2.2.2.2
  obtain ⟨c, tail, hc⟩ := List.exists_cons_of_ne_nil (spelling_facts s hs).1
  rw [hc, List.cons_prefix_cons] at hword
  obtain ⟨rfl, more, rfl⟩ := hword
  obtain ⟨tail, rfl⟩ := List.head?_eq_some_iff.mp (by simpa [hc, hb] using hhex)
  exact hrest _ rfl rfl

theorem not_isQuote_of_isDigit {b : UInt8} (h : isDigit b = true) : Ascii.isQuote b = false :=
  (solid_facts (facts_of_isDigit h).1).2.2.1

theorem code_digit {b : UInt8} {rest : List UInt8} (hb : isDigit b = true)
    (hnone : longest? (b :: rest) = none) : code (b :: rest) = b :: code rest := by
  obtain ⟨hsolid, hupper, -⟩ := facts_of_isDigit hb
  obtain ⟨-, hblank, hquote, -⟩ := solid_facts hsolid
  exact code_other hquote hupper hblank hnone

theorem code_digits {digits rest : List UInt8} (hdigits : ∀ b ∈ digits, isDigit b = true)
    (hrest : ∀ a ∈ rest.head?, a ≠ Ascii.code 'X') : code (digits ++ rest) = digits ++ code rest := by
  induction digits with
  | nil => rfl
  | cons b digits ih =>
    obtain ⟨hb, hdigits⟩ := List.forall_mem_cons.mp hdigits
    have hnext : ∀ a ∈ (digits ++ rest).head?, a ≠ Ascii.code 'X' := by
      cases digits with
      | nil => exact hrest
      | cons c digits => simpa using (facts_of_isDigit (hdigits c List.mem_cons_self)).2.2
    rw [List.cons_append, code_digit hb (longest?_digit hb hnext), ih hdigits, List.cons_append]

theorem tokens_not_digit {text : List UInt8} (h : Folded none text)
    (htext : (longest? text).isSome = true ∨ ∀ a ∈ text.head?, isDigit a = false) :
    ∀ a ∈ (code text).head?, isDigit a = false := by
  obtain hsome | htext := htext
  · obtain ⟨s, hs⟩ := Option.isSome_iff_exists.mp hsome
    obtain ⟨a, ha, hhigh⟩ := high_of_coded (longest?_eq_some.mp hs).1 (List.prefix_append _ _)
    rw [code_word hs, Option.mem_def.mp ha]
    simpa using (facts_of_high hhigh).2.1
  · exact (cut_code h).tokens_not
      (fun b => ⟨fun hb => (facts_of_high hb).2.1, fun hb => (facts_of_isBlank hb).2.2⟩) htext

/-- Digits before the text of a line are kept. -/
theorem exists_digits {text : List UInt8} (h : Folded none text) :
    ∃ digits rest, text = digits ++ rest ∧ (∀ b ∈ digits, isDigit b = true) ∧
      code text = digits ++ code rest ∧ ∀ a ∈ (code rest).head?, isDigit a = false := by
  induction text with
  | nil => exact ⟨[], [], rfl, by simp, by simp, by simp⟩
  | cons b text ih =>
    by_cases hb : isDigit b = true ∧ longest? (b :: text) = none
    · obtain ⟨hdigit, hnone⟩ := hb
      obtain ⟨digits, rest, rfl, hdigits, hcode, hrest⟩ :=
        ih ((folded_plain (not_isQuote_of_isDigit hdigit)).mp h).2
      refine ⟨b :: digits, rest, rfl, List.forall_mem_cons.mpr ⟨hdigit, hdigits⟩, ?_, hrest⟩
      rw [code_digit hdigit hnone, hcode, List.cons_append]
    · refine ⟨[], b :: text, rfl, by simp, rfl, tokens_not_digit h ?_⟩
      cases hlongest : longest? (b :: text) with
      | none => exact .inr (by simpa [hlongest] using hb)
      | some s => exact .inl rfl

theorem head_append_newline {tokens : List UInt8} {p : UInt8 → Bool} (hp : p newline = false)
    (h : ∀ a ∈ tokens.head?, p a = false) : ∀ a ∈ (tokens ++ [newline]).head?, p a = false := by
  cases tokens with
  | nil => simpa using hp
  | cons a tokens => simpa using h

/-- Blanks before the text of a line are not kept. -/
theorem dropWhile_isBlank_code {text : List UInt8} (h : Folded none text) :
    (code text ++ [newline]).dropWhile isBlank = code (text.dropWhile isBlank) ++ [newline] := by
  have hfolded := folded_dropWhile (fun b hb => (facts_of_isBlank hb).1) h
  have hhead := (cut_code hfolded).tokens_not
    (fun b => ⟨fun hb => (facts_of_high hb).2.2.1, fun hb => hb⟩) (head_dropWhile isBlank text)
  have hdrop := dropWhile_of_head (head_append_newline rfl hhead)
  cases text with
  | nil => exact hdrop
  | cons b text =>
    by_cases hb : isBlank b = true
    · rw [List.dropWhile_cons_of_pos hb] at hdrop ⊢
      rw [code_blank hb]
      split
      next => exact hdrop
      next => rw [List.cons_append, List.dropWhile_cons_of_pos rfl, hdrop]
    · rwa [List.dropWhile_cons_of_neg hb] at hdrop ⊢

theorem Folded.plain {quote : Option UInt8} {text : List UInt8} (h : Folded quote text) :
    ∀ b ∈ text, b < 0x80 ∧ b ≠ newline := by
  induction text generalizing quote with
  | nil => simp
  | cons b text ih =>
    obtain ⟨hlow, hnewline, -, -, h⟩ := h
    exact List.forall_mem_cons.mpr ⟨⟨hlow, hnewline⟩, ih h⟩

theorem tokenize_prepared {text : List UInt8} (h : Folded none text) :
    tokenize (text ++ [newline]) = code (text.dropWhile isBlank) ++ [newline] := by
  have htake : (text ++ [newline]).takeWhile (· ≠ newline) = text := by
    rw [List.takeWhile_append_of_pos fun b hb => by simpa using (h.plain b hb).2]
    simp
  rw [tokenize_eq, htake]

end Lexer

namespace Line

open Lexer (Folded code listed)

variable {typed : String} {l : Line} {rest : List UInt8}

theorem text_of_parse (hascii : ∀ b ∈ Ascii.bytes typed, b < 0x80) (h : parse typed = .ok l) :
    ∃ rest, Folded none rest ∧ (∀ a ∈ rest.head?, isBlank a = false) ∧
      l.text = code rest ++ [newline] := by
  obtain ⟨tokens, htokens, -, rfl⟩ := eq_of_parse_eq_ok h
  have hblank := fun b (hb : isBlank b = true) => (Lexer.facts_of_isBlank hb).1
  have hfolded := Lexer.folded_foldCase hascii none
  have hprepared := Lexer.folded_dropWhile hblank hfolded
  obtain ⟨digits, rest, htext, hdigits, hcode, hrest⟩ := Lexer.exists_digits hprepared
  rw [Lexer.tokenize_prepared hfolded, hcode, List.append_assoc] at htokens
  have hafter : (Cursor.lineNumber tokens).2 = code rest ++ [newline] := by
    rw [htokens, Cursor.lineNumber]
    dsimp only
    exact dropWhile_run hdigits (Lexer.head_append_newline rfl hrest)
  have hfolded : Folded none rest := by
    rw [htext] at hprepared
    exact ((Lexer.folded_plain_append
      fun b hb => Lexer.not_isQuote_of_isDigit (hdigits b hb)).mp hprepared).2
  refine ⟨rest.dropWhile isBlank, Lexer.folded_dropWhile hblank hfolded, head_dropWhile isBlank rest, ?_⟩
  dsimp only
  rw [hafter, Cursor.skipBlanks, Lexer.dropWhile_isBlank_code hfolded]

theorem bytes_render (hrest : Folded none rest) (htext : l.text = code rest ++ [newline])
    (hnumber : l.number ≠ 0) : Ascii.bytes l.render =
      Cursor.decimal l.number.toNat ++ Ascii.code ' ' :: listed (Ascii.code ' ') (code rest) := by
  have hdirect : l.isDirect = false := by simpa [isDirect] using hnumber
  have hlisted : Listing.bytes l.text = listed (Ascii.code ' ') (code rest) := by
    rw [htext, Listing.bytes, listed]
  have hlow := ((Lexer.cut_code hrest).folded_listed (Ascii.code ' ')).plain
  have hspace : Ascii.bytes " " = [Ascii.code ' '] := by decide
  rw [render, hdirect, if_neg (by decide), Ascii.bytes_append, Ascii.bytes_append,
    Cursor.bytes_toString, listing, hlisted, Utf8.bytes_decodeLossy fun b hb => (hlow b hb).1, hspace,
    List.append_assoc, List.singleton_append]

theorem parse_render (hrest : Folded none rest) (hhead : ∀ a ∈ rest.head?, isBlank a = false)
    (htext : l.text = code rest ++ [newline]) (hnumber : l.number ≠ 0) (hle : l.number ≤ 0xFFFD)
    (hlength : (Ascii.bytes l.render).length ≤ 255) :
    parse l.render =
      .ok { l with text := code (listed (Ascii.code ' ') (code rest)) ++ [newline] } := by
  have hcut := Lexer.cut_code hrest
  have hlisted := Lexer.folded_space (hcut.folded_listed (Ascii.code ' '))
  have hnotblank := hcut.listed_not_blank hhead (.inl (rfl : Listing.separates (Ascii.code ' ') = false))
  have hbytes := bytes_render hrest htext hnumber
  have hdigits : ∀ b ∈ Cursor.decimal l.number.toNat, Lexer.solid b = true := fun b hb =>
    (Lexer.facts_of_isDigit (Cursor.isDigit_of_mem_decimal b hb)).1
  have hfolded : Folded none (Ascii.bytes l.render) := by
    rw [hbytes]
    exact Lexer.folded_solid hdigits hlisted
  have hprepare : Lexer.prepare l.render = .ok (Ascii.bytes l.render ++ [newline]) := by
    rw [Lexer.prepare, Lexer.foldCase_of_folded hfolded]
    exact if_pos hlength
  have hstart : (Ascii.bytes l.render).dropWhile isBlank = Ascii.bytes l.render := by
    obtain ⟨b, digits, hb⟩ := List.exists_cons_of_ne_nil (Cursor.decimal_ne_nil l.number.toNat)
    have hsolid := hdigits b (by simp [hb])
    rw [hbytes, hb, List.cons_append,
      List.dropWhile_cons_of_neg (by simp [(Lexer.solid_facts hsolid).2.1])]
  have hcode : code (Ascii.bytes l.render) = Cursor.decimal l.number.toNat ++
      code (Ascii.code ' ' :: listed (Ascii.code ' ') (code rest)) := by
    rw [hbytes]
    exact Lexer.code_digits Cursor.isDigit_of_mem_decimal (by simpa using by decide)
  have hnumber := Cursor.lineNumber_decimal hle (Lexer.head_append_newline rfl
    (Lexer.tokens_not_digit hlisted (.inr (by simpa using by decide))))
  have hne : l.number ≠ Cursor.noLineNumber := by
    intro heq
    rw [heq] at hle
    exact absurd hle (by decide)
  rw [parse_eq, hprepare]
  dsimp only
  rw [Lexer.tokenize_prepared hfolded, hstart, hcode, List.append_assoc, hnumber, if_neg hne,
    Cursor.skipBlanks, Lexer.dropWhile_isBlank_code hlisted, List.dropWhile_cons_of_pos rfl,
    dropWhile_of_head hnotblank]

/-! ## The round trip -/

/-- A listed line that is typed again is stored as it was, exactly if the listing runs no two parts
of it together. -/
theorem parse_render_iff {typed : String} {l : Line} (hascii : ∀ b ∈ Ascii.bytes typed, b < 0x80)
    (hparse : parse typed = .ok l) (hnumber : l.number ≠ 0)
    (hlength : (Ascii.bytes l.render).length ≤ 255) :
    parse l.render = .ok l ↔ Lexer.fuses (.plain false) l.text = false := by
  obtain ⟨rest, hrest, hhead, htext⟩ := text_of_parse hascii hparse
  have hle := number_le_of_parse hparse
  rw [parse_render hrest hhead htext hnumber hle hlength, htext, Lexer.fuses_append_newline,
    ← (Lexer.cut_code hrest).code_listed (Ascii.code ' '), Except.ok.injEq]
  constructor
  · intro hline
    have hsame := congrArg Line.text hline
    rw [htext] at hsame
    exact List.append_cancel_right hsame
  · intro hcode
    rw [hcode, ← htext]

theorem parse_render_iff_quoted : ∃ l,
    parse "20if a<>-1 print 'It''s' , 0x1F,lim_disc_adv_int_min" = .ok l ∧ l.number ≠ 0 ∧
      (Ascii.bytes l.render).length ≤ 255 ∧ parse l.render = .ok l := by
  obtain ⟨hascii, hparse, hlength, hfuses⟩ :
      (∀ b ∈ Ascii.bytes "20if a<>-1 print 'It''s' , 0x1F,lim_disc_adv_int_min", b < 0x80) ∧
      parse "20if a<>-1 print 'It''s' , 0x1F,lim_disc_adv_int_min" =
        .ok ⟨20, [135, 65, 170, 162, 49, 145, 39, 73, 116, 39, 39, 115, 39, 32, 44, 184, 49, 70, 44,
          128, 143, 10]⟩ ∧
      (Ascii.bytes (Line.mk 20 [135, 65, 170, 162, 49, 145, 39, 73, 116, 39, 39, 115, 39, 32, 44, 184,
        49, 70, 44, 128, 143, 10]).render).length ≤ 255 ∧
      Lexer.fuses (.plain false) [135, 65, 170, 162, 49, 145, 39, 73, 116, 39, 39, 115, 39, 32, 44,
        184, 49, 70, 44, 128, 143, 10] = false := by
    decide +kernel
  exact ⟨_, hparse, by decide, hlength, (parse_render_iff hascii hparse (by decide) hlength).mpr hfuses⟩

/-- No symbol stands in this line, and the listing still runs its two words together. -/
theorem parse_render_run_on :
    let l : Line := ⟨10, Ascii.bytes "LIM_DISC_ADV_INT_" ++ [Token.constant.byte, 0x89, newline]⟩
    parse "10 LIM_DISC_ADV_INT_ MIN_CONN_INTERVAL" = .ok l ∧
      l.render = "10 LIM_DISC_ADV_INT_MIN_CONN_INTERVAL" ∧
      (Ascii.bytes l.render).length ≤ 255 ∧ parse l.render ≠ .ok l := by
  dsimp only
  decide +kernel

end Line

end FlashBasic
