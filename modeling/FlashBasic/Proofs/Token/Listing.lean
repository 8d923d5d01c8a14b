import FlashBasic.Proofs.Token.Tokenizing

/-!
Listing token text. `listed last tokens` is the listing of tokens that come after the byte `last`;
there is one equation for each kind of thing that a text is made of.
-/

namespace FlashBasic.Lexer

set_option autoImplicit false

open Ascii (newline isBlank isQuote isUpper isLower)
open Listing (bytesFrom place separates)

/-! ## Prepared text -/

/-- Prepared text of a line, which starts inside the quote if there is one. -/
def Folded : (quote : Option UInt8) → List UInt8 → Prop
  | _, [] => True
  | quote, b :: rest => b < 0x80 ∧ b ≠ newline ∧ b ≠ Ascii.code '\r' ∧
      ((Ascii.quoteAfter quote b).isNone = true → isLower b = false) ∧
      Folded (Ascii.quoteAfter quote b) rest

theorem toUpper_of_not_isLower {b : UInt8} (h : isLower b = false) : Ascii.toUpper b = b := by
  simp [Ascii.toUpper, h]

theorem foldCase_of_folded {quote : Option UInt8} {text : List UInt8} (h : Folded quote text) :
    foldCase quote text = text := by
  induction text generalizing quote with
  | nil => rfl
  | cons b rest ih =>
    obtain ⟨-, hnewline, hreturn, hlower, hrest⟩ := h
    have hends : ¬ (b = Ascii.code '\r' ∨ b = Ascii.code '\n') := by
      rintro (rfl | rfl)
      · exact hreturn rfl
      · exact hnewline rfl
    rw [foldCase, if_neg hends]
    dsimp only
    rw [ih hrest]
    split
    next hquote => rw [toUpper_of_not_isLower (hlower hquote)]
    next => rfl

theorem toUpper_facts : ∀ b : UInt8, b < 0x80 → b ≠ Ascii.code '\r' → b ≠ newline →
    Ascii.toUpper b < 0x80 ∧ Ascii.toUpper b ≠ newline ∧ Ascii.toUpper b ≠ Ascii.code '\r' ∧
    isLower (Ascii.toUpper b) = false ∧ (isQuote b = true → Ascii.toUpper b = b) ∧
    isQuote (Ascii.toUpper b) = isQuote b :=
  forall_byte (by decide +kernel)

theorem quoteAfter_toUpper {b : UInt8} (hquote : isQuote b = true → Ascii.toUpper b = b)
    (hclass : isQuote (Ascii.toUpper b) = isQuote b) (quote : Option UInt8) :
    Ascii.quoteAfter quote (Ascii.toUpper b) = Ascii.quoteAfter quote b := by
  by_cases hb : isQuote b = true
  · rw [hquote hb]
  · simp [Ascii.quoteAfter, hclass, hb]

theorem folded_foldCase {text : List UInt8} (h : ∀ b ∈ text, b < 0x80) (quote : Option UInt8) :
    Folded quote (foldCase quote text) := by
  induction text generalizing quote with
  | nil => trivial
  | cons b rest ih =>
    have ih := ih fun a ha => h a (List.mem_cons_of_mem _ ha)
    rw [foldCase]
    split
    · exact ih quote
    next hends =>
      obtain ⟨hreturn, hnewline⟩ := not_or.mp hends
      have hb := h b List.mem_cons_self
      dsimp only
      split
      next hquote =>
        obtain ⟨hhigh, hnewline', hreturn', hlower, hsame, hclass⟩ :=
          toUpper_facts b hb hreturn hnewline
        refine ⟨hhigh, hnewline', hreturn', fun _ => hlower, ?_⟩
        rw [quoteAfter_toUpper hsame hclass]
        exact ih _
      next hquote => exact ⟨hb, hnewline, hreturn, fun hnone => absurd hnone hquote, ih _⟩

section

variable {b quote : UInt8} {rest : List UInt8}

theorem quoteAfter_quote (hb : isQuote b = true) : Ascii.quoteAfter none b = some b := by
  simp [Ascii.quoteAfter, hb]

theorem quoteAfter_plain (hb : isQuote b = false) (quote : Option UInt8) :
    Ascii.quoteAfter quote b = quote := by
  simp [Ascii.quoteAfter, hb]

theorem quoteAfter_inside (hne : quote ≠ b) : Ascii.quoteAfter (some quote) b = some quote := by
  simp [Ascii.quoteAfter, hne]

theorem quoteAfter_close (hquote : isQuote quote = true) :
    Ascii.quoteAfter (some quote) quote = none := by
  simp [Ascii.quoteAfter, hquote]

theorem folded_plain (hb : isQuote b = false) :
    Folded none (b :: rest) ↔ (b < 0x80 ∧ b ≠ newline ∧ b ≠ Ascii.code '\r' ∧ isLower b = false) ∧
      Folded none rest := by
  simp [Folded, quoteAfter_plain hb, and_assoc]

theorem folded_plain_append {run : List UInt8} (h : ∀ a ∈ run, isQuote a = false) :
    Folded none (run ++ rest) ↔ (∀ a ∈ run, a < 0x80 ∧ a ≠ newline ∧ a ≠ Ascii.code '\r' ∧
      isLower a = false) ∧ Folded none rest := by
  induction run with
  | nil => simp
  | cons a run ih =>
    rw [List.cons_append, folded_plain (h a List.mem_cons_self),
      ih fun c hc => h c (List.mem_cons_of_mem _ hc), List.forall_mem_cons, ← and_assoc]

/-- What may stand in a literal. -/
def Quotable (b : UInt8) : Prop := b < 0x80 ∧ b ≠ newline ∧ b ≠ Ascii.code '\r'

theorem folded_inside {body : List UInt8} (h : quote ∉ body) :
    Folded (some quote) (body ++ rest) ↔ (∀ a ∈ body, Quotable a) ∧ Folded (some quote) rest := by
  induction body with
  | nil => simp
  | cons a body ih =>
    obtain ⟨hne, hbody⟩ : quote ≠ a ∧ quote ∉ body := by simpa using h
    rw [List.cons_append, Folded, quoteAfter_inside hne, ih hbody, List.forall_mem_cons]
    simp [Quotable, and_assoc]

theorem folded_close (hquote : isQuote quote = true) :
    Folded (some quote) (quote :: rest) ↔ Folded none rest := by
  obtain ⟨hhigh, hnewline, hreturn, hlower, -⟩ := facts_of_isQuote hquote
  simp [Folded, quoteAfter_close hquote, hhigh, hnewline, hreturn, hlower]

theorem folded_open (hquote : isQuote quote = true) :
    Folded none (quote :: rest) ↔ Folded (some quote) rest := by
  obtain ⟨hhigh, hnewline, hreturn, -⟩ := facts_of_isQuote hquote
  simp [Folded, quoteAfter_quote hquote, hhigh, hnewline, hreturn]

end

/-! ## Listing -/

/-- The listing of tokens that come after the byte `last`. -/
def listed (last : UInt8) (tokens : List UInt8) : List UInt8 :=
  bytesFrom last none (tokens ++ [newline])

variable {last : UInt8} {tokens : List UInt8}

@[simp] theorem listed_nil : listed last [] = [] := by
  simp [listed, bytesFrom]

theorem listed_cons {b : UInt8} (hb : b < 0x80) (hnewline : b ≠ newline) (hquote : isQuote b = false) :
    listed last (b :: tokens) = b :: listed b tokens := by
  have htoken : Token.ofByte? b = none := if_pos hb
  rw [listed, List.cons_append, FlashBasic.Listing.bytesFrom.eq_def]
  simp [listed, hnewline, htoken, hquote]

theorem getLastD_append (xs ys : List UInt8) :
    (xs ++ ys).getLastD last = ys.getLastD (xs.getLastD last) := by
  cases ys using List.reverseRecOn with
  | nil => simp
  | append_singleton ys y => simp [← List.append_assoc]

theorem listed_append {run : List UInt8}
    (h : ∀ b ∈ run, b < 0x80 ∧ b ≠ newline ∧ isQuote b = false) :
    listed last (run ++ tokens) = run ++ listed (run.getLastD last) tokens := by
  induction run generalizing last with
  | nil => rfl
  | cons b run ih =>
    obtain ⟨hb, hnewline, hquote⟩ := h b List.mem_cons_self
    rw [List.cons_append, listed_cons hb hnewline hquote,
      ih fun a ha => h a (List.mem_cons_of_mem _ ha), List.getLastD_cons, List.cons_append]

section

variable {quote : UInt8} {body : List UInt8}

theorem bytesFrom_inside (hbody : quote ∉ body) (hnewline : newline ∉ body) (text : List UInt8) :
    bytesFrom last (some quote) (body ++ text) =
      body ++ bytesFrom (body.getLastD last) (some quote) text := by
  induction body generalizing last with
  | nil => rfl
  | cons a body ih =>
    obtain ⟨hne, hbody⟩ : quote ≠ a ∧ quote ∉ body := by simpa using hbody
    obtain ⟨ha, hnewline⟩ : newline ≠ a ∧ newline ∉ body := by simpa using hnewline
    rw [List.cons_append, FlashBasic.Listing.bytesFrom.eq_def, List.getLastD_cons]
    simp only [ha.symm, if_false, Option.isSome_some, if_true, Option.some.injEq, hne]
    rw [ih hbody hnewline, List.cons_append]

theorem listed_quote (hquote : isQuote quote = true) :
    listed last (quote :: tokens) =
      quote :: bytesFrom quote (some quote) (tokens ++ [newline]) := by
  obtain ⟨-, hnewline, -, -, htoken⟩ := facts_of_isQuote hquote
  rw [listed, List.cons_append, FlashBasic.Listing.bytesFrom.eq_def]
  simp [hnewline, htoken, hquote]

theorem listed_closed (hquote : isQuote quote = true) (hbody : quote ∉ body)
    (hnewline : newline ∉ body) :
    listed last (quote :: (body ++ quote :: tokens)) =
      quote :: (body ++ quote :: listed quote tokens) := by
  have hne : quote ≠ newline := by
    rintro rfl
    cases hquote
  rw [listed_quote hquote, List.append_assoc, bytesFrom_inside hbody hnewline, List.cons_append,
    FlashBasic.Listing.bytesFrom.eq_def]
  simp [listed, hne]

theorem listed_unclosed (hquote : isQuote quote = true) (hbody : quote ∉ body)
    (hnewline : newline ∉ body) : listed last (quote :: body) = quote :: body := by
  rw [listed_quote hquote, bytesFrom_inside hbody hnewline, bytesFrom, if_pos rfl, List.append_nil]

end

/-! ## Words -/

/-- The space before a word. -/
def lead (s : Spelling) (last : UInt8) : List UInt8 :=
  if !s.isSymbol && separates last then [Ascii.code ' '] else []

/-- After these a word is not followed by a space. -/
def closers : List UInt8 := [newline, Ascii.code ',', Ascii.code ')']

theorem place_spec {word : String} {last : UInt8} (next : UInt8)
    (hfinal : (Ascii.bytes word).any Ascii.isAlpha = false →
      separates ((Ascii.bytes word).getLastD last) = false) :
    ∃ gap last', place word last next =
        ((if (Ascii.bytes word).any Ascii.isAlpha && separates last then [Ascii.code ' '] else []) ++
          (Ascii.bytes word ++ gap), last') ∧
      (gap = [] ∨ gap = [Ascii.code ' ']) ∧
      ((Ascii.bytes word).any Ascii.isAlpha = false → gap = []) ∧
      (separates last' = false ∨ next ∈ closers) := by
  unfold place
  cases halpha : (Ascii.bytes word).any Ascii.isAlpha with
  | false => exact ⟨[], _, by simp [halpha], .inl rfl, fun _ => rfl, .inl (hfinal halpha)⟩
  | true =>
    simp only [halpha, Bool.not_true, Bool.false_eq_true, if_false, Bool.true_and]
    split
    next => exact ⟨[], Ascii.code '(', by simp, .inl rfl, nofun, .inl rfl⟩
    next =>
      split
      next hnext =>
        have hmem : next ∈ closers := by simpa [closers, or_assoc] using hnext
        exact ⟨[], (Ascii.bytes word).getLastD last, by simp, .inl rfl, nofun, .inr hmem⟩
      next => exact ⟨[Ascii.code ' '], Ascii.code ' ', by simp, .inr rfl, nofun, .inl rfl⟩

theorem headD_append_newline (tokens : List UInt8) :
    (tokens ++ [newline]).headD newline = tokens.headD newline := by
  cases tokens <;> rfl

/-- A word is listed with the spaces that set it off. -/
theorem listed_word {s : Spelling} (hs : s ∈ spellings) (last : UInt8) (tokens : List UInt8) :
    ∃ gap last', listed last (s.coded ++ tokens) =
        lead s last ++ (s.word ++ (gap ++ listed last' tokens)) ∧
      (gap = [] ∨ gap = [Ascii.code ' ']) ∧ (s.isSymbol = true → gap = []) ∧
      (separates last' = false ∨ tokens.headD newline ∈ closers) := by
  have hplace {word : String} (hword : s.word = Ascii.bytes word)
      (hlisted : listed last (s.coded ++ tokens) =
        (place word last (tokens.headD newline)).1 ++
          listed (place word last (tokens.headD newline)).2 tokens) :
      ∃ gap last', listed last (s.coded ++ tokens) =
          lead s last ++ (s.word ++ (gap ++ listed last' tokens)) ∧
        (gap = [] ∨ gap = [Ascii.code ' ']) ∧ (s.isSymbol = true → gap = []) ∧
        (separates last' = false ∨ tokens.headD newline ∈ closers) := by
    have hsymbol : s.isSymbol = !(Ascii.bytes word).any Ascii.isAlpha := by
      rw [Spelling.isSymbol, hword]
    have hfinal : (Ascii.bytes word).any Ascii.isAlpha = false →
        separates ((Ascii.bytes word).getLastD last) = false := by
      intro halpha
      rw [← hword]
      have hlast := (spelling_facts s hs).2.2.2.2.2.1 (by simp [hsymbol, halpha])
      rw [List.getLastD_eq_getLast?, List.getLast?_eq_some_getLast (spelling_facts s hs).1]
      exact hlast _ (List.getLast?_eq_some_getLast _)
    obtain ⟨gap, last', hplace, hgap, hnogap, hlast'⟩ := place_spec (tokens.headD newline) hfinal
    refine ⟨gap, last', ?_, hgap, fun h => hnogap (by simpa [hsymbol] using h), hlast'⟩
    rw [hlisted, hplace, lead, hsymbol, Bool.not_not, hword]
    simp
  obtain ⟨t, ht, rfl⟩ | ⟨k, rfl⟩ := mem_spellings hs
  · have hbyte : t.byte ≠ newline := by
      intro hnewline
      have htoken := Token.ofByte?_byte t
      rw [hnewline] at htoken
      cases htoken
    refine hplace rfl ?_
    rw [Spelling.ofToken, listed, List.append_assoc, List.singleton_append,
      FlashBasic.Listing.bytesFrom.eq_def]
    simp only [hbyte, if_false, Option.isSome_none, Bool.false_eq_true, Token.ofByte?_byte,
      headD_append_newline]
    rfl
  · refine hplace rfl ?_
    rw [listed, List.append_assoc, List.cons_append, FlashBasic.Listing.bytesFrom.eq_def]
    have hbyte : Token.constant.byte ≠ newline := by decide
    simp only [hbyte, if_false, Option.isSome_none, Bool.false_eq_true, Token.ofByte?_byte,
      List.singleton_append, (constant_facts k).1, headD_append_newline]
    rfl

end FlashBasic.Lexer
