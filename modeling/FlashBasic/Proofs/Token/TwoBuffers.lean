import FlashBasic.Proofs.Token.Words
import Mathlib.Data.List.MinMax
import Mathlib.Data.List.TakeWhile

/-!
Tokenizing with two buffers. One is read from the left, the other is written at its end. `turned` is
what happens at one place of the text: a literal, a word, a run of capitals or of blanks, or a
single byte; `transcribe` goes on turn by turn until the text is used up.

Words are looked up in the table as a whole (`wordAt?`). No turn writes more than it reads
(`length_transcribe_le`), and blanks are never met right after a space that was written
(`Spaced.turned`).
-/

namespace FlashBasic.Lexer

set_option autoImplicit false

open Ascii (newline isBlank isQuote isUpper)

/-! ## Words -/

/-- The longest word of the table that the text starts with. -/
def wordAt? (text : List UInt8) : Option Spelling :=
  (spellings.filter (·.word.isPrefixOf text)).argmax (·.word.length)

theorem mem_starting {text : List UInt8} {s : Spelling} :
    s ∈ spellings.filter (·.word.isPrefixOf text) ↔ s ∈ spellings ∧ s.word <+: text := by
  rw [List.mem_filter, List.isPrefixOf_iff_prefix]

/-- The search in one group finds the longest word of the table. -/
theorem longest?_eq_wordAt? (text : List UInt8) : longest? text = wordAt? text := by
  cases h : wordAt? text with
  | none =>
    have hempty := List.argmax_eq_none.mp h
    refine longest?_eq_none.mpr fun s hs hword => ?_
    have hmem := mem_starting.mpr ⟨hs, hword⟩
    rw [hempty] at hmem
    cases hmem
  | some s =>
    obtain ⟨hs, hword⟩ := mem_starting.mp (List.argmax_mem h)
    refine longest?_eq_some.mpr ⟨hs, hword, fun x hx hxword => ?_⟩
    have hmem := mem_starting.mpr ⟨hx, hxword⟩
    exact List.le_of_mem_argmax (f := fun s : Spelling => s.word.length) hmem h

/-! ## Literals -/

/-- The rest of a literal through its closing quote, and what comes after it. -/
def literal (quote : UInt8) : List UInt8 → List UInt8 × List UInt8
  | [] => ([], [])
  | b :: rest =>
    if b = quote then ([b], rest)
    else (b :: (literal quote rest).1, (literal quote rest).2)

theorem literal_append (quote : UInt8) (text : List UInt8) :
    (literal quote text).1 ++ (literal quote text).2 = text := by
  induction text with
  | nil => rfl
  | cons b rest ih =>
    rw [literal]
    split
    · rfl
    · exact congrArg (b :: ·) ih

theorem literal_closed {quote : UInt8} {body : List UInt8} (h : quote ∉ body) (tail : List UInt8) :
    literal quote (body ++ quote :: tail) = (body ++ [quote], tail) := by
  induction body with
  | nil => simp [literal]
  | cons b body ih =>
    obtain ⟨hne, hbody⟩ : quote ≠ b ∧ quote ∉ body := by simpa using h
    simp [literal, hne.symm, ih hbody]

theorem literal_unclosed {quote : UInt8} {text : List UInt8} (h : quote ∉ text) :
    literal quote text = (text, []) := by
  induction text with
  | nil => rfl
  | cons b rest ih =>
    obtain ⟨hne, hrest⟩ : quote ≠ b ∧ quote ∉ rest := by simpa using h
    simp [literal, hne.symm, ih hrest]

/-- A literal is closed, or it takes the whole line. -/
theorem literal_cases (quote : UInt8) (text : List UInt8) :
    (∃ body tail, quote ∉ body ∧ text = body ++ quote :: tail ∧
      literal quote text = (body ++ [quote], tail)) ∨
    (quote ∉ text ∧ literal quote text = (text, [])) := by
  by_cases h : quote ∈ text
  · obtain ⟨body, tail, rfl, hbody⟩ := List.eq_append_cons_of_mem h
    exact .inl ⟨body, tail, hbody, rfl, literal_closed hbody tail⟩
  · exact .inr ⟨h, literal_unclosed h⟩

theorem length_literal_le (quote : UInt8) (text : List UInt8) :
    (literal quote text).2.length ≤ text.length := by
  conv_rhs => rw [← literal_append quote text]
  simp

theorem literal_last (quote : UInt8) (text : List UInt8) :
    (literal quote text).2 = [] ∨ (literal quote text).1.getLast? = some quote := by
  obtain ⟨body, tail, -, -, hliteral⟩ | ⟨-, hliteral⟩ := literal_cases quote text
  · exact .inr (by simp [hliteral])
  · exact .inl (by rw [hliteral])

/-! ## One turn -/

/-- What has been written, less one space at its end. -/
def withoutSpace (out : List UInt8) : List UInt8 :=
  if out.getLast? = some (Ascii.code ' ') then out.dropLast else out

/-- What has been written and what is left to read after one turn, which starts at the byte `b`. -/
def turned (out : List UInt8) (b : UInt8) (rest : List UInt8) : List UInt8 × List UInt8 :=
  if isQuote b then (out ++ b :: (literal b rest).1, (literal b rest).2)
  else
    match wordAt? (b :: rest) with
    | some s =>
      (withoutSpace out ++ s.coded, ((b :: rest).drop s.word.length).dropWhile isBlank)
    | none =>
      if isUpper b then (out ++ (b :: rest).takeWhile isUpper, rest.dropWhile isUpper)
      else if isBlank b then
        (if out = [] then [] else out ++ [Ascii.code ' '], rest.dropWhile isBlank)
      else (out ++ [b], rest)

section

variable {out : List UInt8} {b : UInt8} {rest : List UInt8}

theorem longest?_eq_none_of_not_solid (hb : solid b = false) (rest : List UInt8) :
    longest? (b :: rest) = none := by
  cases h : longest? (b :: rest) with
  | none => rfl
  | some s => cases hb.symm.trans (solid_of_longest? h)

theorem turned_quote (hb : isQuote b = true) (out rest : List UInt8) :
    turned out b rest = (out ++ b :: (literal b rest).1, (literal b rest).2) :=
  if_pos hb

theorem turned_word {s : Spelling} (hs : longest? (b :: rest) = some s) (out : List UInt8) :
    turned out b rest =
      (withoutSpace out ++ s.coded, ((b :: rest).drop s.word.length).dropWhile isBlank) := by
  rw [turned, if_neg (by simp [(solid_facts (solid_of_longest? hs)).2.2.1]),
    ← longest?_eq_wordAt?, hs]

theorem turned_upper (hb : isUpper b = true) (hnone : longest? (b :: rest) = none)
    (out : List UInt8) :
    turned out b rest = (out ++ (b :: rest).takeWhile isUpper, rest.dropWhile isUpper) := by
  rw [turned, if_neg (by simp [not_isQuote_of_isUpper hb]), ← longest?_eq_wordAt?, hnone]
  exact if_pos hb

theorem turned_blank (hb : isBlank b = true) (out rest : List UInt8) :
    turned out b rest =
      (if out = [] then [] else out ++ [Ascii.code ' '], rest.dropWhile isBlank) := by
  obtain ⟨hquote, hupper, -⟩ := facts_of_isBlank hb
  rw [turned, if_neg (by simp [hquote]), ← longest?_eq_wordAt?,
    longest?_eq_none_of_not_solid (by simp [solid, hb])]
  simp only [hupper, hb, if_true, Bool.false_eq_true, if_false]

theorem turned_other (hquote : isQuote b = false) (hupper : isUpper b = false)
    (hblank : isBlank b = false) (hnone : longest? (b :: rest) = none) (out : List UInt8) :
    turned out b rest = (out ++ [b], rest) := by
  rw [turned, if_neg (by simp [hquote]), ← longest?_eq_wordAt?, hnone]
  simp only [hupper, hblank, Bool.false_eq_true, if_false]

/-- The kinds of turn. -/
theorem turn_cases (b : UInt8) (rest : List UInt8) :
    isQuote b = true ∨ (∃ s, longest? (b :: rest) = some s) ∨
      (isUpper b = true ∧ longest? (b :: rest) = none) ∨ isBlank b = true ∨
      (isQuote b = false ∧ isUpper b = false ∧ isBlank b = false ∧ longest? (b :: rest) = none) := by
  cases longest? (b :: rest) with
  | some s => exact .inr (.inl ⟨s, rfl⟩)
  | none =>
    cases isQuote b <;> cases isUpper b <;> cases isBlank b <;> simp

/-- What is left after a word is the end of what was left after its first byte. -/
theorem after_word_suffix {s : Spelling} (hs : longest? (b :: rest) = some s) :
    (b :: rest).drop s.word.length <:+ rest := by
  obtain ⟨hmem, -, -⟩ := longest?_eq_some.mp hs
  obtain ⟨c, word, hword⟩ := List.exists_cons_of_ne_nil (spelling_facts s hmem).1
  rw [hword, List.length_cons, List.drop_succ_cons]
  exact List.drop_suffix _ _

/-- A turn reads on in the text, at least by one byte. -/
theorem turned_suffix (out : List UInt8) (b : UInt8) (rest : List UInt8) :
    (turned out b rest).2 <:+ rest := by
  obtain hb | ⟨s, hs⟩ | ⟨hb, hnone⟩ | hb | ⟨hquote, hupper, hblank, hnone⟩ := turn_cases b rest
  · rw [turned_quote hb]
    exact ⟨_, literal_append b rest⟩
  · rw [turned_word hs]
    exact (List.dropWhile_suffix _).trans (after_word_suffix hs)
  · rw [turned_upper hb hnone]
    exact List.dropWhile_suffix _
  · rw [turned_blank hb]
    exact List.dropWhile_suffix _
  · rw [turned_other hquote hupper hblank hnone]

theorem length_withoutSpace_le (out : List UInt8) : (withoutSpace out).length ≤ out.length := by
  unfold withoutSpace
  split
  · simp
  · exact le_rfl

/-- A turn writes no more than it reads. -/
theorem length_turned_le (out : List UInt8) (b : UInt8) (rest : List UInt8) :
    (turned out b rest).1.length + (turned out b rest).2.length ≤ out.length + (rest.length + 1) := by
  have hdrop (p : UInt8 → Bool) (text : List UInt8) : (text.dropWhile p).length ≤ text.length :=
    (List.dropWhile_suffix p).length_le
  obtain hb | ⟨s, hs⟩ | ⟨hb, hnone⟩ | hb | ⟨hquote, hupper, hblank, hnone⟩ := turn_cases b rest
  · have hlength := congrArg List.length (literal_append b rest)
    rw [turned_quote hb]
    simp only [List.length_append, List.length_cons] at hlength ⊢
    omega
  · obtain ⟨hmem, hword, -⟩ := longest?_eq_some.mp hs
    have hcoded := (spelling_facts s hmem).2.2.2.2.1
    have hout := length_withoutSpace_le out
    have hrest := hdrop isBlank ((b :: rest).drop s.word.length)
    have hle := hword.length_le
    rw [turned_word hs]
    simp only [List.length_append, List.length_drop, List.length_cons] at hrest hle ⊢
    omega
  · have hlength := congrArg List.length (List.takeWhile_append_dropWhile (p := isUpper) (l := rest))
    rw [turned_upper hb hnone, List.takeWhile_cons_of_pos hb]
    simp only [List.length_append, List.length_cons] at hlength ⊢
    omega
  · have hrest := hdrop isBlank rest
    rw [turned_blank hb]
    dsimp only
    split
    · simp only [List.length_nil]
      omega
    · simp only [List.length_append, List.length_singleton]
      omega
  · rw [turned_other hquote hupper hblank hnone]
    simp only [List.length_append, List.length_singleton]
    omega

/-! ## Spaces -/

/-- No blank comes next after a space that was written. -/
def Spaced (out rest : List UInt8) : Prop :=
  out.getLast? = some (Ascii.code ' ') → ∀ b ∈ rest.head?, isBlank b = false

theorem Spaced.of_ne (h : out.getLast? ≠ some (Ascii.code ' ')) : Spaced out rest :=
  fun hspace => absurd hspace h

theorem ne_space_of_isQuote : isQuote b = true → b ≠ Ascii.code ' ' := by
  rintro h rfl
  cases h

/-- A word leaves no space behind. -/
theorem getLast?_coded {s : Spelling} (hs : s ∈ spellings) (out : List UInt8) :
    (out ++ s.coded).getLast? ≠ some (Ascii.code ' ') := by
  obtain ⟨-, -, hcoded, hhigh, -⟩ := spelling_facts s hs
  rw [List.getLast?_append_of_ne_nil _ hcoded]
  intro hspace
  have hhigh := List.all_eq_true.mp hhigh _ (List.mem_of_getLast? hspace)
  revert hhigh
  decide

/-- Nor does a run of capitals. -/
theorem getLast?_capitals (hb : isUpper b = true) (out rest : List UInt8) :
    (out ++ (b :: rest).takeWhile isUpper).getLast? ≠ some (Ascii.code ' ') := by
  have hne : (b :: rest).takeWhile isUpper ≠ [] := by simp [hb]
  rw [List.getLast?_append_of_ne_nil _ hne]
  intro hspace
  cases List.mem_takeWhile_imp (List.mem_of_getLast? hspace)

/-- Nor does a literal that does not take the whole line. -/
theorem getLast?_literal (hb : isQuote b = true) (out rest : List UInt8) :
    (literal b rest).2 = [] ∨
      (out ++ b :: (literal b rest).1).getLast? ≠ some (Ascii.code ' ') := by
  refine (literal_last b rest).imp_right fun hlast => ?_
  have hne : (literal b rest).1 ≠ [] := by
    intro hnil
    simp [hnil] at hlast
  rw [List.getLast?_append_of_ne_nil _ (List.cons_ne_nil _ _), List.getLast?_cons_of_ne_nil hne, hlast]
  simpa using ne_space_of_isQuote hb

theorem Spaced.turned (out : List UInt8) (b : UInt8) (rest : List UInt8) :
    Spaced (turned out b rest).1 (turned out b rest).2 := by
  obtain hb | ⟨s, hs⟩ | ⟨hb, hnone⟩ | hb | ⟨hquote, hupper, hblank, hnone⟩ := turn_cases b rest
  · rw [turned_quote hb]
    obtain hnil | hlast := getLast?_literal hb out rest
    · intro _ a ha
      simp [hnil] at ha
    · exact .of_ne hlast
  · rw [turned_word hs]
    exact .of_ne (getLast?_coded (longest?_eq_some.mp hs).1 _)
  · rw [turned_upper hb hnone]
    exact .of_ne (getLast?_capitals hb out rest)
  · rw [turned_blank hb]
    intro _ a ha
    have hhead := List.head?_dropWhile_not isBlank rest
    rw [Option.mem_def.mp ha] at hhead
    simpa using hhead
  · rw [turned_other hquote hupper hblank hnone]
    refine .of_ne ?_
    rw [List.getLast?_concat]
    intro hspace
    obtain rfl := Option.some.inj hspace
    cases hblank

end

/-! ## All turns -/

/-- Reads the whole text and appends its tokens to what has been written. -/
def transcribe (out : List UInt8) : (text : List UInt8) → List UInt8
  | [] => out
  | b :: rest => transcribe (turned out b rest).1 (turned out b rest).2
termination_by text => text.length
decreasing_by exact Nat.lt_succ_of_le (turned_suffix out b rest).length_le

@[simp] theorem transcribe_nil (out : List UInt8) : transcribe out [] = out := by
  rw [transcribe]

theorem transcribe_cons (out : List UInt8) (b : UInt8) (rest : List UInt8) :
    transcribe out (b :: rest) = transcribe (turned out b rest).1 (turned out b rest).2 := by
  rw [transcribe]

theorem length_transcribe_le (out text : List UInt8) :
    (transcribe out text).length ≤ out.length + text.length := by
  fun_induction transcribe out text with
  | case1 out => exact le_rfl
  | case2 out b rest ih => exact ih.trans (length_turned_le out b rest)

end FlashBasic.Lexer
