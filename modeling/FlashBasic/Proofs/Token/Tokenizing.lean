import FlashBasic.Proofs.Token.InPlace

/-!
The tokens of a text, read off the text alone. `code` does not look at what has been written: it looks
ahead for the word that would take the place of a space. `tokenize_eq` says that tokenizing a line
gives these tokens.
-/

namespace FlashBasic.Lexer

set_option autoImplicit false

open Ascii (newline isBlank isQuote isUpper)

/-! ## Looking ahead -/

theorem length_after_word_lt {text : List UInt8} {s : Spelling} (h : longest? text = some s) :
    ((text.drop s.word.length).dropWhile isBlank).length < text.length := by
  obtain ⟨hs, hword, -⟩ := longest?_eq_some.mp h
  have hpos := List.length_pos_of_ne_nil (spelling_facts s hs).1
  have hle := (List.dropWhile_sublist isBlank (l := text.drop s.word.length)).length_le
  have hword := hword.length_le
  rw [List.length_drop] at hle
  omega

/-- The tokens of a text that has no newline. -/
def code : List UInt8 → List UInt8
  | [] => []
  | b :: rest =>
    if isQuote b then b :: ((literal b rest).1 ++ code (literal b rest).2)
    else
      match _ : longest? (b :: rest) with
      | some s => s.coded ++ code (((b :: rest).drop s.word.length).dropWhile isBlank)
      | none =>
        if isUpper b then
          (b :: rest).takeWhile isUpper ++ code (rest.dropWhile isUpper)
        else if isBlank b then
          if (longest? (rest.dropWhile isBlank)).isSome then code (rest.dropWhile isBlank)
          else Ascii.code ' ' :: code (rest.dropWhile isBlank)
        else b :: code rest
termination_by text => text.length
decreasing_by
  · exact Nat.lt_succ_of_le (length_literal_le b rest)
  · exact length_after_word_lt (by assumption)
  · exact Nat.lt_succ_of_le (List.dropWhile_sublist _).length_le
  · exact Nat.lt_succ_of_le (List.dropWhile_sublist _).length_le
  · exact Nat.lt_succ_of_le (List.dropWhile_sublist _).length_le
  · exact Nat.lt_succ_self _

/-! ## Equations -/

@[simp] theorem code_nil : code [] = [] := by
  rw [code]

theorem code_quote {b : UInt8} (hb : isQuote b = true) (rest : List UInt8) :
    code (b :: rest) = b :: ((literal b rest).1 ++ code (literal b rest).2) := by
  rw [code, if_pos hb]

theorem code_word {text : List UInt8} {s : Spelling} (h : longest? text = some s) :
    code text = s.coded ++ code ((text.drop s.word.length).dropWhile isBlank) := by
  cases text with
  | nil =>
    obtain ⟨hs, hword, -⟩ := longest?_eq_some.mp h
    exact absurd (List.prefix_nil.mp hword) (spelling_facts s hs).1
  | cons b rest =>
    rw [code, if_neg (by simp [(solid_facts (solid_of_longest? h)).2.2.1])]
    split
    next s' h' =>
      obtain rfl := Option.some.inj (h.symm.trans h')
      rfl
    next h' => cases h.symm.trans h'

section

variable {b : UInt8} {rest : List UInt8}

theorem code_upper (hb : isUpper b = true) (h : longest? (b :: rest) = none) :
    code (b :: rest) = (b :: rest).takeWhile isUpper ++ code (rest.dropWhile isUpper) := by
  rw [code, if_neg (by simp [not_isQuote_of_isUpper hb])]
  split
  next h' => cases h.symm.trans h'
  next => rw [if_pos hb]

theorem code_blank (hb : isBlank b = true) :
    code (b :: rest) =
      if (longest? (rest.dropWhile isBlank)).isSome then code (rest.dropWhile isBlank)
      else Ascii.code ' ' :: code (rest.dropWhile isBlank) := by
  obtain ⟨hquote, hupper, -⟩ := facts_of_isBlank hb
  rw [code, if_neg (by simp [hquote])]
  split
  next s h => simp [(solid_facts (solid_of_longest? h)).2.1] at hb
  next => rw [if_neg (by simp [hupper]), if_pos hb]

theorem code_other (hquote : isQuote b = false) (hupper : isUpper b = false) (hblank : isBlank b = false)
    (h : longest? (b :: rest) = none) : code (b :: rest) = b :: code rest := by
  rw [code, if_neg (by simp [hquote])]
  split
  next h' => cases h.symm.trans h'
  next => rw [if_neg (by simp [hupper]), if_neg (by simp [hblank])]

end

/-! ## Turn by turn -/

/-- What has been written once it is known whether a word follows. -/
def settled (done rest : List UInt8) : List UInt8 :=
  if done.getLast? = some (Ascii.code ' ') ∧ (longest? rest).isSome then done.dropLast else done

theorem settled_of_ne {done : List UInt8} (h : done.getLast? ≠ some (Ascii.code ' '))
    (rest : List UInt8) : settled done rest = done :=
  if_neg fun hboth => h hboth.1

theorem settled_of_none {rest : List UInt8} (h : longest? rest = none) (done : List UInt8) :
    settled done rest = done :=
  if_neg fun hboth => by simp [h] at hboth

/-- Blanks may come next only after something that they set off. -/
def Paced (done rest : List UInt8) : Prop :=
  done = [] ∨ done.getLast? = some (Ascii.code ' ') → ∀ b ∈ rest.head?, isBlank b = false

theorem Paced.turned {out : List UInt8} {b : UInt8} {rest : List UInt8} (h : Paced out (b :: rest)) :
    Paced (turned out b rest).1 (turned out b rest).2 := by
  have hne : (Lexer.turned out b rest).1 ≠ [] := by
    obtain hb | ⟨s, hs⟩ | ⟨hb, hnone⟩ | hb | ⟨hquote, hupper, hblank, hnone⟩ := turn_cases b rest
    · simp [turned_quote hb]
    · simp [turned_word hs, (spelling_facts s (longest?_eq_some.mp hs).1).2.2.1]
    · simp [turned_upper hb hnone, hb]
    · have hout : out ≠ [] := by
        intro hnil
        cases hb.symm.trans (h (.inl hnil) b rfl)
      simp [turned_blank hb, hout]
    · simp [turned_other hquote hupper hblank hnone]
  rintro (hnil | hspace)
  · exact absurd hnil hne
  · exact Spaced.turned out b rest hspace

/-- A turn does not change what is written in the end. -/
theorem settled_turned {out : List UInt8} {b : UInt8} {rest : List UInt8} (h : Paced out (b :: rest)) :
    settled out (b :: rest) ++ code (b :: rest) =
      settled (turned out b rest).1 (turned out b rest).2 ++ code (turned out b rest).2 := by
  obtain hb | ⟨s, hs⟩ | ⟨hb, hnone⟩ | hb | ⟨hquote, hupper, hblank, hnone⟩ := turn_cases b rest
  · have hnone : longest? (b :: rest) = none :=
      longest?_eq_none_of_not_solid (by simp [solid, hb]) rest
    have hsettled : settled (out ++ b :: (literal b rest).1) (literal b rest).2 =
        out ++ b :: (literal b rest).1 := by
      obtain hnil | hlast := getLast?_literal hb out rest
      · rw [hnil]
        exact settled_of_none longest?_nil _
      · exact settled_of_ne hlast _
    rw [turned_quote hb, settled_of_none hnone, hsettled, code_quote hb]
    simp
  · have hwithout : settled out (b :: rest) = withoutSpace out := by
      simp [settled, withoutSpace, hs]
    rw [turned_word hs, settled_of_ne (getLast?_coded (longest?_eq_some.mp hs).1 _), code_word hs,
      hwithout, List.append_assoc]
  · rw [turned_upper hb hnone, settled_of_none hnone, settled_of_ne (getLast?_capitals hb out rest),
      code_upper hb hnone, List.append_assoc]
  · have hout : out ≠ [] := by
      intro hnil
      cases hb.symm.trans (h (.inl hnil) b rfl)
    have hnone : longest? (b :: rest) = none :=
      longest?_eq_none_of_not_solid (by simp [solid, hb]) rest
    rw [turned_blank hb, if_neg hout, settled_of_none hnone, code_blank hb, settled]
    simp only [List.getLast?_concat, List.dropLast_concat, true_and]
    split <;> simp
  · have hlast : (out ++ [b]).getLast? ≠ some (Ascii.code ' ') := by
      rw [List.getLast?_concat]
      intro hspace
      obtain rfl := Option.some.inj hspace
      cases hblank
    rw [turned_other hquote hupper hblank hnone, settled_of_none hnone, settled_of_ne hlast,
      code_other hquote hupper hblank hnone]
    simp

theorem transcribe_eq_code {out text : List UInt8} (h : Paced out text) :
    transcribe out text = settled out text ++ code text := by
  fun_induction transcribe out text with
  | case1 out => rw [settled_of_none longest?_nil, code_nil, List.append_nil]
  | case2 out b rest ih => rw [ih h.turned, settled_turned h]

/-- Blanks at the start of a line leave nothing behind. -/
theorem transcribe_dropWhile (text : List UInt8) :
    transcribe [] text = transcribe [] (text.dropWhile isBlank) := by
  cases text with
  | nil => rfl
  | cons b rest =>
    by_cases hb : isBlank b = true
    · rw [transcribe_cons, turned_blank hb, if_pos rfl, List.dropWhile_cons_of_pos hb]
    · rw [List.dropWhile_cons_of_neg hb]

/-- The pass over one buffer gives the tokens of the line up to its first newline. -/
theorem tokenize_eq (line : List UInt8) :
    tokenize line = code ((line.takeWhile (· ≠ newline)).dropWhile isBlank) ++ [newline] := by
  have hpaced : Paced [] ((line.takeWhile (· ≠ newline)).dropWhile isBlank) := by
    intro _ a ha
    have hhead := List.head?_dropWhile_not isBlank (line.takeWhile (· ≠ newline))
    rw [Option.mem_def.mp ha] at hhead
    simpa using hhead
  rw [tokenize_eq_transcribe, transcribe_dropWhile, transcribe_eq_code hpaced,
    settled_of_ne (by simp), List.nil_append]

end FlashBasic.Lexer
