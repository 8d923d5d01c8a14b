import FlashBasic.Proofs.Token.TwoBuffers

/-!
Tokenizing within one buffer. `Pass.Shows` relates a pass to the two buffers: what has been written
stands at the start of the buffer and what is left to read at its end. Each turn of the pass is a
turn of the two buffers (`Pass.Shows.turn`), so it never reads outside the buffer nor writes over
what it has still to read, and in the end it leaves what `transcribe` gives.
-/

namespace FlashBasic.Lexer

set_option autoImplicit false

open Ascii (newline isBlank isQuote isUpper)

/-! ## One buffer -/

/-- What has been written is `done`, what is still to be read is `rest`, and `slack` bytes between
them may be written over. -/
structure Pass.Shows (p : Pass) (done rest : List UInt8) (slack : Nat) : Prop where
  take : p.buffer.toList.take p.write = done
  drop : p.buffer.toList.drop p.read = rest
  read : p.read = p.write + slack
  le : p.read ≤ p.buffer.size

namespace Pass.Shows

variable {p : Pass} {done rest more : List UInt8} {b : UInt8} {slack fuel : Nat}

theorem peek (h : p.Shows done (b :: rest) slack) : p.peek? = some b := by
  have hhead := congrArg List.head? h.drop
  rw [List.head?_drop] at hhead
  simpa [peek?] using hhead

theorem length_rest_le (h : p.Shows done rest slack) : rest.length ≤ p.buffer.size := by
  rw [← h.drop, List.length_drop]
  simp

theorem write_eq (h : p.Shows done rest slack) : p.write = done.length := by
  have hread := h.read
  have hle := h.le
  rw [← h.take, List.length_take, Array.length_toList]
  omega

theorem skip (word : List UInt8) (h : p.Shows done (word ++ rest) slack) :
    (p.skip word.length).Shows done rest (slack + word.length) where
  take := h.take
  drop := by
    rw [Pass.skip, ← List.drop_drop, h.drop, List.drop_left]
  read := by
    have hread := h.read
    simp only [Pass.skip]
    omega
  le := by
    have hlength := congrArg List.length h.drop
    have hle := h.le
    simp only [List.length_drop, Array.length_toList, List.length_append] at hlength
    simp only [Pass.skip]
    omega

theorem emit (h : p.Shows done rest (slack + 1)) (b : UInt8) :
    ∃ p', p.emit? b = some p' ∧ p'.Shows (done ++ [b]) rest slack := by
  have hread := h.read
  have hle := h.le
  have hlt : p.write < p.buffer.toList.length := by
    rw [Array.length_toList]
    omega
  refine ⟨_, if_pos ⟨by omega, by omega⟩, ?_, ?_, ?_, ?_⟩
  · simp only [Array.set!_eq_setIfInBounds, Array.toList_setIfInBounds]
    have hzero : p.write - done.length = 0 := by rw [h.write_eq, Nat.sub_self]
    rw [List.take_set, List.take_add_one, List.getElem?_eq_getElem hlt, h.take,
      List.set_append_right _ _ h.write_eq.ge, hzero]
    simp
  · simp only [Array.set!_eq_setIfInBounds, Array.toList_setIfInBounds]
    rw [List.drop_set_of_lt (by omega), h.drop]
  · simp only
    omega
  · simpa using hle

theorem emitAll (bytes : List UInt8) (h : p.Shows done rest (slack + bytes.length)) :
    ∃ p', p.emitAll? bytes = some p' ∧ p'.Shows (done ++ bytes) rest slack := by
  induction bytes generalizing p done with
  | nil => exact ⟨p, rfl, by simpa using h⟩
  | cons b bytes ih =>
    have h : p.Shows done rest (slack + bytes.length + 1) := h
    obtain ⟨q, hq, hshows⟩ := h.emit b
    obtain ⟨p', hp', hshows'⟩ := ih hshows
    exact ⟨p', by rw [emitAll?, hq, Option.bind_some, hp'], by simpa using hshows'⟩

theorem copy (h : p.Shows done (b :: rest) slack) :
    ∃ p', p.copy? = some p' ∧ p'.Shows (done ++ [b]) rest slack := by
  obtain ⟨p', hp', hshows⟩ := (skip [b] h).emit b
  exact ⟨p', by rw [copy?, h.peek]; exact hp', hshows⟩

theorem copyQuoted (quote : UInt8) (h : p.Shows done (rest ++ newline :: more) slack)
    (hfuel : rest.length < fuel) (hnewline : newline ∉ rest) :
    ∃ p', p.copyQuoted? quote fuel = some p' ∧
      p'.Shows (done ++ (literal quote rest).1) ((literal quote rest).2 ++ newline :: more) slack := by
  induction rest generalizing p done fuel with
  | nil =>
    obtain ⟨fuel, rfl⟩ := Nat.exists_eq_succ_of_ne_zero (Nat.ne_of_gt hfuel)
    exact ⟨p, by simp [copyQuoted?, h.peek], by simpa [literal] using h⟩
  | cons b rest ih =>
    obtain ⟨fuel, rfl⟩ := Nat.exists_eq_succ_of_ne_zero (Nat.ne_zero_of_lt hfuel)
    obtain ⟨hb, hrest⟩ : newline ≠ b ∧ newline ∉ rest := by simpa using hnewline
    obtain ⟨q, hq, hshows⟩ := h.copy
    by_cases hquote : b = quote
    · subst hquote
      exact ⟨q, by simp [copyQuoted?, h.peek, hb.symm, hq], by simpa [literal] using hshows⟩
    · obtain ⟨p', hp', hshows'⟩ := ih hshows (by simpa using hfuel) hrest
      exact ⟨p', by simp [copyQuoted?, h.peek, hb.symm, hq, hquote, hp'],
        by simpa [literal, hquote] using hshows'⟩

theorem copyCapitals (h : p.Shows done (rest ++ newline :: more) slack)
    (hfuel : rest.length < fuel) :
    ∃ p', p.copyCapitals? fuel = some p' ∧
      p'.Shows (done ++ rest.takeWhile isUpper) (rest.dropWhile isUpper ++ newline :: more) slack := by
  have hnewline : isUpper newline = false := rfl
  induction rest generalizing p done fuel with
  | nil =>
    obtain ⟨fuel, rfl⟩ := Nat.exists_eq_succ_of_ne_zero (Nat.ne_of_gt hfuel)
    exact ⟨p, by simp [copyCapitals?, h.peek, hnewline], by simpa using h⟩
  | cons b rest ih =>
    obtain ⟨fuel, rfl⟩ := Nat.exists_eq_succ_of_ne_zero (Nat.ne_zero_of_lt hfuel)
    by_cases hb : isUpper b = true
    · obtain ⟨q, hq, hshows⟩ := h.copy
      obtain ⟨p', hp', hshows'⟩ := ih hshows (by simpa using hfuel)
      exact ⟨p', by simp [copyCapitals?, h.peek, hb, hq, hp'], by simpa [hb] using hshows'⟩
    · exact ⟨p, by simp [copyCapitals?, h.peek, hb], by simpa [hb] using h⟩

theorem skipBlanks (h : p.Shows done (rest ++ newline :: more) slack)
    (hfuel : rest.length < fuel) :
    ∃ p' slack', p.skipBlanks? fuel = some p' ∧
      p'.Shows done (rest.dropWhile isBlank ++ newline :: more) slack' := by
  have hnewline : isBlank newline = false := rfl
  induction rest generalizing p slack fuel with
  | nil =>
    obtain ⟨fuel, rfl⟩ := Nat.exists_eq_succ_of_ne_zero (Nat.ne_of_gt hfuel)
    exact ⟨p, slack, by simp [skipBlanks?, h.peek, hnewline], by simpa using h⟩
  | cons b rest ih =>
    obtain ⟨fuel, rfl⟩ := Nat.exists_eq_succ_of_ne_zero (Nat.ne_zero_of_lt hfuel)
    by_cases hb : isBlank b = true
    · obtain ⟨p', slack', hp', hshows⟩ := ih (skip [b] h) (by simpa using hfuel)
      have hskip : p.skipBlanks? (fuel + 1) = (p.skip 1).skipBlanks? fuel := by
        simp [skipBlanks?, h.peek, hb]
      exact ⟨p', slack', hskip.trans hp', by simpa [hb] using hshows⟩
    · exact ⟨p, slack, by simp [skipBlanks?, h.peek, hb], by simpa [hb] using h⟩

theorem endsInSpace_eq (h : p.Shows done rest slack) :
    p.endsInSpace = decide (done.getLast? = some (Ascii.code ' ')) := by
  have hread := h.read
  have hle := h.le
  have hwrite := h.write_eq
  unfold endsInSpace
  rw [List.getLast?_eq_getElem?, ← h.take, List.length_take, Array.length_toList,
    Nat.min_eq_left (by omega), List.getElem?_take, Array.getElem?_toList]
  cases hw : p.write with
  | zero => simp
  | succ n => simp [beq_eq_decide]

theorem back (h : p.Shows (done ++ [b]) rest slack) :
    ({ p with write := p.write - 1 } : Pass).Shows done rest (slack + 1) where
  take := by
    have hwrite := h.write_eq
    rw [List.length_append, List.length_singleton] at hwrite
    have htake := congrArg (List.take (p.write - 1)) h.take
    rw [List.take_take, Nat.min_eq_left (by omega)] at htake
    rw [htake, hwrite]
    simp
  drop := h.drop
  read := by
    have hread := h.read
    have hwrite := h.write_eq
    rw [List.length_append, List.length_singleton] at hwrite
    simp only
    omega
  le := h.le

end Pass.Shows

/-! ## The pass -/

theorem starts_append_newline {word text : List UInt8} (h : newline ∉ word) (more : List UInt8) :
    word <+: text ++ newline :: more ↔ word <+: text := by
  refine ⟨fun hword => ?_, fun hword => hword.trans (List.prefix_append _ _)⟩
  obtain hword' | hword' := List.prefix_or_prefix_of_prefix hword (List.prefix_append text _)
  · exact hword'
  · obtain ⟨tail, rfl⟩ := hword'
    rw [List.prefix_append_right_inj] at hword
    cases tail with
    | nil => simp
    | cons b tail =>
      obtain ⟨rfl, -⟩ := List.cons_prefix_cons.mp hword
      simp at h

theorem newline_not_mem_word {s : Spelling} (hs : s ∈ spellings) : newline ∉ s.word := by
  intro hmem
  have hsolid := List.all_eq_true.mp (spelling_facts s hs).2.1 _ hmem
  exact (solid_facts hsolid).2.2.2.1 rfl

theorem longest?_append_newline (text more : List UInt8) :
    longest? (text ++ newline :: more) = longest? text := by
  cases h : longest? text with
  | none =>
    rw [longest?_eq_none] at h ⊢
    intro x hx
    rw [starts_append_newline (newline_not_mem_word hx)]
    exact h x hx
  | some s =>
    rw [longest?_eq_some] at h ⊢
    obtain ⟨hs, hword, hmax⟩ := h
    refine ⟨hs, (starts_append_newline (newline_not_mem_word hs) more).mpr hword, fun x hx hxt => ?_⟩
    exact hmax x hx ((starts_append_newline (newline_not_mem_word hx) more).mp hxt)

namespace Pass.Shows

variable {p : Pass} {done rest more : List UInt8} {b : UInt8} {slack : Nat}

theorem step?_eq (h : p.Shows done (b :: rest ++ newline :: more) slack) :
    p.step? b =
      if isQuote b then p.copy?.bind (copyQuoted? b p.buffer.size)
      else
        match longest? (b :: rest) with
        | some s => p.emitWord? p.buffer.size s
        | none =>
          if isUpper b then p.copyCapitals? p.buffer.size
          else if isBlank b then p.emitBlank? p.buffer.size
          else p.copy? := by
  have hlongest : longest? (p.buffer.toList.drop p.read) = longest? (b :: rest) := by
    rw [h.drop, longest?_append_newline]
  exact hlongest ▸ rfl

theorem lt_size (h : p.Shows done (b :: rest ++ newline :: more) slack) :
    rest.length + 1 < p.buffer.size := by
  have hle := h.length_rest_le
  simp only [List.length_append, List.length_cons] at hle
  omega

/-- The pass makes the same turn as the two buffers. -/
def Turns (p : Pass) (done : List UInt8) (b : UInt8) (rest more : List UInt8) : Prop :=
  ∃ p' slack', p.step? b = some p' ∧
    p'.Shows (turned done b rest).1 ((turned done b rest).2 ++ newline :: more) slack'

theorem turn_quote (h : p.Shows done (b :: rest ++ newline :: more) slack)
    (hnewline : newline ∉ rest) (hb : isQuote b = true) : Turns p done b rest more := by
  obtain ⟨q, hq, hshows⟩ := h.copy
  obtain ⟨p', hp', hshows'⟩ := hshows.copyQuoted b (Nat.lt_of_succ_lt h.lt_size) hnewline
  refine ⟨p', slack, ?_, ?_⟩
  · rw [h.step?_eq, if_pos hb, hq, Option.bind_some, hp']
  · rw [turned_quote hb]
    simpa using hshows'

/-- The space before a word is given back. -/
theorem withoutSpace (h : p.Shows done rest slack) :
    ∃ slack', Shows (if p.endsInSpace then { p with write := p.write - 1 } else p)
      (withoutSpace done) rest slack' := by
  rw [h.endsInSpace_eq, Lexer.withoutSpace]
  by_cases hspace : done.getLast? = some (Ascii.code ' ')
  · obtain ⟨init, rfl⟩ := List.getLast?_eq_some_iff.mp hspace
    exact ⟨_, by simpa using h.back⟩
  · exact ⟨slack, by simpa [hspace] using h⟩

theorem turn_word {s : Spelling} (h : p.Shows done (b :: rest ++ newline :: more) slack)
    (hs : longest? (b :: rest) = some s) : Turns p done b rest more := by
  obtain ⟨hmem, ⟨tail, htail⟩, -⟩ := longest?_eq_some.mp hs
  have hlength := (spelling_facts s hmem).2.2.2.2.1
  obtain ⟨slack₁, hshows₁⟩ := h.withoutSpace
  rw [← htail, List.append_assoc] at hshows₁
  -- The word has been read before its token is written, which is no longer.
  have hskip := hshows₁.skip
  rw [show slack₁ + s.word.length = slack₁ + (s.word.length - s.coded.length) + s.coded.length by
    omega] at hskip
  obtain ⟨p₂, hp₂, hshows₂⟩ := hskip.emitAll
  have hfuel : tail.length < p.buffer.size := by
    have hsize := h.lt_size
    have hword := congrArg List.length htail
    simp only [List.length_append, List.length_cons] at hword
    omega
  obtain ⟨p', slack', hp', hshows'⟩ := hshows₂.skipBlanks hfuel
  refine ⟨p', slack', ?_, ?_⟩
  · rw [h.step?_eq, if_neg (by simp [(solid_facts (solid_of_longest? hs)).2.2.1]), hs]
    simp only [emitWord?, hp₂, hp', Option.bind_eq_bind, Option.bind_some]
  · rw [turned_word hs, ← htail, List.drop_left]
    exact hshows'

theorem turn_capitals (h : p.Shows done (b :: rest ++ newline :: more) slack)
    (hnone : longest? (b :: rest) = none) (hb : isUpper b = true) : Turns p done b rest more := by
  have h' : p.Shows done ((b :: rest) ++ newline :: more) slack := h
  obtain ⟨p', hp', hshows⟩ := h'.copyCapitals h.lt_size
  have hdrop : (b :: rest).dropWhile isUpper = rest.dropWhile isUpper :=
    List.dropWhile_cons_of_pos hb
  refine ⟨p', slack, ?_, ?_⟩
  · rw [h.step?_eq, if_neg (by simp [not_isQuote_of_isUpper hb]), hnone]
    simp only [hb, if_true, hp']
  · rw [turned_upper hb hnone]
    exact hdrop ▸ hshows

-- The pass also asks whether the last byte written is a space, which it never is before a blank.
theorem turn_blank (h : p.Shows done (b :: rest ++ newline :: more) slack)
    (hspaced : Spaced done (b :: rest)) (hb : isBlank b = true) : Turns p done b rest more := by
  obtain ⟨hquote, hupper, -⟩ := facts_of_isBlank hb
  have hlast : done.getLast? ≠ some (Ascii.code ' ') := by
    intro hspace
    cases hb.symm.trans (hspaced hspace b rfl)
  have hguard : (p.write = 0 ∨ p.endsInSpace = true) ↔ done = [] := by
    rw [h.write_eq, h.endsInSpace_eq]
    simp [hlast]
  have hstep : p.step? b = p.emitBlank? p.buffer.size := by
    rw [h.step?_eq, if_neg (by simp [hquote]),
      longest?_eq_none_of_not_solid (by simp [solid, hb]) rest]
    simp only [hupper, hb, if_true, Bool.false_eq_true, if_false]
  by_cases hdone : done = []
  · have h' : p.Shows done ((b :: rest) ++ newline :: more) slack := h
    obtain ⟨p', slack', hp', hshows⟩ := h'.skipBlanks h.lt_size
    refine ⟨p', slack', ?_, ?_⟩
    · rw [hstep, emitBlank?, if_pos (hguard.mpr hdone), hp']
    · rw [turned_blank hb, if_pos hdone, ← hdone, ← List.dropWhile_cons_of_pos hb]
      exact hshows
  · obtain ⟨q, hq, hshows⟩ := (skip [b] h).emit (Ascii.code ' ')
    obtain ⟨p', slack', hp', hshows'⟩ := hshows.skipBlanks (Nat.lt_of_succ_lt h.lt_size)
    refine ⟨p', slack', ?_, ?_⟩
    · rw [hstep, emitBlank?, if_neg (hguard.not.mpr hdone), show p.skip 1 = p.skip [b].length from rfl,
        hq]
      exact hp'
    · rw [turned_blank hb, if_neg hdone]
      exact hshows'

theorem turn_other (h : p.Shows done (b :: rest ++ newline :: more) slack)
    (hnone : longest? (b :: rest) = none) (hquote : isQuote b = false) (hupper : isUpper b = false)
    (hblank : isBlank b = false) : Turns p done b rest more := by
  obtain ⟨p', hp', hshows⟩ := h.copy
  refine ⟨p', slack, ?_, ?_⟩
  · rw [h.step?_eq, if_neg (by simp [hquote]), hnone]
    simp only [hupper, hblank, Bool.false_eq_true, if_false, hp']
  · rw [turned_other hquote hupper hblank hnone]
    exact hshows

theorem turn (h : p.Shows done (b :: rest ++ newline :: more) slack) (hnewline : newline ∉ rest)
    (hspaced : Spaced done (b :: rest)) : Turns p done b rest more := by
  obtain hb | ⟨s, hs⟩ | ⟨hb, hnone⟩ | hb | ⟨hquote, hupper, hblank, hnone⟩ := turn_cases b rest
  · exact h.turn_quote hnewline hb
  · exact h.turn_word hs
  · exact h.turn_capitals hnone hb
  · exact h.turn_blank hspaced hb
  · exact h.turn_other hnone hquote hupper hblank

end Pass.Shows

theorem exists_terminated (line : List UInt8) :
    ∃ more, terminated line = line.takeWhile (· ≠ newline) ++ newline :: more := by
  have hsplit := List.takeWhile_append_dropWhile (p := fun b => decide (b ≠ newline)) (l := line)
  cases hdrop : line.dropWhile (· ≠ newline) with
  | nil =>
    rw [hdrop, List.append_nil] at hsplit
    have hlast : line.getLast? ≠ some newline := by
      intro hlast
      have hmem := List.mem_of_getLast? hlast
      rw [← hsplit] at hmem
      simpa using List.mem_takeWhile_imp hmem
    exact ⟨[], by rw [terminated, if_neg hlast, hsplit]⟩
  | cons b more =>
    have hb : b = newline := by
      have hhead := List.head?_dropWhile_not (fun b => decide (b ≠ newline)) line
      rw [hdrop] at hhead
      simpa using hhead
    rw [hdrop, hb] at hsplit
    unfold terminated
    split
    · exact ⟨more, hsplit.symm⟩
    · exact ⟨more ++ [newline], by
        conv_lhs => rw [← hsplit]
        simp⟩

/-! ## The whole pass -/

namespace Pass

/-- The pass is not at the end of the line, and makes a turn. -/
def Turn (p p' : Pass) : Prop := ∃ b, p.peek? = some b ∧ b ≠ newline ∧ p.step? b = some p'

/-- The pass has `rest` to read up to the newline, and will then have written `result`. -/
def Underway (p : Pass) (rest more result : List UInt8) : Prop :=
  ∃ done slack, p.Shows done (rest ++ newline :: more) slack ∧ newline ∉ rest ∧
    Spaced done rest ∧ transcribe done rest = result

namespace Underway

variable {p p' : Pass} {rest more result : List UInt8} {b : UInt8}

theorem bounds (h : p.Underway rest more result) : p.write ≤ p.read ∧ p.read < p.buffer.size := by
  obtain ⟨done, slack, hshows, -⟩ := h
  have hread := hshows.read
  have hlength := congrArg List.length hshows.drop
  simp only [List.length_drop, Array.length_toList, List.length_append, List.length_cons] at hlength
  omega

theorem turn (h : p.Underway (b :: rest) more result) :
    ∃ p' rest', p.peek? = some b ∧ b ≠ newline ∧ p.step? b = some p' ∧ rest' <:+ rest ∧
      p'.Underway rest' more result := by
  obtain ⟨done, slack, hshows, hnewline, hspaced, hresult⟩ := h
  obtain ⟨hb, hrest⟩ : newline ≠ b ∧ newline ∉ rest := by simpa using hnewline
  obtain ⟨p', slack', hstep, hshows'⟩ := hshows.turn hrest hspaced
  have hsuffix := turned_suffix done b rest
  refine ⟨p', _, hshows.peek, hb.symm, hstep, hsuffix, _, slack', hshows', ?_, .turned done b rest, ?_⟩
  · exact fun hmem => hrest (hsuffix.mem hmem)
  · rw [← transcribe_cons, hresult]

theorem peek_nil (h : p.Underway [] more result) : p.peek? = some newline := by
  obtain ⟨done, slack, hshows, -⟩ := h
  exact hshows.peek

theorem of_turn (h : p.Underway rest more result) (hturn : p.Turn p') :
    ∃ rest', p'.Underway rest' more result := by
  obtain ⟨b, hpeek, hne, hstep⟩ := hturn
  cases rest with
  | nil => exact absurd (Option.some.inj (hpeek.symm.trans h.peek_nil)) hne
  | cons c rest =>
    obtain ⟨q, rest', hpeek', -, hstep', -, hq⟩ := h.turn
    obtain rfl := Option.some.inj (hpeek.symm.trans hpeek')
    obtain rfl := Option.some.inj (hstep.symm.trans hstep')
    exact ⟨rest', hq⟩

theorem of_turns (h : p.Underway rest more result) (hturns : Relation.ReflTransGen Turn p p') :
    ∃ rest', p'.Underway rest' more result := by
  induction hturns with
  | refl => exact ⟨rest, h⟩
  | tail _ hturn ih =>
    obtain ⟨rest', h'⟩ := ih
    exact h'.of_turn hturn

/-- A pass is at the end of the line or can go on. -/
theorem progress (h : p.Underway rest more result) :
    p.peek? = some newline ∨ ∃ p', p.Turn p' := by
  cases rest with
  | nil => exact .inl h.peek_nil
  | cons b rest =>
    obtain ⟨p', -, hpeek, hne, hstep, -⟩ := h.turn
    exact .inr ⟨p', b, hpeek, hne, hstep⟩

-- Every turn reads something, so as many turns as there are bytes are enough.
theorem run {fuel : Nat} (h : p.Underway rest more result) (hfuel : rest.length < fuel) :
    p.run? fuel = some (result ++ [newline]) := by
  induction fuel generalizing p rest with
  | zero => simp at hfuel
  | succ fuel ih =>
    cases rest with
    | nil =>
      obtain ⟨done, slack, hshows, -, -, hresult⟩ := h
      rw [transcribe_nil] at hresult
      simp [run?, hshows.peek, hshows.take, hresult]
    | cons b rest =>
      obtain ⟨p', rest', hpeek, hne, hstep, hsuffix, h'⟩ := h.turn
      have hle := hsuffix.length_le
      have hrun := ih h' (by simp only [List.length_cons] at hfuel; omega)
      rw [← hrun]
      simp [run?, hpeek, hne, hstep]

end Underway

end Pass

/-- The pass over a line has the bytes up to the first newline to read. -/
theorem underway_terminated (line : List UInt8) :
    ∃ more, Pass.Underway { buffer := (terminated line).toArray } (line.takeWhile (· ≠ newline)) more
      (transcribe [] (line.takeWhile (· ≠ newline))) := by
  obtain ⟨more, hmore⟩ := exists_terminated line
  have hnewline : newline ∉ line.takeWhile (· ≠ newline) := by
    intro hmem
    simpa using List.mem_takeWhile_imp hmem
  exact ⟨more, [], 0, ⟨rfl, hmore, rfl, Nat.zero_le _⟩, hnewline, .of_ne (by simp), rfl⟩

theorem length_takeWhile_lt (line : List UInt8) :
    (line.takeWhile (· ≠ newline)).length < (terminated line).length := by
  obtain ⟨more, hmore⟩ := exists_terminated line
  simp [hmore]

theorem run_terminated (line : List UInt8) :
    Pass.run? (terminated line).length { buffer := (terminated line).toArray } =
      some (transcribe [] (line.takeWhile (· ≠ newline)) ++ [newline]) := by
  obtain ⟨more, hstart⟩ := underway_terminated line
  exact hstart.run (length_takeWhile_lt line)

theorem tokenize_eq_transcribe (line : List UInt8) :
    tokenize line = transcribe [] (line.takeWhile (· ≠ newline)) ++ [newline] := by
  rw [tokenize, List.size_toArray, run_terminated, Option.getD_some]

/-- The pass over a line comes to its end within as many turns as there are bytes. On the way it
never reads outside its buffer and never writes past where it reads, and it leaves what two buffers
give for the bytes up to the first newline, which is no longer than the line with its end. -/
theorem tokenize_in_place (line : List UInt8) :
    let start : Pass := { buffer := (terminated line).toArray }
    start.run? start.buffer.size = some (tokenize line) ∧
      (∀ p, Relation.ReflTransGen Pass.Turn start p →
        p.write ≤ p.read ∧ p.read < p.buffer.size ∧
          (p.peek? = some newline ∨ ∃ p', p.Turn p')) ∧
      tokenize line = transcribe [] (line.takeWhile (· ≠ newline)) ++ [newline] ∧
      (tokenize line).length ≤ (terminated line).length := by
  intro start
  obtain ⟨more, hstart⟩ := underway_terminated line
  refine ⟨?_, fun p hturns => ?_, tokenize_eq_transcribe line, ?_⟩
  · rw [tokenize_eq_transcribe, ← run_terminated, List.size_toArray]
  · obtain ⟨rest, hp⟩ := hstart.of_turns hturns
    exact ⟨hp.bounds.1, hp.bounds.2, hp.progress⟩
  · have hlength := length_transcribe_le [] (line.takeWhile (· ≠ newline))
    have hlt := length_takeWhile_lt line
    rw [tokenize_eq_transcribe, List.length_append, List.length_singleton]
    rw [List.length_nil, Nat.zero_add] at hlength
    omega

end FlashBasic.Lexer
