import FlashBasic.Line

/-!
Reading a typed line: the number it starts with, and what makes it fail.
-/

namespace FlashBasic

set_option autoImplicit false

theorem Cursor.lineNumber_le {c : Cursor} (h : c.lineNumber.1 ≠ noLineNumber) :
    c.lineNumber.1 ≤ 0xFFFD := by
  unfold lineNumber at h ⊢
  dsimp only at h ⊢
  split at h
  next hle =>
    rw [if_pos hle, UInt16.le_iff_toNat_le, UInt32.toNat_toUInt16]
    exact Nat.le_trans (Nat.mod_le _ _) hle
  next => exact absurd rfl h

theorem Cursor.maxLineNumber_lt {c : Cursor} (h : c.lineNumber.1 = noLineNumber) :
    maxLineNumber < ((c.takeWhile Ascii.isDigit).foldl addDigit 0).toNat := by
  unfold lineNumber at h
  dsimp only at h
  split at h
  next hle =>
    have hmod := congrArg UInt16.toNat h
    rw [UInt32.toNat_toUInt16, Nat.mod_eq_of_lt (Nat.lt_of_le_of_lt hle (by decide))] at hmod
    rw [hmod] at hle
    exact absurd hle (by decide)
  next hlt => exact Nat.lt_of_not_le hlt

namespace Line

theorem parse_eq (typed : String) :
    parse typed =
      match Lexer.prepare typed with
      | .error e => .error e
      | .ok bytes =>
        if (Cursor.lineNumber (Lexer.tokenize bytes)).1 = Cursor.noLineNumber then .error .general
        else .ok
          { number := (Cursor.lineNumber (Lexer.tokenize bytes)).1
            text := (Cursor.lineNumber (Lexer.tokenize bytes)).2.skipBlanks } := by
  unfold parse
  cases Lexer.prepare typed with
  | error e => rfl
  | ok bytes =>
    dsimp only [bind, Except.bind]
    split <;> rfl

theorem eq_of_parse_eq_ok {typed : String} {line : Line} (h : parse typed = .ok line) :
    ∃ tokens, tokens = Lexer.tokenize (Lexer.foldCase none (Ascii.bytes typed) ++ [Ascii.newline]) ∧
      (Cursor.lineNumber tokens).1 ≠ Cursor.noLineNumber ∧
      line = ⟨(Cursor.lineNumber tokens).1, (Cursor.lineNumber tokens).2.skipBlanks⟩ := by
  rw [parse_eq] at h
  split at h
  · cases h
  next bytes hprepare =>
    unfold Lexer.prepare at hprepare
    dsimp only at hprepare
    split at hprepare
    next =>
      obtain rfl := Except.ok.inj hprepare
      split at h
      · cases h
      next hnumber => exact ⟨_, rfl, hnumber, (Except.ok.inj h).symm⟩
    next => cases hprepare

theorem number_le_of_parse {typed : String} {line : Line} (h : parse typed = .ok line) :
    line.number ≤ 0xFFFD := by
  obtain ⟨tokens, -, hnumber, rfl⟩ := eq_of_parse_eq_ok h
  exact Cursor.lineNumber_le hnumber

/-- The digits that the line starts with give a number that no stored line has. -/
def NumberTooHigh (typed : String) : Prop :=
  ∃ bytes, Lexer.prepare typed = .ok bytes ∧ Cursor.maxLineNumber <
    (((Lexer.tokenize bytes).takeWhile Ascii.isDigit).foldl Cursor.addDigit 0).toNat

theorem eq_of_parse_eq_error {typed : String} {e : Error} (h : parse typed = .error e) :
    e = .tooBig ∨ e = .general ∧ NumberTooHigh typed := by
  rw [parse_eq] at h
  split at h
  next e' hprepare =>
    cases h
    unfold Lexer.prepare at hprepare
    dsimp only at hprepare
    split at hprepare
    · cases hprepare
    · cases hprepare
      exact .inl rfl
  next bytes hprepare =>
    split at h
    next hnumber =>
      cases h
      exact .inr ⟨rfl, bytes, hprepare, Cursor.maxLineNumber_lt hnumber⟩
    next => cases h

theorem one_le_of_not_isDirect {line : Line} (h : line.isDirect = false) : 1 ≤ line.number := by
  have hne : line.number ≠ 0 := by simpa [isDirect] using h
  rw [UInt16.le_iff_toNat_le]
  rw [ne_eq, ← UInt16.toNat_inj] at hne
  simp at hne ⊢
  omega

end Line

end FlashBasic
