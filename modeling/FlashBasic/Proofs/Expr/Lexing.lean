import FlashBasic.Proofs.Expr.Evaluation
import FlashBasic.Proofs.Token.Words
import Mathlib.Data.List.TakeWhile

/-!
The lexemes of an expression. `Spelled x text` says how a lexeme is written, and every lexeme that is
read stands in the text as it is spelled (`exists_spelled`).

`lexemes c` lists what is read of the expression at the start of `c`: it ends before text that starts
with no lexeme, and before a closing parenthesis or a comma outside all parentheses.
-/

namespace FlashBasic

set_option autoImplicit false

theorem Letter.eq_byte_of_ofByte? {b : UInt8} {l : Letter} (h : ofByte? b = some l) :
    b = l.byte := by
  unfold ofByte? at h
  split at h
  · obtain rfl := Option.some.inj h
    simp [byte, UInt8.add_comm (Ascii.code 'A')]
  · simp at h

theorem Letter.byte_ne_newline (l : Letter) : l.byte ≠ Ascii.newline := by
  obtain ⟨slot⟩ := l
  revert slot
  decide

theorem exists_namedValue {b : UInt8} {v : String × Int32} (h : namedValue? b = some v) :
    ∃ k : Fin namedValues.length, b = 0x80 + k.val.toUInt8 ∧ namedValues.get k = v := by
  unfold namedValue? at h
  split at h
  · simp at h
  · obtain ⟨hlt, hv⟩ := List.getElem?_eq_some_iff.mp h
    exact ⟨⟨_, hlt⟩, by simp [UInt8.add_comm 0x80], hv⟩

namespace Cursor

theorem exists_gap (c : Cursor) : ∃ gap : Gap, c = gap.bytes ++ c.skipBlanks :=
  ⟨⟨c.takeWhile Ascii.isBlank, fun _ => List.mem_takeWhile_imp⟩, List.takeWhile_append_dropWhile.symm⟩

theorem eq_cons_of_peek {c : Cursor} {b : UInt8} (h : c.peek = b) (hb : b ≠ Ascii.newline) :
    c = b :: c.advance := by
  cases c with
  | nil => exact absurd h.symm hb
  | cons a rest => exact congrArg (· :: rest) h

end Cursor

namespace Expr

/-! ## Spelling -/

inductive Spelled : Lexeme → List UInt8 → Prop where
  | literal {r : Radix} (digits : Digits r) :
      Spelled (.number (.ofInt digits.value)) (r.mark ++ digits.bytes)
  | constant (k : Fin namedValues.length) :
      Spelled (.number (namedValues.get k).2) [Token.constant.byte, 0x80 + k.val.toUInt8]
  | name (l : Letter) : Spelled (.name l) [l.byte]
  | opening : Spelled .opening [Phrase.opening]
  | closing : Spelled .closing [Phrase.closing]
  | comma : Spelled .comma [Ascii.code ',']
  | operator (o : Operator) : Spelled (.operator o) [(Token.op o).byte]
  | call (f : Builtin) : Spelled (.call f) [f.token.byte]
  | millis (gap : Gap) : Spelled .millis (Token.millis.byte :: (gap.bytes ++ [Phrase.closing]))
  | battery (gap : Gap) : Spelled .battery (Token.battery.byte :: (gap.bytes ++ [Phrase.closing]))
  | length (gap : Gap) (l : Letter) (gap' : Gap) : Spelled (.length l)
      (Token.len.byte :: (gap.bytes ++ l.byte :: (gap'.bytes ++ [Phrase.closing])))

theorem digits_spec (base n : Nat) (c : Cursor) :
    ∃ bytes, c = bytes ++ (Number.digits base n c).2 ∧ bytes.length ≤ n ∧
      (∀ b ∈ bytes, (Ascii.digit? base b).isSome) ∧
      (Number.digits base n c).1 = bytes.filterMap (Ascii.digit? base) := by
  induction n generalizing c with
  | zero => exact ⟨[], by simp [Number.digits]⟩
  | succ n ih =>
    cases c with
    | nil => exact ⟨[], by simp [Number.digits]⟩
    | cons b rest =>
      cases hd : Ascii.digit? base b with
      | none => exact ⟨[], by simp [Number.digits, hd]⟩
      | some d =>
        obtain ⟨bytes, hrest, hlength, hdigits, hvalues⟩ := ih rest
        refine ⟨b :: bytes, ?_, by simp [hlength], ?_, ?_⟩
        · simpa [Number.digits, hd] using hrest
        · simpa [hd] using hdigits
        · simp [Number.digits, hd, hvalues]

theorem exists_digits {r : Radix} {c rest : Cursor} {x : Lexeme}
    (h : Lexeme.number? r.maxLength r.base c = (x, rest)) (hx : x ≠ .malformed) :
    ∃ digits : Digits r, c = digits.bytes ++ rest ∧ x = .number (.ofInt digits.value) := by
  obtain ⟨bytes, hc, hlength, hdigits, hvalues⟩ := digits_spec r.base r.maxLength c
  obtain rfl : (Number.digits r.base r.maxLength c).2 = rest := by rw [← snd_number?, h]
  have hnumber : x = if bytes = [] then .malformed
      else .number (Number.ofDigits r.base (bytes.filterMap (Ascii.digit? r.base))) := by
    refine (congrArg Prod.fst h).symm.trans ?_
    rw [Lexeme.number?]
    split
    next hds =>
      rw [hds] at hvalues
      have hnil : bytes = [] := by
        cases bytes with
        | nil => rfl
        | cons b bytes =>
          obtain ⟨d, hd⟩ := Option.isSome_iff_exists.mp (hdigits b List.mem_cons_self)
          simp [hd] at hvalues
      rw [if_pos hnil]
    next hne hds =>
      rw [hds] at hvalues
      have hcons : bytes ≠ [] := by
        rintro rfl
        exact hne hvalues
      rw [if_neg hcons, ← hvalues]
  by_cases hbytes : bytes = []
  · exact absurd (hnumber.trans (if_pos hbytes)) hx
  · refine ⟨⟨bytes, hbytes, hlength, hdigits⟩, hc, hnumber.trans ?_⟩
    rw [if_neg hbytes, Number.ofDigits_eq, Digits.value, Int32.ofInt_eq_ofNat]
    rfl

theorem eq_of_closed {x y : Lexeme} {c rest : Cursor} (h : Lexeme.closed x c = (y, rest))
    (hy : y ≠ .malformed) : y = x ∧ ∃ gap : Gap, c = gap.bytes ++ Phrase.closing :: rest := by
  simp only [Lexeme.closed] at h
  split at h
  next hpeek =>
    obtain ⟨rfl, rfl⟩ := Prod.mk.inj h
    obtain ⟨gap, hgap⟩ := c.exists_gap
    refine ⟨rfl, gap, ?_⟩
    rw [Phrase.closing, ← Cursor.eq_cons_of_peek hpeek (by decide)]
    exact hgap
  next => exact absurd (Prod.mk.inj h).1.symm hy

theorem eq_of_lengthOf {x : Lexeme} {c rest : Cursor} (h : Lexeme.lengthOf c = (x, rest))
    (hx : x ≠ .malformed) : ∃ (l : Letter) (gap gap' : Gap), x = .length l ∧
      c = gap.bytes ++ l.byte :: (gap'.bytes ++ Phrase.closing :: rest) := by
  simp only [Lexeme.lengthOf] at h
  split at h
  next l hl =>
    obtain ⟨rfl, gap', hgap'⟩ := eq_of_closed h hx
    obtain ⟨gap, hgap⟩ := c.exists_gap
    have hletter := Letter.eq_byte_of_ofByte? hl
    refine ⟨l, gap, gap', rfl, ?_⟩
    rw [← hgap', ← Cursor.eq_cons_of_peek hletter l.byte_ne_newline]
    exact hgap
  next => exact absurd (Prod.mk.inj h).1.symm hx

theorem spelled_of_ofToken? {t : Token} {c rest : Cursor} {x : Lexeme}
    (h : Lexeme.ofToken? t c = some (x, rest)) (hx : x ≠ .malformed) :
    ∃ text, Spelled x (t.byte :: text) ∧ c = text ++ rest := by
  cases t with
  | constant =>
    simp only [Lexeme.ofToken?] at h
    split at h
    next name value hvalue =>
      obtain ⟨rfl, rfl⟩ := Prod.mk.inj (Option.some.inj h)
      obtain ⟨k, hk, hget⟩ := exists_namedValue hvalue
      have hne : ∀ k : Fin namedValues.length, 0x80 + k.val.toUInt8 ≠ Ascii.newline := by decide
      obtain rfl : (namedValues.get k).2 = value := congrArg Prod.snd hget
      exact ⟨[_], .constant k, Cursor.eq_cons_of_peek hk (hne k)⟩
    next => exact absurd (Prod.mk.inj (Option.some.inj h)).1.symm hx
  | hex =>
    obtain ⟨digits, hc, rfl⟩ := exists_digits (r := .hex) (Option.some.inj h) hx
    exact ⟨digits.bytes, .literal digits, hc⟩
  | millis =>
    obtain ⟨rfl, gap, hc⟩ := eq_of_closed (Option.some.inj h) hx
    exact ⟨_, .millis gap, by simp [hc]⟩
  | battery =>
    obtain ⟨rfl, gap, hc⟩ := eq_of_closed (Option.some.inj h) hx
    exact ⟨_, .battery gap, by simp [hc]⟩
  | len =>
    obtain ⟨l, gap, gap', rfl, hc⟩ := eq_of_lengthOf (Option.some.inj h) hx
    exact ⟨_, .length gap l gap', by simp [hc]⟩
  | abs =>
    obtain ⟨rfl, rfl⟩ := Prod.mk.inj (Option.some.inj h)
    exact ⟨[], .call .abs, rfl⟩
  | rnd =>
    obtain ⟨rfl, rfl⟩ := Prod.mk.inj (Option.some.inj h)
    exact ⟨[], .call .rnd, rfl⟩
  | pin bank =>
    obtain ⟨rfl, rfl⟩ := Prod.mk.inj (Option.some.inj h)
    exact ⟨[], .call (.pin bank), rfl⟩
  | btGet =>
    obtain ⟨rfl, rfl⟩ := Prod.mk.inj (Option.some.inj h)
    exact ⟨[], .call .btGet, rfl⟩
  | op o =>
    obtain ⟨rfl, rfl⟩ := Prod.mk.inj (Option.some.inj h)
    exact ⟨[], .operator o, rfl⟩
  | _ => simp [Lexeme.ofToken?] at h

theorem spelled_of_read {c rest : Cursor} {x : Lexeme} (h : Lexeme.read c = some (x, rest))
    (hx : x ≠ .malformed) : ∃ text, Spelled x text ∧ c = text ++ rest := by
  cases c with
  | nil => simp [Lexeme.read] at h
  | cons b tail =>
    rw [Lexeme.read] at h
    split_ifs at h with hdigit hopening hclosing hcomma
    · obtain ⟨digits, hc, rfl⟩ := exists_digits (r := .decimal) (Option.some.inj h) hx
      exact ⟨digits.bytes, .literal digits, hc⟩
    · obtain ⟨rfl, rfl⟩ := Prod.mk.inj (Option.some.inj h)
      exact ⟨_, .opening, by rw [hopening]; rfl⟩
    · obtain ⟨rfl, rfl⟩ := Prod.mk.inj (Option.some.inj h)
      exact ⟨_, .closing, by rw [hclosing]; rfl⟩
    · obtain ⟨rfl, rfl⟩ := Prod.mk.inj (Option.some.inj h)
      exact ⟨_, .comma, by rw [hcomma]; rfl⟩
    · split at h
      next l hl =>
        obtain ⟨rfl, rfl⟩ := Prod.mk.inj (Option.some.inj h)
        exact ⟨_, .name l, by rw [Letter.eq_byte_of_ofByte? hl]; rfl⟩
      next =>
        obtain ⟨t, ht, h⟩ := Option.bind_eq_some_iff.mp h
        obtain ⟨text, hspelled, rfl⟩ := spelled_of_ofToken? h hx
        exact ⟨_, hspelled, by rw [Token.eq_byte_of_ofByte? ht]; rfl⟩

theorem exists_spelled {c rest : Cursor} {x : Lexeme} (h : Next c x rest) (hx : x ≠ .malformed) :
    ∃ (gap : Gap) (text : List UInt8), Spelled x text ∧ c = gap.bytes ++ (text ++ rest) := by
  obtain ⟨gap, hgap⟩ := c.exists_gap
  obtain ⟨text, hspelled, htext⟩ := spelled_of_read h hx
  exact ⟨gap, text, hspelled, by rw [← htext]; exact hgap⟩

/-! ## The lexemes of an expression -/

/-- The number of open parentheses after the lexeme; none when the lexeme ends the expression. -/
def depthAfter (depth : Nat) : Lexeme → Option Nat
  | .opening | .call _ => some (depth + 1)
  | .closing => if depth = 0 then none else some (depth - 1)
  | .comma => if depth = 0 then none else some depth
  | _ => some depth

def lexemesFrom : (fuel depth : Nat) → Cursor → List Lexeme
  | 0, _, _ => []
  | fuel + 1, depth, c =>
    match Lexeme.read c.skipBlanks with
    | none => []
    | some (x, rest) =>
      match depthAfter depth x with
      | none => []
      | some depth => x :: lexemesFrom fuel depth rest

def lexemesAt (depth : Nat) (c : Cursor) : List Lexeme := lexemesFrom c.length depth c

/-- The lexemes of the expression that the text starts with. -/
def lexemes (c : Cursor) : List Lexeme := lexemesAt 0 c

theorem lexemesFrom_nil (fuel depth : Nat) : lexemesFrom fuel depth [] = [] := by
  cases fuel <;> rfl

theorem lexemesFrom_fuel {fuel fuel' depth : Nat} {c : Cursor} (h : c.length ≤ fuel)
    (h' : c.length ≤ fuel') : lexemesFrom fuel depth c = lexemesFrom fuel' depth c := by
  induction fuel generalizing fuel' depth c with
  | zero =>
    obtain rfl := List.length_eq_zero_iff.mp (Nat.le_zero.mp h)
    rw [lexemesFrom_nil, lexemesFrom_nil]
  | succ fuel ih =>
    cases fuel' with
    | zero =>
      obtain rfl := List.length_eq_zero_iff.mp (Nat.le_zero.mp h')
      rw [lexemesFrom_nil, lexemesFrom_nil]
    | succ fuel' =>
      simp only [lexemesFrom]
      split
      · rfl
      next x rest hread =>
        have hlt := length_read_lt hread
        have hle := length_skipBlanks_le c
        split
        · rfl
        · exact congrArg _ (ih (by omega) (by omega))

theorem lexemesAt_of_next {c rest : Cursor} {x : Lexeme} (h : Next c x rest) (depth : Nat) :
    lexemesAt depth c =
      match depthAfter depth x with
      | none => []
      | some depth => x :: lexemesAt depth rest := by
  have hread : Lexeme.read c.skipBlanks = some (x, rest) := h
  have hlt := length_read_lt hread
  have hle := length_skipBlanks_le c
  obtain ⟨n, hn⟩ : ∃ n, c.length = n + 1 := ⟨c.length - 1, by omega⟩
  simp only [lexemesAt, hn, lexemesFrom, hread]
  split
  · rfl
  · rw [lexemesFrom_fuel (show rest.length ≤ n by omega) le_rfl]

theorem lexemesAt_of_read_eq_none {c : Cursor} (h : Lexeme.read c.skipBlanks = none) (depth : Nat) :
    lexemesAt depth c = [] := by
  rw [lexemesAt]
  cases c.length with
  | zero => rfl
  | succ n => simp only [lexemesFrom, h]

/-- Reading `xs` leads from the text `c` with `depth` open parentheses to `c'` with `depth'`. -/
inductive Reads : Nat → Cursor → List Lexeme → Nat → Cursor → Prop where
  | nil (depth : Nat) (c : Cursor) : Reads depth c [] depth c
  | cons {depth depth₁ depth' : Nat} {c c₁ c' : Cursor} {x : Lexeme} {xs : List Lexeme}
      (hnext : Next c x c₁) (hdepth : depthAfter depth x = some depth₁)
      (h : Reads depth₁ c₁ xs depth' c') : Reads depth c (x :: xs) depth' c'

namespace Reads

variable {depth depth₁ depth' : Nat} {c c₁ c' : Cursor} {xs ys : List Lexeme}

theorem one {x : Lexeme} (hnext : Next c x c') (hdepth : depthAfter depth x = some depth') :
    Reads depth c [x] depth' c' :=
  .cons hnext hdepth (.nil depth' c')

theorem append (h : Reads depth c xs depth₁ c₁) (h' : Reads depth₁ c₁ ys depth' c') :
    Reads depth c (xs ++ ys) depth' c' := by
  induction h with
  | nil => exact h'
  | cons hnext hdepth _ ih => exact .cons hnext hdepth (ih h')

theorem gap (h : Reads depth c xs depth' c') (hxs : xs ≠ []) (gap : Gap) :
    Reads depth (gap.bytes ++ c) xs depth' c' := by
  cases h with
  | nil => exact absurd rfl hxs
  | cons hnext hdepth h => exact .cons (hnext.gap gap) hdepth h

theorem lexemesAt_eq (h : Reads depth c xs depth' c') :
    lexemesAt depth c = xs ++ lexemesAt depth' c' := by
  induction h with
  | nil => rfl
  | cons hnext hdepth _ ih => simp only [lexemesAt_of_next hnext, hdepth, ih, List.cons_append]

end Reads

end Expr

end FlashBasic
