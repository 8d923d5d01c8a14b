import FlashBasic.Proofs.Expr.Tree

/-!
How trees are written. A `Phrase level` is a written expression whose operators outside parentheses
have at most the precedence `level`, so that a tree has parentheses where the precedences and the
order of equal operators need them; it may have more of them, and blanks. `Phrase.bytes` is its
text and `Phrase.tree` the tree it stands for.

`Next c x rest` says that `x` is the next lexeme of the text `c`. `Follows level rest` says that
`rest` may stand after a phrase of that level, and `Ends mode rest after` that it ends an
expression.
-/

namespace FlashBasic

set_option autoImplicit false

/-! ## Phrases -/

/-- Blanks, if any. -/
structure Gap where
  bytes : List UInt8
  isBlank : ∀ b ∈ bytes, Ascii.isBlank b = true

def Gap.none : Gap := ⟨[], by simp⟩

def Radix.mark : Radix → List UInt8
  | .decimal => []
  | .hex => [Token.hex.byte]

def Builtin.token : Builtin → Token
  | .abs => .abs
  | .rnd => .rnd
  | .pin bank => .pin bank
  | .btGet => .btGet

theorem Operator.three_le_precedence (o : Operator) : 3 ≤ o.precedence := by
  cases o <;> decide

namespace Expr

/-- The level of the operand of a minus sign, which no binary operator has. -/
def tightest : Nat := 2

/-- The level of a whole expression. -/
def loosest : Nat := 10

theorem precedence_le_loosest (o : Operator) : o.precedence ≤ loosest := by
  cases o <;> decide

inductive Phrase : Nat → Type where
  | literal {level : Nat} (r : Radix) (digits : Digits r) : Phrase level
  | constant {level : Nat} (k : Fin namedValues.length) : Phrase level
  | scalar {level : Nat} (name : Letter) : Phrase level
  | millis {level : Nat} (gap : Gap) : Phrase level
  | battery {level : Nat} (gap : Gap) : Phrase level
  | length {level : Nat} (gap : Gap) (name : Letter) (gap' : Gap) : Phrase level
  | call {level : Nat} (f : Builtin) (arg : Phrase loosest) (gap : Gap) : Phrase level
  | element {level : Nat} (name : Letter) (gap : Gap) (index : Phrase loosest) (gap' : Gap) :
      Phrase level
  | negate {level : Nat} (e : Phrase tightest) : Phrase level
  | binary {level : Nat} (o : Operator) (h : o.precedence ≤ level) (left : Phrase o.precedence)
      (gap : Gap) (right : Phrase (o.precedence - 1)) : Phrase level
  | paren {level : Nat} (e : Phrase loosest) (gap : Gap) : Phrase level
  | spaced {level : Nat} (gap : Gap) (e : Phrase level) : Phrase level

namespace Phrase

def opening : UInt8 := Ascii.code '('

def closing : UInt8 := Ascii.code ')'

def bytes {level : Nat} : Phrase level → List UInt8
  | literal r digits => r.mark ++ digits.bytes
  | constant k => [Token.constant.byte, 0x80 + k.val.toUInt8]
  | scalar name => [name.byte]
  | millis gap => Token.millis.byte :: (gap.bytes ++ [closing])
  | battery gap => Token.battery.byte :: (gap.bytes ++ [closing])
  | length gap name gap' => Token.len.byte :: (gap.bytes ++ name.byte :: (gap'.bytes ++ [closing]))
  | call f arg gap => f.token.byte :: (arg.bytes ++ (gap.bytes ++ [closing]))
  | element name gap index gap' =>
    name.byte :: (gap.bytes ++ opening :: (index.bytes ++ (gap'.bytes ++ [closing])))
  | negate e => (Token.op .sub).byte :: e.bytes
  | binary o _ left gap right => left.bytes ++ (gap.bytes ++ (Token.op o).byte :: right.bytes)
  | paren e gap => opening :: (e.bytes ++ (gap.bytes ++ [closing]))
  | spaced gap e => gap.bytes ++ e.bytes

def tree {level : Nat} : Phrase level → Tree
  | literal r digits => .literal r digits
  | constant k => .constant k
  | scalar name => .scalar name
  | millis _ => .millis
  | battery _ => .battery
  | length _ name _ => .length name
  | call f arg _ => .call f arg.tree
  | element name _ index _ => .element name index.tree
  | negate e => .negate e.tree
  | binary o _ left _ right => .binary o left.tree right.tree
  | paren e _ => e.tree
  | spaced _ e => e.tree

/-- How many operators wait at once while the phrase is read. -/
def opDepth {level : Nat} : Phrase level → Nat
  | call _ arg _ => arg.opDepth + 2
  | element _ _ index _ => index.opDepth + 2
  | negate e => e.opDepth + 1
  | binary _ _ left _ right => max left.opDepth (right.opDepth + 1)
  | paren e _ => e.opDepth + 1
  | spaced _ e => e.opDepth
  | _ => 0

/-- How many values wait at once while the phrase is read. -/
def valueDepth {level : Nat} : Phrase level → Nat
  | call _ arg _ => arg.valueDepth
  | element _ _ index _ => index.valueDepth
  | negate e => e.valueDepth
  | binary _ _ left _ right => max left.valueDepth (right.valueDepth + 1)
  | paren e _ => e.valueDepth
  | spaced _ e => e.valueDepth
  | _ => 1

theorem one_le_valueDepth {level : Nat} (p : Phrase level) : 1 ≤ p.valueDepth := by
  induction p with
  | binary o h left gap right ihl ihr => exact le_max_of_le_left ihl
  | call f arg gap ih => exact ih
  | element name gap index gap' ih => exact ih
  | negate e ih => exact ih
  | paren e gap ih => exact ih
  | spaced gap e ih => exact ih
  | _ => exact le_rfl

end Phrase

/-- The tree with no blanks and no more parentheses than it needs. -/
def Tree.write (level : Nat) : Tree → Phrase level
  | literal r digits => .literal r digits
  | constant k => .constant k
  | scalar name => .scalar name
  | millis => .millis .none
  | battery => .battery .none
  | length name => .length .none name .none
  | call f arg => .call f (arg.write loosest) .none
  | element name index => .element name .none (index.write loosest) .none
  | negate e => .negate (e.write tightest)
  | binary o left right =>
    let l := left.write o.precedence
    let r := right.write (o.precedence - 1)
    if h : o.precedence ≤ level then .binary o h l .none r
    else .paren (.binary o (precedence_le_loosest o) l .none r) .none

theorem Tree.tree_write (t : Tree) (level : Nat) : (t.write level).tree = t := by
  induction t generalizing level with
  | binary o left right ihl ihr =>
    simp only [write]
    split <;> simp [Phrase.tree, ihl, ihr]
  | call f arg ih => simp [write, Phrase.tree, ih]
  | element name index ih => simp [write, Phrase.tree, ih]
  | negate e ih => simp [write, Phrase.tree, ih]
  | _ => rfl

/-! ## Reading -/

/-- After blanks, `x` comes next in the text `c` and `rest` after it. -/
def Next (c : Cursor) (x : Lexeme) (rest : Cursor) : Prop :=
  Lexeme.read c.skipBlanks = some (x, rest)

theorem skipBlanks_gap (gap : Gap) (c : Cursor) :
    Cursor.skipBlanks (gap.bytes ++ c) = Cursor.skipBlanks c :=
  List.dropWhile_append_of_pos gap.isBlank

theorem skipBlanks_cons {b : UInt8} (h : Ascii.isBlank b = false) (c : Cursor) :
    Cursor.skipBlanks (b :: c) = b :: c :=
  List.dropWhile_cons_of_neg (by simp [h])

theorem Next.gap {c rest : Cursor} {x : Lexeme} (h : Next c x rest) (gap : Gap) :
    Next (gap.bytes ++ c) x rest := by
  unfold Next
  rw [skipBlanks_gap]
  exact h

/-- The byte of a token is in no class of plain text. -/
theorem token_facts (t : Token) :
    Ascii.isBlank t.byte = false ∧ Ascii.isAlphanum t.byte = false ∧
      Letter.ofByte? t.byte = none ∧ t.byte ≠ Ascii.code '(' ∧ t.byte ≠ Ascii.code ')' ∧
      t.byte ≠ Ascii.code ',' := by
  cases t with
  | pin bank => revert bank; decide
  | op o => cases o <;> decide
  | _ => decide

theorem isDigit_eq_false {b : UInt8} (h : Ascii.isAlphanum b = false) : Ascii.isDigit b = false :=
  (Bool.or_eq_false_iff.mp h).2

theorem digit?_eq_none {b : UInt8} (h : Ascii.isAlphanum b = false) (base : Nat) :
    Ascii.digit? base b = none := by
  obtain ⟨halpha, hdigit⟩ := Bool.or_eq_false_iff.mp h
  simp [Ascii.digit?, halpha, hdigit]

theorem read_token (t : Token) (rest : Cursor) :
    Lexeme.read (t.byte :: rest) = Lexeme.ofToken? t rest := by
  obtain ⟨-, halphanum, hletter, hopening, hclosing, hcomma⟩ := token_facts t
  have hdigit := isDigit_eq_false halphanum
  simp [Lexeme.read, hdigit, hopening, hclosing, hcomma, hletter, Token.ofByte?_byte]

theorem next_token {t : Token} {x : Lexeme} {rest rest' : Cursor}
    (h : Lexeme.ofToken? t rest = some (x, rest')) : Next (t.byte :: rest) x rest' := by
  unfold Next
  rw [skipBlanks_cons (token_facts t).1, read_token, h]

theorem letter_facts (name : Letter) :
    Ascii.isBlank name.byte = false ∧ Ascii.isDigit name.byte = false ∧
      Letter.ofByte? name.byte = some name ∧ name.byte ≠ Ascii.code '(' ∧
      name.byte ≠ Ascii.code ')' ∧ name.byte ≠ Ascii.code ',' := by
  obtain ⟨slot⟩ := name
  revert slot
  decide

theorem next_letter (name : Letter) (rest : Cursor) :
    Next (name.byte :: rest) (.name name) rest := by
  obtain ⟨hblank, hdigit, hletter, hopening, hclosing, hcomma⟩ := letter_facts name
  unfold Next
  rw [skipBlanks_cons hblank]
  simp [Lexeme.read, hdigit, hopening, hclosing, hcomma, hletter]

theorem next_operator (o : Operator) (rest : Cursor) :
    Next ((Token.op o).byte :: rest) (.operator o) rest :=
  next_token rfl

theorem next_call (f : Builtin) (rest : Cursor) : Next (f.token.byte :: rest) (.call f) rest := by
  cases f <;> exact next_token rfl

theorem next_opening (rest : Cursor) : Next (Phrase.opening :: rest) .opening rest :=
  rfl

theorem next_closing (rest : Cursor) : Next (Phrase.closing :: rest) .closing rest :=
  rfl

theorem next_comma (rest : Cursor) : Next (Ascii.code ',' :: rest) .comma rest :=
  rfl

theorem next_constant (k : Fin namedValues.length) (rest : Cursor) :
    Next (Token.constant.byte :: (0x80 + k.val.toUInt8) :: rest)
      (.number (namedValues.get k).2) rest := by
  have hvalue : namedValue? (0x80 + k.val.toUInt8) = some (namedValues.get k) := by
    revert k
    decide
  apply next_token
  simp [Lexeme.ofToken?, Cursor.peek, Cursor.advance, hvalue]

theorem closed_gap (x : Lexeme) (gap : Gap) (rest : Cursor) :
    Lexeme.closed x (gap.bytes ++ Phrase.closing :: rest) = (x, rest) := by
  unfold Lexeme.closed
  rw [skipBlanks_gap]
  rfl

theorem next_millis (gap : Gap) (rest : Cursor) :
    Next (Token.millis.byte :: (gap.bytes ++ Phrase.closing :: rest)) .millis rest := by
  apply next_token
  rw [Lexeme.ofToken?, closed_gap]

theorem next_battery (gap : Gap) (rest : Cursor) :
    Next (Token.battery.byte :: (gap.bytes ++ Phrase.closing :: rest)) .battery rest := by
  apply next_token
  rw [Lexeme.ofToken?, closed_gap]

theorem next_length (gap : Gap) (name : Letter) (gap' : Gap) (rest : Cursor) :
    Next (Token.len.byte :: (gap.bytes ++ name.byte :: (gap'.bytes ++ Phrase.closing :: rest)))
      (.length name) rest := by
  obtain ⟨hblank, -, hletter, -⟩ := letter_facts name
  apply next_token
  simp only [Lexeme.ofToken?, Lexeme.lengthOf, skipBlanks_gap, skipBlanks_cons hblank, Cursor.peek,
    List.headD_cons, hletter]
  rw [Cursor.advance, List.tail_cons, closed_gap]

/-! ## Literals -/

/-- The text does not continue a number. -/
def Apart (rest : Cursor) : Prop :=
  ∀ b ∈ rest.head?, Ascii.isAlphanum b = false

theorem apart_cons {b : UInt8} (h : Ascii.isAlphanum b = false) (rest : Cursor) :
    Apart (b :: rest) := by
  intro c hc
  obtain rfl : b = c := by simpa using hc
  exact h

theorem digits_of_apart {rest : Cursor} (h : Apart rest) (base n : Nat) :
    Number.digits base n rest = ([], rest) := by
  cases n with
  | zero => rfl
  | succ n =>
    cases rest with
    | nil => rfl
    | cons b rest =>
      have hb := digit?_eq_none (h b rfl) base
      simp [Number.digits, hb]

theorem digits_append {rest : Cursor} (h : Apart rest) (base : Nat) (bytes : List UInt8) (n : Nat)
    (hlength : bytes.length ≤ n) (hdigits : ∀ b ∈ bytes, (Ascii.digit? base b).isSome) :
    Number.digits base n (bytes ++ rest) = (bytes.filterMap (Ascii.digit? base), rest) := by
  induction bytes generalizing n with
  | nil => exact digits_of_apart h base n
  | cons b bytes ih =>
    cases n with
    | zero => simp at hlength
    | succ n =>
      obtain ⟨d, hd⟩ := Option.isSome_iff_exists.mp (hdigits b List.mem_cons_self)
      have ih := ih n (by simpa using hlength) fun b hb => hdigits b (List.mem_cons_of_mem _ hb)
      simp [Number.digits, hd, ih]

theorem Digits.values_ne_nil {r : Radix} (digits : Digits r) : digits.values ≠ [] := by
  obtain ⟨b, bytes, hbytes⟩ := List.exists_cons_of_ne_nil digits.nonempty
  obtain ⟨d, hd⟩ := Option.isSome_iff_exists.mp (digits.isSome b (by simp [hbytes]))
  simp [Digits.values, hbytes, hd]

theorem number?_append {r : Radix} (digits : Digits r) {rest : Cursor} (h : Apart rest) :
    Lexeme.number? r.maxLength r.base (digits.bytes ++ rest) =
      (.number (.ofInt digits.value), rest) := by
  have hread : Number.digits r.base r.maxLength (digits.bytes ++ rest) = (digits.values, rest) :=
    digits_append h r.base digits.bytes r.maxLength digits.length_le digits.isSome
  have hvalue : Number.ofDigits r.base digits.values = .ofInt digits.value := by
    rw [Number.ofDigits_eq, Digits.value, Int32.ofInt_eq_ofNat]
  rw [← hvalue]
  obtain ⟨d, ds, hds⟩ := List.exists_cons_of_ne_nil (Digits.values_ne_nil digits)
  rw [hds] at hread ⊢
  simp [Lexeme.number?, hread]

theorem isDigit_of_digit? {b : UInt8} (h : (Ascii.digit? 10 b).isSome) : Ascii.isDigit b := by
  by_contra hdigit
  unfold Ascii.digit? at h
  rw [if_neg hdigit] at h
  split at h <;> simp at h

theorem isBlank_eq_false_of_isDigit {b : UInt8} (h : Ascii.isDigit b) :
    Ascii.isBlank b = false := by
  by_contra hblank
  simp only [Ascii.isBlank, Bool.not_eq_false, Bool.or_eq_true, beq_iff_eq] at hblank
  obtain rfl | rfl := hblank <;> contradiction

theorem next_of_number? {r : Radix} (digits : Digits r) {rest rest' : Cursor} {x : Lexeme}
    (h : Lexeme.number? r.maxLength r.base (digits.bytes ++ rest) = (x, rest')) :
    Next (r.mark ++ (digits.bytes ++ rest)) x rest' := by
  cases r with
  | hex =>
    apply next_token
    exact congrArg some h
  | decimal =>
    obtain ⟨b, bytes, hbytes⟩ := List.exists_cons_of_ne_nil digits.nonempty
    have hdigit := isDigit_of_digit? (digits.isSome b (by simp [hbytes]))
    unfold Next
    rw [hbytes] at h ⊢
    rw [Radix.mark, List.nil_append, List.cons_append,
      skipBlanks_cons (isBlank_eq_false_of_isDigit hdigit), Lexeme.read, if_pos hdigit]
    exact congrArg some h

theorem next_literal {r : Radix} (digits : Digits r) {rest : Cursor} (h : Apart rest) :
    Next (r.mark ++ (digits.bytes ++ rest)) (.number (.ofInt digits.value)) rest :=
  next_of_number? digits (number?_append digits h)

/-! ## What follows a phrase -/

/-- The lexeme makes every operator up to `level` apply. -/
def Releases (level : Nat) : Lexeme → Prop
  | .closing | .comma => True
  | .operator o => level ≤ o.precedence
  | _ => False

/-- The text may stand after a phrase of this level. -/
structure Follows (level : Nat) (rest : Cursor) : Prop where
  apart : Apart rest
  next : ∀ x after, Next rest x after → Releases level x

theorem apart_gap (gap : Gap) {rest : Cursor} (h : Apart rest) : Apart (gap.bytes ++ rest) := by
  intro b hb
  cases hgap : gap.bytes with
  | nil =>
    rw [hgap] at hb
    exact h b hb
  | cons blank bytes =>
    rw [hgap] at hb
    obtain rfl : blank = b := by simpa using hb
    have hblank := gap.isBlank blank (by simp [hgap])
    simp only [Ascii.isBlank, Bool.or_eq_true, beq_iff_eq] at hblank
    obtain rfl | rfl := hblank <;> rfl

namespace Follows

variable {level : Nat}

theorem of_next {rest after : Cursor} {x : Lexeme} (hapart : Apart rest) (hnext : Next rest x after)
    (h : Releases level x) : Follows level rest := by
  refine ⟨hapart, ?_⟩
  intro y after' hy
  obtain ⟨rfl, -⟩ : x = y ∧ after = after' := by
    simpa using hnext.symm.trans hy
  exact h

theorem gap {rest : Cursor} (h : Follows level rest) (gap : Gap) :
    Follows level (gap.bytes ++ rest) := by
  refine ⟨apart_gap gap h.apart, ?_⟩
  intro x after hx
  unfold Next at hx
  rw [skipBlanks_gap] at hx
  exact h.next x after hx

theorem operator {o : Operator} (h : level ≤ o.precedence) (rest : Cursor) :
    Follows level ((Token.op o).byte :: rest) :=
  of_next (apart_cons (token_facts _).2.1 rest) (next_operator o rest) h

theorem closing (rest : Cursor) : Follows level (Phrase.closing :: rest) :=
  of_next (apart_cons rfl rest) (next_closing rest) trivial

theorem comma (rest : Cursor) : Follows level (Ascii.code ',' :: rest) :=
  of_next (apart_cons rfl rest) (next_comma rest) trivial

theorem mono {level' : Nat} {rest : Cursor} (h : Follows level rest) (hle : level' ≤ level) :
    Follows level' rest := by
  refine ⟨h.apart, ?_⟩
  intro x after hx
  have hx := h.next x after hx
  cases x with
  | operator o => exact hle.trans hx
  | closing => trivial
  | comma => trivial
  | _ => exact hx.elim

end Follows

/-- The tokens of statements that may follow an expression. -/
def endTokens : List Token := [.to, .step, .repeat, .gosub]

/-- An expression ends before this text. -/
def Stops : Cursor → Prop
  | [] => True
  | b :: _ => b = Ascii.newline ∨ ∃ t ∈ endTokens, b = t.byte

theorem Stops.facts {rest : Cursor} (h : Stops rest) :
    rest.skipBlanks = rest ∧ Lexeme.read rest = none ∧ Apart rest := by
  cases rest with
  | nil => exact ⟨rfl, rfl, by simp [Apart]⟩
  | cons b rest =>
    obtain rfl | ⟨t, ht, rfl⟩ := h
    · exact ⟨rfl, rfl, apart_cons rfl rest⟩
    · refine ⟨skipBlanks_cons (token_facts t).1 rest, ?_, apart_cons (token_facts t).2.1 rest⟩
      rw [read_token]
      simp only [endTokens, List.mem_cons, List.not_mem_nil, or_false] at ht
      obtain rfl | rfl | rfl | rfl := ht <;> rfl

/-- The text ends an expression, after which `after` is left. -/
inductive Ends : Mode → Cursor → Cursor → Prop where
  | stop (mode : Mode) (gap : Gap) {rest : Cursor} (h : Stops rest) :
      Ends mode (gap.bytes ++ rest) rest
  | closing (gap : Gap) (rest : Cursor) :
      Ends .braces (gap.bytes ++ Phrase.closing :: rest) rest
  | comma (gap : Gap) (rest : Cursor) : Ends .comma (gap.bytes ++ Ascii.code ',' :: rest) rest

theorem Ends.follows {mode : Mode} {rest after : Cursor} (h : Ends mode rest after) (level : Nat) :
    Follows level rest := by
  cases h with
  | stop _ gap hstops =>
    obtain ⟨hskip, hread, hapart⟩ := hstops.facts
    refine Follows.gap ⟨hapart, ?_⟩ gap
    intro x after hx
    rw [Next, hskip, hread] at hx
    contradiction
  | closing gap after => exact (Follows.closing after).gap gap
  | comma gap after => exact (Follows.comma after).gap gap

end Expr

end FlashBasic
