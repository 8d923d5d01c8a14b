import FlashBasic.Proofs.Expr.Counting
import FlashBasic.Proofs.Expr.Lexing
import Mathlib.Data.List.Chain

/-!
Which texts the evaluator accepts. `Begun` says that a text is the start of an expression; it follows
the evaluator through the text, and at the end nothing is open (`sound_of_complete`). `Orderly` lists
what the evaluator does not notice by counting values. The texts that are accepted and orderly are
exactly the written expressions (`isExpression_iff_orderly`).
-/

namespace FlashBasic

set_option autoImplicit false

namespace Expr

/-! ## Order -/

def startsOperand : Lexeme → Bool
  | .operator _ | .closing | .comma | .malformed => false
  | _ => true

section

variable (env : Letter → Binding)

def endsOperand : Lexeme → Bool
  | .number _ | .millis | .battery | .length _ | .closing => true
  | .name l =>
    match env l with
    | .scalar _ => true
    | .array _ => false
  | _ => false

def namesArray : Lexeme → Bool
  | .name l =>
    match env l with
    | .scalar _ => false
    | .array _ => true
  | _ => false

/-- Nothing but an operator joins two operands, and an array comes with its index. -/
def Adjoins (x y : Lexeme) : Prop :=
  (endsOperand env x = true → startsOperand y = false) ∧ (namesArray env x = true → y = .opening)

instance : DecidableRel (Adjoins env) :=
  fun _ _ => inferInstanceAs (Decidable (_ ∧ _))

/-- What is asked of the lexemes of an expression besides the number of values. -/
structure Orderly (xs : List Lexeme) : Prop where
  isChain : xs.IsChain (Adjoins env)
  no_comma : .comma ∉ xs

instance (xs : List Lexeme) : Decidable (Orderly env xs) :=
  decidable_of_iff (xs.IsChain (Adjoins env) ∧ .comma ∉ xs)
    ⟨fun h => ⟨h.1, h.2⟩, fun h => ⟨h.isChain, h.no_comma⟩⟩

end

variable {env : Letter → Binding} {mode : Mode}

theorem endsOperand_name (l : Letter) :
    endsOperand env (.name l) =
      match env l with
      | .scalar _ => true
      | .array _ => false :=
  rfl

theorem endsOperand_scalar {l : Letter} {v : Int32} (h : env l = .scalar v) :
    endsOperand env (.name l) = true := by
  rw [endsOperand_name, h]

theorem endsOperand_array {l : Letter} {bytes : List UInt8} (h : env l = .array bytes) :
    endsOperand env (.name l) = false := by
  rw [endsOperand_name, h]

theorem exists_of_namesArray {x : Lexeme} (h : namesArray env x = true) :
    ∃ l bytes, x = .name l ∧ env l = .array bytes := by
  cases x with
  | name l =>
    cases hl : env l with
    | scalar v => simp [namesArray, hl] at h
    | array bytes => exact ⟨l, bytes, rfl, hl⟩
  | _ => cases h

theorem depthAfter_of_after {s s' : Shape} {x : Lexeme} (h : s.after env x = some s') :
    depthAfter s.depth x = some s'.depth := by
  cases x with
  | name l =>
    simp only [Shape.after] at h
    split at h <;> cases h <;> rfl
  | length l =>
    simp only [Shape.after] at h
    split at h <;> cases h
    rfl
  | operator o =>
    simp only [Shape.after] at h
    split_ifs at h <;> cases h <;> rfl
  | closing =>
    simp only [Shape.after] at h
    split_ifs at h with hdepth
    cases h
    simp [depthAfter, hdepth]
  | comma =>
    simp only [Shape.after] at h
    split_ifs at h with hdepth
    cases h
    simp [depthAfter, hdepth]
  | malformed => cases h
  | _ => cases h; rfl

theorem endsOperand_of_after {s s' : Shape} {x : Lexeme} (h : s.after env x = some s')
    (hwants : s'.wants = false) : endsOperand env x = true := by
  cases x with
  | name l =>
    simp only [Shape.after] at h
    split at h
    next hl => exact endsOperand_scalar hl
    next => cases h; cases hwants
  | operator o =>
    simp only [Shape.after] at h
    split_ifs at h <;> cases h <;> cases hwants
  | comma =>
    simp only [Shape.after] at h
    split_ifs at h
    cases h
    cases hwants
  | opening | call => cases h; cases hwants
  | malformed => cases h
  | _ => rfl

/-- An orderly lexeme never raises the excess over what is due. Where it was below, it stays
below, and a closing parenthesis in place of an operand puts it below. -/
theorem due_of_after {s s' : Shape} {x : Lexeme} (h : s.after env x = some s') (hx : x ≠ .comma)
    (hstart : s.wants = false → startsOperand x = false) (hle : s.excess ≤ s.due) :
    s'.excess ≤ s'.due ∧
      (s'.excess = s'.due → s.excess = s.due ∧ (x = .closing → s.wants = false)) := by
  obtain ⟨excess, depth, wants⟩ := s
  have hwants (hx : startsOperand x = true) : wants = true := by
    cases wants with
    | true => rfl
    | false => cases hx.symm.trans (hstart rfl)
  cases x with
  | name l =>
    obtain rfl := hwants rfl
    simp only [Shape.after] at h
    split at h <;> cases h <;> simp_all [Shape.due, Shape.value, Shape.operator, Op.isBinary]
  | length l =>
    obtain rfl := hwants rfl
    simp only [Shape.after] at h
    split at h <;> cases h
    simp_all [Shape.due, Shape.value]
  | number | millis | battery | opening | call =>
    obtain rfl := hwants rfl
    cases h
    simp_all [Shape.due, Shape.value, Shape.operator, Op.isBinary]
  | operator o =>
    simp only [Shape.after] at h
    split_ifs at h <;> cases h <;> simp_all [Shape.due, Shape.operator, Op.isBinary]
    omega
  | closing =>
    simp only [Shape.after] at h
    split_ifs at h
    cases h
    cases wants <;> simp_all [Shape.due]
    omega
  | comma => exact absurd rfl hx
  | malformed => cases h

/-! ## Written expressions -/

variable (env) in
/-- The text of an expression of this level. -/
def Written (level : Nat) (w : List UInt8) : Prop :=
  ∃ p : Phrase level, p.bytes = w ∧ p.tree.Scoped env

variable (env) in
/-- The text of an operand, which every operator may join. -/
def Operand (w : List UInt8) : Prop := ∀ level, Written env level w

variable (env) in
/-- The start of an expression up to a place where an operand is wanted. -/
def Hole (w : List UInt8) : Prop := ∀ u, Operand env u → Written env loosest (w ++ u)

variable (env) in
/-- The start of an operand that holds an expression and ends with a closing parenthesis. -/
def Opener (w : List UInt8) : Prop := ∀ e (gap : Gap), Written env loosest e →
  Operand env (w ++ (e ++ (gap.bytes ++ [Phrase.closing])))

theorem Operand.spaced {u : List UInt8} (h : Operand env u) (gap : Gap) :
    Operand env (gap.bytes ++ u) := by
  intro level
  obtain ⟨p, rfl, hscoped⟩ := h level
  exact ⟨.spaced gap p, rfl, hscoped⟩

theorem Operand.negate {u : List UInt8} (h : Operand env u) :
    Operand env ((Token.op .sub).byte :: u) := by
  intro level
  obtain ⟨p, rfl, hscoped⟩ := h tightest
  exact ⟨.negate p, rfl, hscoped⟩

theorem Opener.spaced {w : List UInt8} (h : Opener env w) (gap : Gap) :
    Opener env (gap.bytes ++ w) := by
  intro e gap' he
  rw [List.append_assoc]
  exact (h e gap' he).spaced gap

theorem opener_opening : Opener env [Phrase.opening] := by
  rintro e gap ⟨p, rfl, hscoped⟩ level
  exact ⟨.paren p gap, rfl, hscoped⟩

theorem opener_call (f : Builtin) : Opener env [f.token.byte] := by
  rintro e gap ⟨p, rfl, hscoped⟩ level
  exact ⟨.call f p gap, rfl, hscoped⟩

theorem opener_array {l : Letter} {bytes : List UInt8} (h : env l = .array bytes) (gap : Gap) :
    Opener env (l.byte :: (gap.bytes ++ [Phrase.opening])) := by
  rintro e gap' ⟨p, rfl, hscoped⟩ level
  exact ⟨.element l gap p gap', by simp [Phrase.bytes], ⟨bytes, h⟩, hscoped⟩

theorem Written.join {o : Operator} {w u : List UInt8} {level : Nat}
    (hw : Written env o.precedence w) (gap : Gap) (hu : Operand env u) (h : o.precedence ≤ level) :
    Written env level (w ++ (gap.bytes ++ (Token.op o).byte :: u)) := by
  obtain ⟨left, rfl, hleft⟩ := hw
  obtain ⟨right, rfl, hright⟩ := hu (o.precedence - 1)
  exact ⟨.binary o h left gap right, rfl, hleft, hright⟩

/-- An operand that follows belongs to the last part of the expression that the operator may join:
operators that bind less tightly stay outside. -/
theorem Written.attach {o : Operator} {w u : List UInt8} {level level' : Nat}
    (hw : Written env level w) (gap : Gap) (hu : Operand env u) (hlevel : level ≤ level')
    (ho : o.precedence ≤ level') :
    Written env level' (w ++ (gap.bytes ++ (Token.op o).byte :: u)) := by
  obtain ⟨p, rfl, hscoped⟩ := hw
  induction p generalizing level' with
  | literal r digits => exact join ⟨.literal r digits, rfl, hscoped⟩ gap hu ho
  | constant k => exact join ⟨.constant k, rfl, hscoped⟩ gap hu ho
  | scalar name => exact join ⟨.scalar name, rfl, hscoped⟩ gap hu ho
  | millis gap' => exact join ⟨.millis gap', rfl, hscoped⟩ gap hu ho
  | battery gap' => exact join ⟨.battery gap', rfl, hscoped⟩ gap hu ho
  | length gap₁ name gap₂ => exact join ⟨.length gap₁ name gap₂, rfl, hscoped⟩ gap hu ho
  | call f arg gap' => exact join ⟨.call f arg gap', rfl, hscoped⟩ gap hu ho
  | element name gap₁ index gap₂ =>
    exact join ⟨.element name gap₁ index gap₂, rfl, hscoped⟩ gap hu ho
  | negate e => exact join ⟨.negate e, rfl, hscoped⟩ gap hu ho
  | paren e gap' => exact join ⟨.paren e gap', rfl, hscoped⟩ gap hu ho
  | spaced gap' e ih =>
    obtain ⟨q, hq, hscoped⟩ := ih hlevel ho hscoped
    exact ⟨.spaced gap' q, by simp [Phrase.bytes, hq], hscoped⟩
  | binary o' h left gap' right ihl ihr =>
    by_cases hle : o'.precedence ≤ o.precedence
    · exact join ⟨.binary o' hle left gap' right, rfl, hscoped⟩ gap hu ho
    · obtain ⟨q, hq, hright⟩ := ihr le_rfl (by omega) hscoped.2
      exact ⟨.binary o' (h.trans hlevel) left gap' q, by simp [Phrase.bytes, hq], hscoped.1, hright⟩

/-! ## Expressions begun -/

variable (env) in
/-- The text before the innermost of several open parentheses and that parenthesis. -/
inductive Opened : Nat → List UInt8 → Prop where
  | nil : Opened 0 []
  | cons {depth : Nat} {w h opener : List UInt8} (hw : Opened depth w) (hh : Hole env h)
      (hopener : Opener env opener) : Opened (depth + 1) (w ++ (h ++ opener))

variable (env) in
/-- The text is the start of an expression. -/
def Begun (depth : Nat) (wants : Bool) (w : List UInt8) : Prop :=
  ∃ outer e, w = outer ++ e ∧ Opened env depth outer ∧
    if wants then Hole env e else Written env loosest e

namespace Begun

variable {depth : Nat} {w : List UInt8}

theorem empty : Begun env 0 true [] :=
  ⟨[], [], rfl, .nil, fun _ hu => hu loosest⟩

theorem operand {u : List UInt8} (h : Begun env depth true w) (hu : Operand env u) :
    Begun env depth false (w ++ u) := by
  obtain ⟨outer, e, rfl, houter, he⟩ := h
  exact ⟨outer, e ++ u, List.append_assoc _ _ _, houter, he u hu⟩

theorem opener {u : List UInt8} (h : Begun env depth true w) (hu : Opener env u) :
    Begun env (depth + 1) true (w ++ u) := by
  obtain ⟨outer, e, rfl, houter, he⟩ := h
  refine ⟨outer ++ (e ++ u), [], by simp, houter.cons he hu, fun _ hu => hu loosest⟩

theorem minus (h : Begun env depth true w) (gap : Gap) :
    Begun env depth true (w ++ (gap.bytes ++ [(Token.op .sub).byte])) := by
  obtain ⟨outer, e, rfl, houter, he⟩ := h
  refine ⟨outer, _, List.append_assoc _ _ _, houter, fun u hu => ?_⟩
  have hu := he _ (hu.negate.spaced gap)
  simpa using hu

theorem operator (h : Begun env depth false w) (gap : Gap) (o : Operator) :
    Begun env depth true (w ++ (gap.bytes ++ [(Token.op o).byte])) := by
  obtain ⟨outer, e, rfl, houter, he⟩ := h
  refine ⟨outer, _, List.append_assoc _ _ _, houter, fun u hu => ?_⟩
  have hu := he.attach gap hu le_rfl (precedence_le_loosest o)
  simpa using hu

theorem closing (h : Begun env (depth + 1) false w) (gap : Gap) :
    Begun env depth false (w ++ (gap.bytes ++ [Phrase.closing])) := by
  obtain ⟨outer, e, rfl, houter, he⟩ := h
  cases houter with
  | @cons _ outer h opener houter hh hopener =>
    have hclosed := hh _ (hopener e gap he)
    exact ⟨outer, _, by simp, houter, hclosed⟩

theorem written (h : Begun env 0 false w) : Written env loosest w := by
  obtain ⟨outer, e, rfl, houter, he⟩ := h
  cases houter
  exact he

end Begun

/-! ## Orderly texts are expressions -/

/-- What ends an expression in this mode and is read with it. -/
def terminator : Mode → List UInt8
  | .normal => []
  | .braces => [Phrase.closing]
  | .comma => [Ascii.code ',']

variable (env mode) in
/-- The text before `rest` is a written expression, what ends it apart. -/
def IsExpression (c rest : Cursor) : Prop :=
  ∃ (p : Phrase loosest) (gap : Gap) (ending : List UInt8), p.tree.Scoped env ∧
    (ending = [] ∨ ending = terminator mode) ∧ c = p.bytes ++ (gap.bytes ++ (ending ++ rest))

variable (env mode) in
/-- The values that wait are those due, and `c` completes the expressions begun before. -/
def Sound (s : Shape) (c rest : Cursor) : Prop :=
  s.excess = s.due ∧ ∀ w, Begun env s.depth s.wants w → IsExpression env mode (w ++ c) rest

theorem Sound.of_next {s s' : Shape} {c c' rest : Cursor} (h : Sound env mode s' c' rest)
    (piece : List UInt8) (hc : c = piece ++ c') (hdue : s.excess = s.due)
    (hbegun : ∀ w, Begun env s.depth s.wants w → Begun env s'.depth s'.wants (w ++ piece)) :
    Sound env mode s c rest := by
  refine ⟨hdue, fun w hw => ?_⟩
  rw [hc, ← List.append_assoc]
  exact h.2 _ (hbegun w hw)

theorem Sound.of_end {s : Shape} {c rest : Cursor} {gap : Gap} {ending : List UInt8}
    (hending : ending = [] ∨ ending = terminator mode) (hc : c = gap.bytes ++ (ending ++ rest))
    (hexcess : s.excess = 1) (hdepth : s.depth = 0) (hle : s.excess ≤ s.due) :
    Sound env mode s c rest := by
  obtain ⟨excess, depth, wants⟩ := s
  obtain ⟨rfl, rfl⟩ : excess = 1 ∧ depth = 0 := ⟨hexcess, hdepth⟩
  cases wants with
  | true => exact absurd hle (by simp [Shape.due])
  | false =>
    refine ⟨rfl, fun w hw => ?_⟩
    obtain ⟨p, rfl, hscoped⟩ := hw.written
    exact ⟨p, gap, ending, hscoped, hending, by rw [hc]⟩

theorem spelled_terminator {x : Lexeme} {text : List UInt8} (h : terminates mode x = true)
    (hspelled : Spelled x text) : text = terminator mode := by
  cases mode <;> cases hspelled <;> first | rfl | cases h

theorem Begun.next {s s' : Shape} {x : Lexeme} {text w : List UInt8} (hw : Begun env s.depth s.wants w)
    (hafter : s.after env x = some s') (hspelled : Spelled x text)
    (hstart : s.wants = false → startsOperand x = false) (hclosing : x = .closing → s.wants = false)
    (hcomma : x ≠ .comma) (harray : namesArray env x = false) (gap : Gap) :
    Begun env s'.depth s'.wants (w ++ (gap.bytes ++ text)) := by
  obtain ⟨excess, depth, wants⟩ := s
  have hwants (hx : startsOperand x = true) : wants = true := by
    cases wants with
    | true => rfl
    | false => cases hx.symm.trans (hstart rfl)
  have hoperand (hx : startsOperand x = true) (hs' : s'.depth = depth ∧ s'.wants = false)
      (htext : Operand env text) : Begun env s'.depth s'.wants (w ++ (gap.bytes ++ text)) := by
    obtain rfl := hwants hx
    rw [hs'.1, hs'.2]
    exact hw.operand (htext.spaced gap)
  cases hspelled with
  | literal digits =>
    cases hafter
    exact hoperand rfl ⟨rfl, rfl⟩ fun level => ⟨.literal _ digits, rfl, trivial⟩
  | constant k =>
    cases hafter
    exact hoperand rfl ⟨rfl, rfl⟩ fun level => ⟨.constant k, rfl, trivial⟩
  | millis gap' =>
    cases hafter
    exact hoperand rfl ⟨rfl, rfl⟩ fun level => ⟨.millis gap', rfl, trivial⟩
  | battery gap' =>
    cases hafter
    exact hoperand rfl ⟨rfl, rfl⟩ fun level => ⟨.battery gap', rfl, trivial⟩
  | length gap₁ l gap₂ =>
    simp only [Shape.after] at hafter
    split at hafter <;> cases hafter
    next bytes hl =>
      exact hoperand rfl ⟨rfl, rfl⟩ fun level => ⟨.length gap₁ l gap₂, rfl, bytes, hl⟩
  | name l =>
    simp only [Shape.after] at hafter
    split at hafter
    next v hl =>
      cases hafter
      exact hoperand rfl ⟨rfl, rfl⟩ fun level => ⟨.scalar l, rfl, v, hl⟩
    next bytes hl => simp [namesArray, hl] at harray
  | opening =>
    obtain rfl := hwants rfl
    cases hafter
    exact hw.opener (opener_opening.spaced gap)
  | call f =>
    obtain rfl := hwants rfl
    cases hafter
    exact hw.opener ((opener_call f).spaced gap)
  | operator o =>
    simp only [Shape.after] at hafter
    split_ifs at hafter with h ho <;> cases hafter
    · obtain rfl : wants = true := h
      rw [ho]
      exact hw.minus gap
    · obtain rfl : wants = false := by simpa using h
      exact hw.operator gap o
  | closing =>
    obtain rfl : wants = false := hclosing rfl
    simp only [Shape.after] at hafter
    split_ifs at hafter with hdepth
    cases hafter
    obtain ⟨n, rfl⟩ := Nat.exists_eq_succ_of_ne_zero hdepth
    exact hw.closing gap
  | comma => exact absurd rfl hcomma

variable (env) in
/-- The lexemes to come are orderly and may come here. -/
structure Ready (s : Shape) (c : Cursor) : Prop where
  orderly : Orderly env (lexemesAt s.depth c)
  start : ∀ x ∈ (lexemesAt s.depth c).head?, s.wants = false → startsOperand x = false
  le_due : s.excess ≤ s.due

theorem lexemesAt_of_after {s s' : Shape} {x : Lexeme} {c c' : Cursor} (hnext : Next c x c')
    (hafter : s.after env x = some s') :
    lexemesAt s.depth c = x :: lexemesAt s'.depth c' := by
  rw [lexemesAt_of_next hnext, depthAfter_of_after hafter]

theorem Next.unique {c c₁ c₂ : Cursor} {x y : Lexeme} (h : Next c x c₁) (h' : Next c y c₂) :
    x = y ∧ c₁ = c₂ := by
  simpa using h.symm.trans h'

theorem Next.length_lt {c c' : Cursor} {x : Lexeme} (h : Next c x c') : c'.length < c.length :=
  (length_read_lt h).trans_le (length_skipBlanks_le c)

theorem Ready.next {s s' : Shape} {x : Lexeme} {c c' : Cursor} (h : Ready env s c)
    (hnext : Next c x c') (hafter : s.after env x = some s') : Ready env s' c' := by
  have hlexemes := lexemesAt_of_after hnext hafter
  obtain ⟨⟨hchain, hcomma⟩, hstart, hle⟩ := h
  rw [hlexemes] at hchain hcomma hstart
  obtain ⟨hadjoins, hchain⟩ := List.isChain_cons.mp hchain
  obtain ⟨hx, hcomma⟩ : .comma ≠ x ∧ .comma ∉ lexemesAt s'.depth c' := by simpa using hcomma
  refine ⟨⟨hchain, hcomma⟩, fun y hy hwants => ?_, ?_⟩
  · exact (hadjoins y hy).1 (endsOperand_of_after hafter hwants)
  · exact (due_of_after hafter hx.symm (hstart x rfl) hle).1

section

variable {σ : Type} [Sensors σ]

theorem sound_of_complete {p : Pending} {c rest : Cursor} {v : Int32} {s s' : σ}
    (h : (complete env mode p c : Action σ _).exec s = (.ok (v, rest), s'))
    (hready : Ready env p.shape c) : Sound env mode p.shape c rest := by
  induction hn : c.length using Nat.strong_induction_on generalizing p c s with
  | _ n ih =>
  obtain ⟨hread, hrest, hexcess, hdepth⟩ | ⟨x, hnext, hx, hexcess, hdepth⟩ |
    ⟨x, c₁, p₁, s₁, hnext, hafter, h₁⟩ := complete_cases h
  · obtain ⟨gap, hgap⟩ := c.exists_gap
    exact .of_end (.inl rfl) (hrest ▸ hgap) hexcess hdepth hready.le_due
  · have hmalformed : x ≠ .malformed := by
      rintro rfl
      cases mode <;> cases hx
    obtain ⟨gap, text, hspelled, hc⟩ := exists_spelled hnext hmalformed
    exact .of_end (.inr (spelled_terminator hx hspelled)) hc hexcess hdepth hready.le_due
  · have hmalformed : x ≠ .malformed := by
      rintro rfl
      cases hafter
    obtain ⟨gap, text, hspelled, hc⟩ := exists_spelled hnext hmalformed
    have hlexemes := lexemesAt_of_after hnext hafter
    have hcomma : x ≠ .comma := by
      rintro rfl
      exact hready.orderly.no_comma (by simp [hlexemes])
    have hstart : p.shape.wants = false → startsOperand x = false :=
      hready.start x (by simp [hlexemes])
    have hready₁ := hready.next hnext hafter
    have hsound := ih _ (hn ▸ hnext.length_lt) h₁ hready₁ rfl
    obtain ⟨hexcess, hclosing⟩ := (due_of_after hafter hcomma hstart hready.le_due).2 hsound.1
    by_cases harray : namesArray env x = true
    · obtain ⟨l, bytes, rfl, hl⟩ := exists_of_namesArray harray
      have hwants : p.shape.wants = true := by
        by_contra hwants
        cases hstart (by simpa using hwants)
      have hp₁ : p₁.shape = p.shape.operator (.index l) := by
        simpa [Shape.after, hl] using hafter.symm
      -- The count leaves no end right after the name, so its parenthesis comes next.
      have hne : p₁.shape.excess ≠ 1 := by
        rw [hsound.1, hp₁]
        simp [Shape.due, Shape.operator]
      obtain ⟨-, -, hone, -⟩ | ⟨-, -, -, hone, -⟩ | ⟨y, c₂, p₂, s₂, hnext₂, hafter₂, h₂⟩ :=
        complete_cases h₁
      · exact absurd hone hne
      · exact absurd hone hne
      have hlexemes₁ := lexemesAt_of_after hnext₂ hafter₂
      have hchain := hready.orderly.isChain
      rw [hlexemes, hlexemes₁, List.isChain_cons_cons] at hchain
      obtain rfl : y = .opening := hchain.1.2 harray
      obtain ⟨gap₂, text₂, hspelled₂, hc₂⟩ := exists_spelled hnext₂ (by simp)
      cases hspelled
      cases hspelled₂
      have hp₂ : p₂.shape = (p.shape.operator (.index l)).operator .paren := by
        simpa [Shape.after, hp₁] using hafter₂.symm
      have hlt := hnext₂.length_lt.trans hnext.length_lt
      have hsound₂ := ih _ (hn ▸ hlt) h₂ (hready₁.next hnext₂ hafter₂) rfl
      refine hsound₂.of_next (gap.bytes ++ l.byte :: (gap₂.bytes ++ [Phrase.opening]))
        (by simp [hc, hc₂]) hexcess fun w hw => ?_
      rw [hwants] at hw
      rw [hp₂]
      exact hw.opener ((opener_array hl gap₂).spaced gap)
    · refine hsound.of_next (gap.bytes ++ text) (by simp [hc]) hexcess fun w hw => ?_
      exact hw.next hafter hspelled hstart hclosing hcomma (by simpa using harray) gap

/-- What was read is in front of what is left. -/
theorem Next.suffix {c rest : Cursor} {x : Lexeme} (h : Next c x rest) (hx : x ≠ .malformed) :
    rest <:+ c := by
  obtain ⟨gap, text, -, hc⟩ := exists_spelled h hx
  exact ⟨gap.bytes ++ text, by rw [hc, List.append_assoc]⟩

theorem suffix_of_complete {p : Pending} {c rest : Cursor} {v : Int32} {s s' : σ}
    (h : (complete env mode p c : Action σ _).exec s = (.ok (v, rest), s')) : rest <:+ c := by
  induction hn : c.length using Nat.strong_induction_on generalizing p c s with
  | _ n ih =>
  obtain ⟨-, rfl, -⟩ | ⟨x, hnext, hx, -⟩ | ⟨x, c₁, p₁, s₁, hnext, hafter, h₁⟩ := complete_cases h
  · exact List.dropWhile_suffix _
  · refine hnext.suffix ?_
    rintro rfl
    cases mode <;> cases hx
  · have hsuffix := hnext.suffix (x := x) <| by
      rintro rfl
      cases hafter
    exact (ih _ (hn ▸ hnext.length_lt) h₁ rfl).trans hsuffix

theorem length_le_of_complete {p : Pending} {c rest : Cursor} {v : Int32} {s s' : σ}
    (h : (complete env mode p c : Action σ _).exec s = (.ok (v, rest), s')) :
    rest.length ≤ c.length :=
  (suffix_of_complete h).length_le

theorem depthAfter_of_terminates {x : Lexeme} (h : terminates mode x = true) :
    depthAfter 0 x = none := by
  cases mode <;> cases x <;> first | rfl | cases h

/-- An evaluation goes through what is read on the way. -/
theorem Reads.complete {p : Pending} {c c' rest : Cursor} {xs : List Lexeme} {depth' : Nat}
    {v : Int32} {s s' : σ} (hreads : Reads p.shape.depth c xs depth' c')
    (h : (complete env mode p c : Action σ _).exec s = (.ok (v, rest), s')) :
    ∃ (p' : Pending) (t : σ), p'.shape.depth = depth' ∧
      (Expr.complete env mode p' c' : Action σ _).exec t = (.ok (v, rest), s') := by
  generalize hd : p.shape.depth = depth at hreads
  induction hreads generalizing p s with
  | nil => exact ⟨p, s, hd, h⟩
  | @cons _ _ _ c c₁ _ x _ hnext hdepth _ ih =>
    obtain ⟨hread, -⟩ | ⟨y, hnext', hterm, -, hzero⟩ | ⟨y, c₁', p₁, s₁, hnext', hafter, h₁⟩ :=
      complete_cases h
    · cases hread.symm.trans hnext
    · obtain ⟨rfl, -⟩ := hnext.unique hnext'
      rw [← hd, hzero, depthAfter_of_terminates hterm] at hdepth
      cases hdepth
    · obtain ⟨rfl, rfl⟩ := hnext.unique hnext'
      rw [← hd, depthAfter_of_after hafter] at hdepth
      exact ih h₁ (Option.some.inj hdepth)

end

/-! ## Expressions are orderly -/

theorem adjoins_of_ends {x y : Lexeme} (hx : endsOperand env x = true)
    (hy : startsOperand y = false) : Adjoins env x y := by
  refine ⟨fun _ => hy, fun harray => ?_⟩
  obtain ⟨l, bytes, rfl, hl⟩ := exists_of_namesArray harray
  rw [endsOperand_array hl] at hx
  cases hx

theorem adjoins_of_not_ends {x : Lexeme} (hx : endsOperand env x = false)
    (hname : namesArray env x = false) (y : Lexeme) : Adjoins env x y :=
  ⟨fun h => (Bool.eq_false_iff.mp hx h).elim, fun h => (Bool.eq_false_iff.mp hname h).elim⟩

variable (env) in
/-- The lexemes of a whole expression. -/
structure Spans (xs : List Lexeme) : Prop extends Orderly env xs where
  ends : ∃ x, xs.getLast? = some x ∧ endsOperand env x = true

namespace Spans

variable {x : Lexeme} {xs ys : List Lexeme}

theorem ne_nil (h : Spans env xs) : xs ≠ [] := by
  rintro rfl
  obtain ⟨x, hx, -⟩ := h.ends
  cases hx

theorem one (hx : endsOperand env x = true) (hcomma : .comma ≠ x) : Spans env [x] where
  isChain := .singleton x
  no_comma := by simpa using hcomma
  ends := ⟨x, rfl, hx⟩

theorem cons (h : Spans env xs) (hx : ∀ y ∈ xs.head?, Adjoins env x y) (hcomma : .comma ≠ x) :
    Spans env (x :: xs) where
  isChain := List.isChain_cons.mpr ⟨hx, h.isChain⟩
  no_comma := by simpa [hcomma] using h.no_comma
  ends := by
    obtain ⟨y, hy, hends⟩ := h.ends
    exact ⟨y, by simp [List.getLast?_cons, hy], hends⟩

theorem append (h : Spans env xs) (hx : startsOperand x = false) (h' : Spans env (x :: ys)) :
    Spans env (xs ++ x :: ys) where
  isChain := by
    refine List.isChain_append.mpr ⟨h.isChain, h'.isChain, fun z hz y hy => ?_⟩
    obtain ⟨w, hw, hends⟩ := h.ends
    obtain rfl : w = z := by simpa [hw] using hz
    obtain rfl : x = y := by simpa using hy
    exact adjoins_of_ends hends hx
  no_comma := by
    rw [List.mem_append, not_or]
    exact ⟨h.no_comma, h'.no_comma⟩
  ends := by
    obtain ⟨y, hy, hends⟩ := h'.ends
    exact ⟨y, by simp [List.getLast?_append, hy], hends⟩

theorem close (h : Spans env xs) : Spans env (xs ++ [.closing]) :=
  h.append rfl (one rfl (by simp))

end Spans

theorem digits_append_suffix (base : Nat) (bytes : List UInt8) (n : Nat) (rest : Cursor)
    (hlength : bytes.length ≤ n) (hdigits : ∀ b ∈ bytes, (Ascii.digit? base b).isSome) :
    ∃ ds rest', rest' <:+ rest ∧
      Number.digits base n (bytes ++ rest) = (bytes.filterMap (Ascii.digit? base) ++ ds, rest') := by
  induction bytes generalizing n with
  | nil =>
    obtain ⟨bytes, hrest, -⟩ := digits_spec base n rest
    exact ⟨_, _, ⟨bytes, hrest.symm⟩, rfl⟩
  | cons b bytes ih =>
    cases n with
    | zero => simp at hlength
    | succ n =>
      obtain ⟨d, hd⟩ := Option.isSome_iff_exists.mp (hdigits b List.mem_cons_self)
      obtain ⟨ds, rest', hsuffix, hread⟩ :=
        ih n (by simpa using hlength) fun b hb => hdigits b (List.mem_cons_of_mem _ hb)
      exact ⟨ds, rest', hsuffix, by simp [Number.digits, hd, hread]⟩

/-- A literal may take in digits that follow it. -/
theorem next_literal_suffix {r : Radix} (digits : Digits r) (rest : Cursor) :
    ∃ v rest', Next (r.mark ++ (digits.bytes ++ rest)) (.number v) rest' ∧ rest' <:+ rest ∧
      (Apart rest → rest' = rest) := by
  by_cases hapart : Apart rest
  · exact ⟨_, rest, next_literal digits hapart, List.suffix_rfl, fun _ => rfl⟩
  · obtain ⟨ds, rest', hsuffix, hread⟩ :=
      digits_append_suffix r.base digits.bytes r.maxLength rest digits.length_le digits.isSome
    obtain ⟨d, values, hvalues⟩ := List.exists_cons_of_ne_nil (Digits.values_ne_nil digits)
    rw [Digits.values] at hvalues
    rw [hvalues] at hread
    have hnumber : Lexeme.number? r.maxLength r.base (digits.bytes ++ rest) =
        (.number (Number.ofDigits r.base (d :: values ++ ds)), rest') := by
      simp only [Lexeme.number?, hread, List.cons_append]
    exact ⟨_, rest', next_of_number? digits hnumber, hsuffix, fun h => absurd h hapart⟩

variable (env) in
/-- Reading the text `w` before `tail` gives the lexemes of an expression and leaves `tail`, of which a
literal at the end of `w` may have taken in the first digits. -/
def Lexes (w tail : List UInt8) : Prop := ∀ depth, ∃ xs tail', Reads depth (w ++ tail) xs depth tail' ∧
  tail' <:+ tail ∧ (Apart tail → tail' = tail) ∧ Spans env xs

namespace Lexes

variable {w tail : List UInt8}

theorem one {x : Lexeme} (hnext : Next (w ++ tail) x tail) (hends : endsOperand env x = true)
    (hdepth : ∀ depth, depthAfter depth x = some depth) : Lexes env w tail := by
  intro depth
  have hcomma : Lexeme.comma ≠ x := by
    rintro rfl
    cases hdepth 0
  exact ⟨[x], tail, .one hnext (hdepth depth), List.suffix_rfl, fun _ => rfl, .one hends hcomma⟩

/-- The lexemes of an expression in parentheses, up to the closing one. -/
theorem argument (gap : Gap) (h : Lexes env w (gap.bytes ++ Phrase.closing :: tail)) (depth : Nat) :
    ∃ xs, Reads (depth + 1) (w ++ (gap.bytes ++ Phrase.closing :: tail)) xs depth tail ∧
      Spans env xs := by
  obtain ⟨xs, tail', hreads, -, htail, hspans⟩ := h (depth + 1)
  obtain rfl := htail (apart_gap gap (apart_cons rfl tail))
  exact ⟨_, hreads.append (.one ((next_closing tail).gap gap) rfl), hspans.close⟩

end Lexes

theorem lexes_phrase {level : Nat} (p : Phrase level) (hscoped : p.tree.Scoped env)
    (tail : List UInt8) : Lexes env p.bytes tail := by
  induction p generalizing tail with
  | literal r digits =>
    intro depth
    obtain ⟨v, tail', hnext, hsuffix, htail⟩ := next_literal_suffix digits tail
    rw [Phrase.bytes, List.append_assoc]
    exact ⟨_, tail', .one hnext rfl, hsuffix, htail, .one rfl (by simp)⟩
  | constant k => exact .one (next_constant k tail) rfl fun _ => rfl
  | scalar name =>
    obtain ⟨v, hv⟩ := hscoped
    exact .one (next_letter name tail) (endsOperand_scalar hv) fun _ => rfl
  | millis gap =>
    refine .one (x := .millis) ?_ rfl fun _ => rfl
    simpa [Phrase.bytes] using next_millis gap tail
  | battery gap =>
    refine .one (x := .battery) ?_ rfl fun _ => rfl
    simpa [Phrase.bytes] using next_battery gap tail
  | length gap name gap' =>
    refine .one (x := .length name) ?_ rfl fun _ => rfl
    simpa [Phrase.bytes] using next_length gap name gap' tail
  | call f arg gap ih =>
    intro depth
    obtain ⟨xs, hreads, hspans⟩ := (ih hscoped (gap.bytes ++ Phrase.closing :: tail)).argument gap depth
    refine ⟨.call f :: xs, tail, ?_, List.suffix_rfl, fun _ => rfl, ?_⟩
    · simpa [Phrase.bytes] using Reads.cons (next_call f _) rfl hreads
    · exact hspans.cons (fun y _ => adjoins_of_not_ends rfl rfl y) (by simp)
  | element name gap index gap' ih =>
    intro depth
    obtain ⟨⟨bytes, hname⟩, hindex⟩ := hscoped
    obtain ⟨xs, hreads, hspans⟩ := (ih hindex (gap'.bytes ++ Phrase.closing :: tail)).argument gap' depth
    refine ⟨.name name :: .opening :: xs, tail, ?_, List.suffix_rfl, fun _ => rfl, ?_⟩
    · have hopening := Reads.cons ((next_opening _).gap gap) rfl hreads
      simpa [Phrase.bytes] using Reads.cons (next_letter name _) rfl hopening
    · have hopening := hspans.cons (x := .opening)
        (fun y _ => adjoins_of_not_ends rfl rfl y) (by simp)
      refine hopening.cons (fun y hy => ?_) (by simp)
      obtain rfl : .opening = y := by simpa using hy
      exact ⟨fun hends => absurd hends (by simp [endsOperand_array hname]), fun _ => rfl⟩
  | negate e ih =>
    intro depth
    obtain ⟨xs, tail', hreads, hsuffix, htail, hspans⟩ := ih hscoped tail depth
    refine ⟨.operator .sub :: xs, tail', ?_, hsuffix, htail, ?_⟩
    · exact .cons (next_operator .sub _) rfl hreads
    · exact hspans.cons (fun y _ => adjoins_of_not_ends rfl rfl y) (by simp)
  | binary o h left gap right ihl ihr =>
    intro depth
    obtain ⟨ys, tail', hreads', hsuffix, htail, hspans'⟩ := ihr hscoped.2 tail depth
    let after := gap.bytes ++ (Token.op o).byte :: (right.bytes ++ tail)
    obtain ⟨xs, after', hreads, -, hafter, hspans⟩ := ihl hscoped.1 after depth
    obtain rfl := hafter (apart_gap gap (apart_cons (token_facts _).2.1 _))
    have hoperator := Reads.cons ((next_operator o _).gap gap) rfl hreads'
    refine ⟨xs ++ .operator o :: ys, tail', ?_, hsuffix, htail, ?_⟩
    · simpa [Phrase.bytes] using hreads.append hoperator
    · exact hspans.append rfl
        (hspans'.cons (fun y _ => adjoins_of_not_ends rfl rfl y) (by simp))
  | paren e gap ih =>
    intro depth
    obtain ⟨xs, hreads, hspans⟩ := (ih hscoped (gap.bytes ++ Phrase.closing :: tail)).argument gap depth
    refine ⟨.opening :: xs, tail, ?_, List.suffix_rfl, fun _ => rfl, ?_⟩
    · simpa [Phrase.bytes] using Reads.cons (next_opening _) rfl hreads
    · exact hspans.cons (fun y _ => adjoins_of_not_ends rfl rfl y) (by simp)
  | spaced gap e ih =>
    intro depth
    obtain ⟨xs, tail', hreads, hsuffix, htail, hspans⟩ := ih hscoped tail depth
    rw [Phrase.bytes, List.append_assoc]
    exact ⟨xs, tail', hreads.gap hspans.ne_nil gap, hsuffix, htail, hspans⟩

theorem ending_cases {ending : List UInt8} (rest : Cursor)
    (h : ending = [] ∨ ending = terminator mode) :
    ending = [] ∨ ∃ x, terminates mode x = true ∧ Next (ending ++ rest) x rest ∧
      Apart (ending ++ rest) := by
  obtain rfl | rfl := h
  · exact .inl rfl
  · cases mode with
    | normal => exact .inl rfl
    | braces => exact .inr ⟨.closing, rfl, next_closing rest, apart_cons rfl rest⟩
    | comma => exact .inr ⟨.comma, rfl, next_comma rest, apart_cons rfl rest⟩

theorem length_skipBlanks_le_of_suffix {gap : Gap} {tail rest : Cursor}
    (hsuffix : tail <:+ gap.bytes ++ ([] ++ rest))
    (htail : Apart (gap.bytes ++ ([] ++ rest)) → tail = gap.bytes ++ ([] ++ rest)) :
    tail.skipBlanks.length ≤ rest.length := by
  cases hgap : gap.bytes with
  | nil =>
    rw [hgap] at hsuffix
    exact (length_skipBlanks_le tail).trans hsuffix.length_le
  | cons b bytes =>
    have hapart : Apart (gap.bytes ++ ([] ++ rest)) := by
      intro a ha
      have hnil : Apart [] := by simp [Apart]
      exact apart_gap gap hnil a (by simpa [hgap] using ha)
    rw [htail hapart, skipBlanks_gap]
    exact length_skipBlanks_le rest

section

variable {σ : Type} [Sensors σ]

theorem orderly_of_isExpression {p : Pending} {c rest : Cursor} {v : Int32} {s s' : σ}
    (hdepth : p.shape.depth = 0)
    (h : (complete env mode p c : Action σ _).exec s = (.ok (v, rest), s'))
    (hexpr : IsExpression env mode c rest) : Orderly env (lexemes c) := by
  obtain ⟨q, gap, ending, hscoped, hending, rfl⟩ := hexpr
  obtain ⟨xs, tail, hreads, hsuffix, htail, hspans⟩ := lexes_phrase q hscoped _ 0
  rw [← hdepth] at hreads
  obtain ⟨p', t, hdepth', h'⟩ := hreads.complete h
  rw [hdepth] at hdepth' hreads
  have hnil : lexemesAt 0 tail = [] := by
    obtain ⟨hread, -⟩ | ⟨x, hnext, hx, -⟩ | ⟨x, c₁, p₁, s₁, hnext, hafter, h₁⟩ := complete_cases h'
    · exact lexemesAt_of_read_eq_none hread 0
    · rw [lexemesAt_of_next hnext, depthAfter_of_terminates hx]
    · -- A lexeme after the phrase would be read beyond `rest`, or it is the one that ends the text.
      obtain rfl | ⟨y, hy, hnexty⟩ := ending_cases rest hending
      · have hlt := (length_le_of_complete h₁).trans_lt (length_read_lt hnext)
        exact absurd (length_skipBlanks_le_of_suffix hsuffix htail) (not_le_of_gt hlt)
      · obtain rfl := htail (apart_gap gap hnexty.2)
        obtain ⟨rfl, -⟩ := hnext.unique (hnexty.1.gap gap)
        have hsome := depthAfter_of_after hafter
        rw [hdepth', depthAfter_of_terminates hy] at hsome
        cases hsome
  rw [lexemes, hreads.lexemesAt_eq, hnil, List.append_nil]
  exact hspans.toOrderly

/-- Where the evaluator succeeds, it has read a written expression exactly if the lexemes are orderly.
An operator without an operand, an empty parenthesis and one that is not closed are noticed by the
number of values that is left. -/
theorem isExpression_iff_orderly {c rest : Cursor} {v : Int32} {s s' : σ}
    (h : (evaluate env mode c : Action σ _).exec s = (.ok (v, rest), s')) :
    IsExpression env mode c rest ↔ Orderly env (lexemes c) := by
  refine ⟨orderly_of_isExpression (p := {}) rfl h, fun horderly => ?_⟩
  have hready : Ready env ({} : Pending).shape c := ⟨horderly, by simp [Pending.shape], le_rfl⟩
  exact (sound_of_complete h hready).2 [] .empty

/-- Written `-2*(A(1)+3)` before a comma. -/
theorem isExpression_iff_orderly_before_comma :
    let env : Letter → Binding := fun _ => .array [5, 9]
    let c := (Token.op .sub).byte :: Ascii.code '2' :: (Token.op .mul).byte :: Ascii.code '(' ::
      Ascii.code 'A' :: Ascii.code '(' :: Ascii.code '1' :: Ascii.code ')' ::
      (Token.op .add).byte :: Ascii.code '3' :: Ascii.code ')' :: Ascii.code ',' :: [Ascii.newline]
    (evaluate env .comma c).exec ({} : Recorder) = (.ok (-24, [Ascii.newline]), {}) ∧
      IsExpression env .comma c [Ascii.newline] := by
  intro env c
  have h : (evaluate env .comma c).exec ({} : Recorder) = (.ok (-24, [Ascii.newline]), {}) :=
    Prod.ext (Error.eq_ok_of_toOption (by decide +kernel)) (by decide +kernel)
  exact ⟨h, (isExpression_iff_orderly h).mpr (by decide +kernel)⟩

/-- An operator may come after both of its operands: `1 2+` gives 3. -/
theorem evaluate_operator_last :
    let env : Letter → Binding := fun _ => .scalar 0
    let c := [Ascii.code '1', Ascii.code ' ', Ascii.code '2', (Token.op .add).byte, Ascii.newline]
    (evaluate env .normal c).exec ({} : Recorder) = (.ok (3, [Ascii.newline]), {}) ∧
      ¬ IsExpression env .normal c [Ascii.newline] := by
  intro env c
  have h : (evaluate env .normal c).exec ({} : Recorder) = (.ok (3, [Ascii.newline]), {}) :=
    Prod.ext (Error.eq_ok_of_toOption (by decide +kernel)) (by decide +kernel)
  refine ⟨h, fun hexpr => ?_⟩
  have horderly := orderly_of_isExpression (p := {}) rfl h hexpr
  revert horderly
  decide +kernel

end

end Expr

end FlashBasic
