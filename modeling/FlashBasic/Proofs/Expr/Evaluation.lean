import FlashBasic.Host.Recorder
import FlashBasic.Proofs.Expr.Phrase

/-!
The evaluator of written expressions agrees with the meaning of trees, as long as its stacks are
deep enough.

`complete` is the rest of an evaluation from given stacks on. Reading a phrase puts the value of
its tree on the value stack and leaves the operators as they were (`approximates_phrase`): operators
that still wait at the end of the phrase might as well be applied there, as what follows applies
them first (`complete_release`).
-/

namespace FlashBasic

set_option autoImplicit false

/-! ## Running out of memory -/

namespace Action

variable {σ α β : Type} {fits : Prop}

/-- `a` does what `b` does or runs out of memory; if it `fits`, it does not run out of memory. -/
def Approximates (fits : Prop) (a b : Action σ α) : Prop :=
  ∀ s, a.exec s = b.exec s ∨ ¬ fits ∧ ∃ e, (a.exec s).1 = .error e ∧ e.isOutOfMemory = true

namespace Approximates

theorem of_eq {a b : Action σ α} (h : a = b) : Approximates fits a b :=
  fun s => .inl (by rw [h])

theorem trans {a b c : Action σ α} (hab : Approximates fits a b) (hbc : Approximates fits b c) :
    Approximates fits a c := by
  intro s
  obtain hab | hab := hab s
  · rw [hab]
    exact hbc s
  · exact .inr hab

theorem bind {a b : Action σ α} {f g : α → Action σ β} (hab : Approximates fits a b)
    (hfg : ∀ x, Approximates fits (f x) (g x)) : Approximates fits (a >>= f) (b >>= g) := by
  intro s
  rw [exec_bind, exec_bind]
  obtain hab | ⟨hfits, e, he, hmemory⟩ := hab s
  · rw [hab]
    split
    · exact hfg _ _
    · exact .inl rfl
  · refine .inr ⟨hfits, e, ?_, hmemory⟩
    split
    next h => simp [h] at he
    next h => simpa [h] using he

theorem bind_right (a : Action σ α) {f g : α → Action σ β}
    (hfg : ∀ x, Approximates fits (f x) (g x)) : Approximates fits (a >>= f) (a >>= g) :=
  bind (of_eq rfl) hfg

end Approximates

end Action

open FlashBasic.Action (Approximates)

/-! ## The rest of an evaluation -/

namespace Expr

variable {σ : Type} [Sensors σ] {env : Letter → Binding} {mode : Mode}

theorem length_digits_le (base n : Nat) (c : Cursor) :
    (Number.digits base n c).2.length ≤ c.length := by
  induction n generalizing c with
  | zero => exact le_rfl
  | succ n ih =>
    cases c with
    | nil => exact le_rfl
    | cons b rest =>
      simp only [Number.digits]
      split
      · exact (ih rest).trans (by simp)
      · exact le_rfl

theorem snd_number? (n base : Nat) (c : Cursor) :
    (Lexeme.number? n base c).2 = (Number.digits base n c).2 := by
  unfold Lexeme.number?
  split <;> simp_all

theorem length_skipBlanks_le (c : Cursor) : c.skipBlanks.length ≤ c.length :=
  (List.dropWhile_sublist _).length_le

theorem length_closed_le (x : Lexeme) (c : Cursor) :
    (Lexeme.closed x c).2.length ≤ c.length := by
  have hskip := length_skipBlanks_le c
  simp only [Lexeme.closed, Cursor.advance]
  split
  · simp only [List.length_tail]
    omega
  · exact hskip

theorem length_lengthOf_le (c : Cursor) : (Lexeme.lengthOf c).2.length ≤ c.length := by
  have hskip := length_skipBlanks_le c
  simp only [Lexeme.lengthOf]
  split
  · refine (length_closed_le _ _).trans ?_
    simp only [Cursor.advance, List.length_tail]
    omega
  · exact hskip

theorem length_ofToken?_le {t : Token} {c rest : Cursor} {x : Lexeme}
    (h : Lexeme.ofToken? t c = some (x, rest)) : rest.length ≤ c.length := by
  have hrest {y : Lexeme × Cursor} (hy : y.2.length ≤ c.length) (h : some y = some (x, rest)) :
      rest.length ≤ c.length := by
    obtain rfl := Option.some.inj h
    exact hy
  have htail : c.tail.length ≤ c.length := by simp
  cases t with
  | constant =>
    simp only [Lexeme.ofToken?] at h
    split at h
    · exact hrest htail h
    · exact hrest le_rfl h
  | hex =>
    refine hrest ?_ h
    rw [snd_number?]
    exact length_digits_le 16 8 c
  | millis => exact hrest (length_closed_le _ c) h
  | battery => exact hrest (length_closed_le _ c) h
  | len => exact hrest (length_lengthOf_le c) h
  | abs | rnd | pin | btGet | op => exact hrest le_rfl h
  | _ => simp [Lexeme.ofToken?] at h

theorem digit?_ten_of_isDigit {b : UInt8} (h : Ascii.isDigit b) :
    Ascii.digit? 10 b = some (b - Ascii.code '0').toNat := by
  obtain ⟨hlow, hhigh⟩ : Ascii.code '0' ≤ b ∧ b ≤ Ascii.code '9' := by
    simpa [Ascii.isDigit] using h
  have hlt : (b - Ascii.code '0').toNat < 10 := by
    rw [UInt8.toNat_sub_of_le _ _ hlow]
    have hhigh := UInt8.le_iff_toNat_le.mp hhigh
    simp only [Ascii.code] at hhigh ⊢
    simp at hhigh ⊢
    omega
  simp [Ascii.digit?, h, hlt]

theorem length_read_lt {c rest : Cursor} {x : Lexeme} (h : Lexeme.read c = some (x, rest)) :
    rest.length < c.length := by
  cases c with
  | nil => simp [Lexeme.read] at h
  | cons b tail =>
    have htail {y : Lexeme} (h : some (y, tail) = some (x, rest)) :
        rest.length < (b :: tail).length := by
      obtain rfl := congrArg Prod.snd (Option.some.inj h)
      exact Nat.lt_succ_self _
    rw [Lexeme.read] at h
    split_ifs at h with hdigit
    · have hsnd : (Lexeme.number? 10 10 (b :: tail)).2 = rest :=
        congrArg Prod.snd (Option.some.inj h)
      rw [← hsnd, snd_number?, Number.digits, digit?_ten_of_isDigit hdigit]
      exact Nat.lt_succ_of_le (length_digits_le 10 9 tail)
    · exact htail h
    · exact htail h
    · exact htail h
    · split at h
      · exact htail h
      · obtain ⟨t, -, ht⟩ := Option.bind_eq_some_iff.mp h
        exact Nat.lt_succ_of_le (length_ofToken?_le ht)

theorem absorbAll_nil (fuel : Nat) (p : Pending) :
    (absorbAll env mode fuel p [] : Action σ _) = return (p, []) := by
  cases fuel <;> rfl

theorem absorbAll_fuel {fuel fuel' : Nat} {p : Pending} {c : Cursor} (h : c.length ≤ fuel)
    (h' : c.length ≤ fuel') :
    (absorbAll env mode fuel p c : Action σ _) = absorbAll env mode fuel' p c := by
  induction fuel generalizing fuel' p c with
  | zero =>
    obtain rfl := List.length_eq_zero_iff.mp (Nat.le_zero.mp h)
    rw [absorbAll_nil, absorbAll_nil]
  | succ fuel ih =>
    cases fuel' with
    | zero =>
      obtain rfl := List.length_eq_zero_iff.mp (Nat.le_zero.mp h')
      rw [absorbAll_nil, absorbAll_nil]
    | succ fuel' =>
      simp only [absorbAll]
      split
      · rfl
      next x rest hread =>
        have hlt := length_read_lt hread
        have hle := length_skipBlanks_le c
        congr
        funext ⟨p, ended⟩
        split
        · rfl
        · exact ih (by omega) (by omega)

variable (env mode) in
/-- What is left of an evaluation when `p` waits and `c` is to be read. -/
def complete (p : Pending) (c : Cursor) : Action σ (Int32 × Cursor) := do
  let (p, rest) ← absorbAll env mode c.length p c
  return (← finish env p, rest)

theorem complete_of_next {c rest : Cursor} {x : Lexeme} (h : Next c x rest) (p : Pending) :
    (complete env mode p c : Action σ _) = (do
      let (p, ended) ← absorb env mode p x
      if ended then return (← finish env p, rest) else complete env mode p rest) := by
  have hread : Lexeme.read c.skipBlanks = some (x, rest) := h
  have hlt := length_read_lt hread
  have hle := length_skipBlanks_le c
  obtain ⟨n, hn⟩ : ∃ n, c.length = n + 1 := ⟨c.length - 1, by omega⟩
  simp only [complete, hn, absorbAll, hread, bind_assoc]
  congr
  funext ⟨p, ended⟩
  split
  · rw [pure_bind]
  · rw [absorbAll_fuel (show rest.length ≤ n by omega) le_rfl]

theorem complete_of_read_eq_none {c : Cursor} (h : Lexeme.read c.skipBlanks = none) (p : Pending) :
    (complete env mode p c : Action σ _) = (do return (← finish env p, c.skipBlanks)) := by
  rw [complete]
  cases hc : c.length with
  | zero =>
    obtain rfl := List.length_eq_zero_iff.mp hc
    rw [absorbAll_nil, pure_bind]
    rfl
  | succ n => simp only [absorbAll, h, pure_bind]

theorem complete_gap (gap : Gap) (p : Pending) (c : Cursor) :
    (complete env mode p (gap.bytes ++ c) : Action σ _) = complete env mode p c := by
  cases h : Lexeme.read c.skipBlanks with
  | none =>
    rw [complete_of_read_eq_none h, complete_of_read_eq_none (by rwa [skipBlanks_gap]),
      skipBlanks_gap]
  | some y =>
    have hnext : Next c y.1 y.2 := h
    rw [complete_of_next hnext, complete_of_next (hnext.gap gap)]

end Expr

/-! ## The stacks -/

/-- The stack with a value more, whether or not there is room for it. -/
def Stack.added {α : Type} (s : Stack α) (a : α) : Stack α :=
  { s with items := a :: s.items }

namespace Expr

/-- The stacks of an evaluation. -/
def waiting (ops : List Op) (values : Stack Int32) (wantsOperand : Bool) : Pending :=
  { ({} : Pending).setOps ops with values, wantsOperand }

section

variable {σ α : Type} {fits : Prop} {ops : List Op} {values : Stack Int32} {wants : Bool}

theorem ofExcept_map {β : Type} (f : α → β) (r : Except Error α) :
    (.ofExcept (r.map f) : Action σ β) = f <$> .ofExcept r := by
  cases r <;> rfl

theorem ofExcept_bind {β : Type} (r : Except Error α) (f : α → Except Error β) :
    (.ofExcept (r >>= f) : Action σ β) = .ofExcept r >>= fun a => .ofExcept (f a) := by
  cases r <;> rfl

theorem approximates_push {β : Type} (s : Stack β) (b : β) (f : Stack β → Action σ α)
    (hroom : fits → s.items.length < s.capacity) :
    Approximates fits (.ofExcept (s.push b) >>= f) (f (s.added b)) := by
  by_cases h : s.items.length < s.capacity
  · apply Approximates.of_eq
    simp only [Stack.push, if_pos h]
    rfl
  · intro t
    refine .inr ⟨fun hfits => h (hroom hfits), ?_⟩
    simp only [Stack.push, if_neg h]
    exact ⟨_, rfl, rfl⟩

theorem approximates_pushValue (v : Int32) (f : Pending → Action σ α)
    (hroom : fits → values.items.length < values.capacity) :
    Approximates fits (.ofExcept ((waiting ops values wants).pushValue v) >>= f)
      (f (waiting ops (values.added v) false)) := by
  refine .trans (.of_eq ?_) (approximates_push values v (fun s => f (waiting ops s false)) hroom)
  simp only [Pending.pushValue, waiting]
  cases values.push v <;> rfl

theorem approximates_pushOp (op : Op) (f : Pending → Action σ α)
    (hroom : fits → ops.length < 8) :
    Approximates fits (.ofExcept ((waiting ops values wants).pushOp op) >>= f)
      (f (waiting (op :: ops) values true)) := by
  let s := (waiting ops values wants).ops
  refine .trans (.of_eq ?_)
    (approximates_push s op (fun s => f (waiting s.items values true)) hroom)
  simp only [Pending.pushOp, s, Stack.push]
  split <;> rfl

end

/-! ## One lexeme -/

section

variable {σ : Type} [Sensors σ] {env : Letter → Binding} {mode : Mode} {fits : Prop}
  {ops : List Op} {values : Stack Int32} {wants : Bool} {c rest : Cursor} {x : Lexeme}

theorem approximates_value (h : Next c x rest) (a : Action σ Int32)
    (habsorb : absorb env mode (waiting ops values wants) x = (do
      let v ← a
      return (← .ofExcept ((waiting ops values wants).pushValue v), false)))
    (hroom : fits → values.items.length < values.capacity) :
    Approximates fits (complete env mode (waiting ops values wants) c)
      (a >>= fun v => complete env mode (waiting ops (values.added v) false) rest) := by
  rw [complete_of_next h, habsorb, bind_assoc]
  refine .bind_right a fun v => ?_
  simp only [bind_assoc, pure_bind]
  exact approximates_pushValue v _ hroom

theorem approximates_op (h : Next c x rest) (op : Op)
    (habsorb : absorb env mode (waiting ops values wants) x = (do
      return (← .ofExcept ((waiting ops values wants).pushOp op), false) : Action σ _))
    (hroom : fits → ops.length < 8) :
    Approximates fits (complete env mode (waiting ops values wants) c : Action σ _)
      (complete env mode (waiting (op :: ops) values true) rest) := by
  rw [complete_of_next h, habsorb, bind_assoc]
  simp only [pure_bind]
  exact approximates_pushOp op _ hroom

theorem yieldsTo_mono {op : Op} {q q' : Nat} (h : op.yieldsTo q = true) (hle : q ≤ q') :
    op.yieldsTo q' = true := by
  obtain ⟨n, hn, hq⟩ := (Option.any_eq_true _ _).mp h
  exact (Option.any_eq_true _ _).mpr ⟨n, hn, decide_eq_true ((of_decide_eq_true hq).trans hle)⟩

/-- The top operator is applied before anything that follows a phrase of this level. -/
theorem complete_release {level : Nat} (hrest : Follows level rest) (op : Op)
    (hop : op.yieldsTo level = true) :
    (complete env mode (waiting (op :: ops) values false) rest : Action σ _) = (do
      let values ← apply env op values
      complete env mode (waiting ops values false) rest) := by
  have hparen : op ≠ .paren := by
    rintro rfl
    simp [Op.yieldsTo, Op.precedence?] at hop
  have hreduce : (reduceToParen env (waiting (op :: ops) values false) : Action σ _) = (do
      let values ← apply env op values
      reduceToParen env (waiting ops values false)) := by
    simp [reduceToParen, waiting, Pending.setOps, reduceWhile, hparen]
  cases hread : Lexeme.read rest.skipBlanks with
  | none =>
    simp only [complete_of_read_eq_none hread, finish, hreduce, bind_assoc]
  | some y =>
    obtain ⟨x, after⟩ := y
    have hnext : Next rest x after := hread
    simp only [complete_of_next hnext]
    have hx := hrest.next x after hnext
    cases x with
    | closing => simp only [absorb, punctuate, hreduce, bind_assoc]
    | comma => simp only [absorb, punctuate, hreduce, bind_assoc]
    | operator o =>
      have hyields := yieldsTo_mono hop hx
      simp [absorb, absorbOperator, waiting, Pending.setOps, reduceWhile, hyields]
    | _ => exact hx.elim

/-- What a closing parenthesis gives its argument to. -/
def Op.takesArgument : Op → Bool
  | .call _ | .index _ => true
  | _ => false

theorem complete_closing (h : Next c .closing rest) :
    (complete env mode (waiting (.paren :: ops) values wants) c : Action σ _) = (do
      let p ← closeParen env (waiting (.paren :: ops) values wants) ops
      complete env mode p rest) := by
  have hreduce : (reduceToParen env (waiting (.paren :: ops) values wants) : Action σ _) =
      pure (waiting (.paren :: ops) values wants) := by
    simp [reduceToParen, waiting, Pending.setOps, reduceWhile]
  rw [complete_of_next h, absorb, punctuate, hreduce]
  simp [waiting, Pending.setOps]

theorem complete_closing_plain (h : Next c .closing rest)
    (hops : ∀ op ∈ ops.head?, op.takesArgument = false) :
    (complete env mode (waiting (.paren :: ops) values wants) c : Action σ _) =
      complete env mode (waiting ops values false) rest := by
  have hclose : (closeParen env (waiting (.paren :: ops) values wants) ops : Action σ _) =
      pure (waiting ops values false) := by
    unfold closeParen
    split
    · simp [Op.takesArgument] at hops
    · simp [Op.takesArgument] at hops
    · rfl
  rw [complete_closing h, hclose, pure_bind]

theorem complete_closing_argument (h : Next c .closing rest) {op : Op}
    (hop : op.takesArgument = true) :
    (complete env mode (waiting (.paren :: op :: ops) values wants) c : Action σ _) = (do
      let values ← apply env op values
      complete env mode (waiting ops values false) rest) := by
  have hclose : (closeParen env (waiting (.paren :: op :: ops) values wants) (op :: ops) :
      Action σ _) = (do return waiting ops (← apply env op values) false) := by
    cases op with
    | call f => rfl
    | index name => rfl
    | _ => simp [Op.takesArgument] at hop
  rw [complete_closing h, hclose, bind_assoc]
  simp only [pure_bind]

theorem approximates_operator {o : Operator} (h : Next c (.operator o) rest)
    (hops : ∀ op ∈ ops.head?, op.yieldsTo o.precedence = false)
    (hroom : fits → ops.length < 8) :
    Approximates fits (complete env mode (waiting ops values false) c : Action σ _)
      (complete env mode (waiting (.binary o :: ops) values true) rest) := by
  have hreduce : (reduceWhile env (·.yieldsTo o.precedence) ops values : Action σ _) =
      pure (ops, values) := by
    cases ops with
    | nil => rfl
    | cons op ops => simp [reduceWhile, hops op rfl]
  apply approximates_op h (.binary o) ?_ hroom
  simp only [absorb, absorbOperator, waiting, Pending.setOps, hreduce]
  simp

theorem approximates_call {f : Builtin} (h : Next c (.call f) rest)
    (hroom : fits → ops.length + 1 < 8) :
    Approximates fits (complete env mode (waiting ops values wants) c : Action σ _)
      (complete env mode (waiting (.paren :: .call f :: ops) values true) rest) := by
  rw [complete_of_next h, absorb, bind_assoc, ofExcept_bind, bind_assoc]
  simp only [pure_bind]
  refine .trans (approximates_pushOp (.call f) _ fun hfits => Nat.lt_of_succ_lt (hroom hfits)) ?_
  exact approximates_pushOp .paren _ hroom

/-! ## Applying operators -/

theorem apply_binary (o : Operator) (a b : Int32) :
    (apply env (.binary o) ((values.added a).added b) : Action σ _) = (do
      let v ← Int32.ofInt <$> .ofExcept (o.onInt a.toInt b.toInt)
      .ofExcept (values.push v)) := by
  rw [← ofExcept_map, ← Operator.apply_eq]
  rfl

theorem apply_negate (a : Int32) :
    (apply env .negate (values.added a) : Action σ _) = (do
      let v ← pure (.ofInt (-a.toInt))
      .ofExcept (values.push v)) := by
  rw [Int32.ofInt_neg, Int32.ofInt_toInt]
  rfl

theorem apply_call (f : Builtin) (a : Int32) :
    (apply env (.call f) (values.added a) : Action σ _) = (do
      let v ← Int32.ofInt <$> f.onInt a.toInt
      .ofExcept (values.push v)) := by
  rw [← call_eq]
  rfl

theorem apply_index (name : Letter) (i : Int32) :
    (apply env (.index name) (values.added i) : Action σ _) = (do
      let v ← Int32.ofInt <$> .ofExcept (elementAt env name i.toInt)
      .ofExcept (values.push v)) := by
  rw [← ofExcept_map, ← element_eq]
  rfl

theorem approximates_apply {op : Op} {args : Stack Int32} {a : Action σ Int32}
    (happly : apply env op args = (do
      let v ← a
      .ofExcept (values.push v)))
    (hroom : fits → values.items.length < values.capacity) :
    Approximates fits
      (do
        let values ← apply env op args
        complete env mode (waiting ops values false) rest)
      (a >>= fun v => complete env mode (waiting ops (values.added v) false) rest) := by
  rw [happly, bind_assoc]
  exact .bind_right a fun v => approximates_push values v _ hroom

theorem approximates_argument {op : Op} (hop : op.takesArgument = true) {gap : Gap}
    {a : Action σ Int32} {f : Int32 → Action σ Int32}
    (harg : Approximates fits (complete env mode (waiting (.paren :: op :: ops) values true) c)
      (a >>= fun v => complete env mode (waiting (.paren :: op :: ops) (values.added v) false)
        (gap.bytes ++ Phrase.closing :: rest)))
    (happly : ∀ v, apply env op (values.added v) = (do
      let w ← f v
      .ofExcept (values.push w)))
    (hroom : fits → values.items.length < values.capacity) :
    Approximates fits (complete env mode (waiting (.paren :: op :: ops) values true) c)
      ((a >>= f) >>= fun v => complete env mode (waiting ops (values.added v) false) rest) := by
  refine harg.trans ?_
  rw [bind_assoc]
  refine .bind_right a fun v => ?_
  rw [complete_closing_argument ((next_closing rest).gap gap) hop]
  exact approximates_apply (happly v) hroom

/-! ## Phrases -/

/-- The operators below a phrase of this level stay while it is read. -/
structure Waits (level : Nat) (ops : List Op) : Prop where
  stays : ∀ op ∈ ops.head?, ∀ o : Operator, o.precedence ≤ level →
    op.yieldsTo o.precedence = false
  plain : ∀ op ∈ ops.head?, op.takesArgument = false

theorem Waits.mono {level level' : Nat} (h : Waits level ops) (hle : level' ≤ level) :
    Waits level' ops :=
  ⟨fun op hop o ho => h.stays op hop o (ho.trans hle), h.plain⟩

theorem waits_paren (level : Nat) : Waits level (.paren :: ops) := by
  constructor
  · intro op hop o _
    obtain rfl : Op.paren = op := by simpa using hop
    rfl
  · intro op hop
    obtain rfl : Op.paren = op := by simpa using hop
    rfl

theorem waits_negate : Waits tightest (.negate :: ops) := by
  constructor
  · intro op _ o ho
    have hle := o.three_le_precedence
    exact absurd (hle.trans ho) (by decide)
  · intro op hop
    obtain rfl : Op.negate = op := by simpa using hop
    rfl

theorem waits_binary (o : Operator) : Waits (o.precedence - 1) (.binary o :: ops) := by
  have hle := o.three_le_precedence
  constructor
  · intro op hop o' ho'
    obtain rfl : Op.binary o = op := by simpa using hop
    simp only [Op.yieldsTo, Op.precedence?, Option.any_some, decide_eq_false_iff_not]
    omega
  · intro op hop
    obtain rfl : Op.binary o = op := by simpa using hop
    rfl

/-- If it `fits`, the stacks have room for what waits while the phrase is read. -/
def Room (fits : Prop) (ops : List Op) (values : Stack Int32) {level : Nat} (p : Phrase level) :
    Prop :=
  fits → ops.length + p.opDepth ≤ 8 ∧ values.items.length + p.valueDepth ≤ values.capacity

theorem Room.op {level : Nat} {p : Phrase level} (h : Room fits ops values p)
    (n : Nat) (hn : n < p.opDepth) (hfits : fits) : ops.length + n < 8 := by
  have hle := (h hfits).1
  omega

theorem Room.under (above : List Op) {level level' : Nat} {p : Phrase level} {p' : Phrase level'}
    (h : Room fits ops values p) (hop : p'.opDepth + above.length ≤ p.opDepth)
    (hvalue : p'.valueDepth ≤ p.valueDepth) : Room fits (above ++ ops) values p' := by
  intro hfits
  obtain ⟨hops, hvalues⟩ := h hfits
  rw [List.length_append]
  exact ⟨by omega, by omega⟩

theorem Room.right {level : Nat} {o : Operator} {hle : o.precedence ≤ level}
    {left : Phrase o.precedence} {gap : Gap} {right : Phrase (o.precedence - 1)}
    (h : Room fits ops values (.binary o hle left gap right)) (a : Int32) :
    Room fits (.binary o :: ops) (values.added a) right := by
  intro hfits
  obtain ⟨hops, hvalues⟩ := h hfits
  simp only [Phrase.opDepth, Phrase.valueDepth] at hops hvalues
  simp only [Stack.added, List.length_cons]
  exact ⟨by omega, by omega⟩

theorem Room.value {level : Nat} {p : Phrase level} (h : Room fits ops values p) (hfits : fits) :
    values.items.length < values.capacity := by
  have hdepth := p.one_le_valueDepth
  have hle := (h hfits).2
  omega

theorem approximates_phrase {level : Nat} (p : Phrase level) (hlevel : tightest ≤ level)
    (hscoped : p.tree.Scoped env) (hrest : Follows level rest) (hops : Waits level ops)
    (hroom : Room fits ops values p) :
    Approximates fits (complete env mode (waiting ops values true) (p.bytes ++ rest) : Action σ _)
      (p.tree.eval env >>= fun v =>
        complete env mode (waiting ops (values.added v) false) rest) := by
  induction p generalizing ops values rest with
  | literal r digits =>
    rw [Phrase.bytes, List.append_assoc]
    exact approximates_value (next_literal digits hrest.apart) _ rfl hroom.value
  | constant k => exact approximates_value (next_constant k rest) _ rfl hroom.value
  | scalar name =>
    obtain ⟨v, hv⟩ := hscoped
    refine approximates_value (next_letter name rest) _ ?_ hroom.value
    simp only [absorb, Phrase.tree, Tree.eval, hv, pure_bind]
  | millis gap =>
    rw [Phrase.bytes, List.cons_append, List.append_assoc]
    exact approximates_value (next_millis gap rest) _ rfl hroom.value
  | battery gap =>
    rw [Phrase.bytes, List.cons_append, List.append_assoc]
    exact approximates_value (next_battery gap rest) _ rfl hroom.value
  | length gap name gap' =>
    obtain ⟨bytes, hbytes⟩ := hscoped
    simp only [Phrase.bytes, List.cons_append, List.append_assoc, List.nil_append]
    refine approximates_value (next_length gap name gap' rest) _ ?_ hroom.value
    simp only [absorb, Phrase.tree, Tree.eval, hbytes, pure_bind, Int32.ofInt_eq_ofNat]
  | call f arg gap ih =>
    simp only [Phrase.bytes, List.cons_append, List.append_assoc, List.nil_append]
    refine .trans (approximates_call (next_call f _) (hroom.op 1 (by simp [Phrase.opDepth]))) ?_
    refine approximates_argument rfl (ih (by decide) hscoped ?_ (waits_paren _) ?_) (apply_call f)
      hroom.value
    · exact (Follows.closing rest).gap gap
    · exact hroom.under [.paren, .call f] le_rfl le_rfl
  | element name gap index gap' ih =>
    obtain ⟨⟨bytes, hbytes⟩, hindex⟩ := hscoped
    simp only [Phrase.bytes, List.cons_append, List.append_assoc, List.nil_append]
    refine .trans (approximates_op (next_letter name _) (.index name) ?_ ?_) ?_
    · simp only [absorb, hbytes]
    · exact hroom.op 0 (by simp [Phrase.opDepth])
    refine .trans (approximates_op ((next_opening _).gap gap) .paren rfl ?_) ?_
    · exact hroom.op 1 (by simp [Phrase.opDepth])
    refine approximates_argument rfl (ih (by decide) hindex ?_ (waits_paren _) ?_)
      (apply_index name) hroom.value
    · exact (Follows.closing rest).gap gap'
    · exact hroom.under [.paren, .index name] le_rfl le_rfl
  | negate e ih =>
    refine .trans (approximates_op (next_operator .sub (e.bytes ++ rest)) .negate rfl ?_) ?_
    · exact hroom.op 0 (by simp [Phrase.opDepth])
    refine .trans (ih le_rfl hscoped (hrest.mono hlevel) waits_negate ?_) ?_
    · exact hroom.under [.negate] le_rfl le_rfl
    rw [Phrase.tree, Tree.eval, bind_assoc]
    refine .bind_right _ fun a => ?_
    -- The minus waits until more is read, and whatever that is applies it first.
    rw [complete_release (hrest.mono hlevel) .negate rfl]
    exact approximates_apply (apply_negate a) hroom.value
  | binary o h left gap right ihl ihr =>
    obtain ⟨hleft, hright⟩ := hscoped
    have hprecedence := o.three_le_precedence
    simp only [Phrase.bytes, List.cons_append, List.append_assoc]
    refine .trans (ihl ?_ hleft ?_ (hops.mono h) ?_) ?_
    · exact (show tightest ≤ 3 by decide).trans hprecedence
    · exact (Follows.operator le_rfl _).gap gap
    · exact hroom.under [] (le_max_left _ _) (le_max_left _ _)
    rw [Phrase.tree, Tree.eval, bind_assoc]
    refine .bind_right _ fun a => ?_
    refine .trans (approximates_operator ((next_operator o _).gap gap) ?_ ?_) ?_
    · -- What waits below the phrase is looser than `o`, so `o` goes on top of it.
      exact fun op hop => hops.stays op hop o h
    · exact hroom.op 0 (by simp [Phrase.opDepth])
    refine .trans (ihr ?_ hright (hrest.mono ?_) (waits_binary o) ?_) ?_
    · exact Nat.le_pred_of_lt hprecedence
    · exact (Nat.sub_le _ _).trans h
    · exact hroom.right a
    rw [bind_assoc]
    refine .bind_right _ fun b => ?_
    rw [complete_release (hrest.mono h) (.binary o) (by simp [Op.yieldsTo, Op.precedence?])]
    exact approximates_apply (apply_binary o a b) hroom.value
  | paren e gap ih =>
    simp only [Phrase.bytes, List.cons_append, List.append_assoc, List.nil_append]
    refine .trans (approximates_op (next_opening _) .paren rfl ?_) ?_
    · exact hroom.op 0 (by simp [Phrase.opDepth])
    refine .trans (ih (by decide) hscoped ?_ (waits_paren _) ?_) ?_
    · exact (Follows.closing rest).gap gap
    · exact hroom.under [.paren] le_rfl le_rfl
    refine .bind_right _ fun v => .of_eq ?_
    exact complete_closing_plain ((next_closing rest).gap gap) hops.plain
  | spaced gap e ih =>
    rw [Phrase.bytes, List.append_assoc, complete_gap]
    exact ih hlevel hscoped hrest hops hroom

/-! ## Whole expressions -/

theorem complete_ends (h : Ends mode c rest) (v : Int32) (hvalues : values.items = [v]) :
    (complete env mode (waiting [] values false) c : Action σ _) = return (v, rest) := by
  have hfinish : (finish env (waiting [] values false) : Action σ _) = pure v := by
    have hreduce : (reduceToParen env (waiting [] values false) : Action σ _) =
        pure (waiting [] values false) := rfl
    rw [finish, hreduce, pure_bind]
    simp [waiting, Pending.setOps, hvalues]
  have hpunctuate (inside : Pending → List Op → Action σ Pending) :
      punctuate env true inside (waiting [] values false) =
        pure (waiting [] values false, true) := rfl
  cases h with
  | stop mode gap hstops =>
    obtain ⟨hskip, hread, -⟩ := hstops.facts
    rw [complete_gap, complete_of_read_eq_none (by rwa [hskip]), hfinish, pure_bind, hskip]
  | closing gap =>
    rw [complete_of_next ((next_closing rest).gap gap), absorb, decide_eq_true rfl, hpunctuate,
      pure_bind]
    simp only [if_true, hfinish, pure_bind]
  | comma gap =>
    rw [complete_of_next ((next_comma rest).gap gap), absorb, decide_eq_true rfl, hpunctuate,
      pure_bind]
    simp only [if_true, hfinish, pure_bind]

end

/-- A tree can be written, and however it is written, the evaluator gives what the tree gives: the
same value or error after the same readings of the host, with the text after the expression left.
Only if more than eight operators or values have to wait at once may it run out of memory. -/
theorem evaluate_written {σ : Type} [Sensors σ] (env : Letter → Binding) (t : Tree)
    (hscoped : t.Scoped env) :
    (∃ p : Phrase loosest, p.tree = t) ∧
    ∀ p : Phrase loosest, p.tree = t → ∀ mode rest after, Ends mode rest after →
      Approximates (p.opDepth ≤ 8 ∧ p.valueDepth ≤ 8)
        (evaluate env mode (p.bytes ++ rest) : Action σ _)
        (do return (← t.eval env, after)) := by
  refine ⟨⟨t.write loosest, t.tree_write loosest⟩, ?_⟩
  rintro p rfl mode rest after hends
  have hempty : Waits loosest [] := ⟨by simp, by simp⟩
  refine .trans (approximates_phrase p (by decide) hscoped (hends.follows loosest) hempty ?_) ?_
  · intro hdepth
    simpa using hdepth
  · refine .bind_right _ fun v => .of_eq ?_
    exact complete_ends hends v rfl

/-- Written `RND(A)--(B(1)*A)`, in the parentheses of something else. -/
theorem evaluate_written_in_braces :
    let env : Letter → Binding := fun l => if l.slot = 0 then .scalar 100 else .array [5, 9]
    let one : Digits .decimal :=
      ⟨[Ascii.code '1'], by decide, by decide, List.forall_mem_singleton.2 (by decide)⟩
    let t : Tree := .binary .sub (.call .rnd (.scalar ⟨0⟩))
      (.negate (.binary .mul (.element ⟨1⟩ (.literal .decimal one)) (.scalar ⟨0⟩)))
    t.Scoped env ∧ Ends .braces [Phrase.closing, Ascii.newline] [Ascii.newline] ∧
      (evaluate env .braces ((t.write loosest).bytes ++ [Phrase.closing, Ascii.newline])).exec
        ({} : Recorder) =
      (.ok (984, [Ascii.newline]), { seed := 270369 }) := by
  intro env one t
  have hscoped : t.Scoped env := ⟨⟨100, rfl⟩, ⟨⟨[5, 9], rfl⟩, trivial⟩, ⟨100, rfl⟩⟩
  have hends : Ends .braces [Phrase.closing, Ascii.newline] [Ascii.newline] := .closing .none _
  refine ⟨hscoped, hends, ?_⟩
  have hagree := (evaluate_written env t hscoped).2 (t.write loosest) (t.tree_write loosest)
    .braces _ _ hends ({} : Recorder)
  obtain hagree | ⟨hdeep, -⟩ := hagree
  · rw [hagree]
    exact Prod.ext (Error.eq_ok_of_toOption (by decide +kernel)) (by decide +kernel)
  · exact absurd (by decide) hdeep

end Expr

end FlashBasic
