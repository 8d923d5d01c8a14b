import FlashBasic.Proofs.Expr.Evaluation

/-!
What the evaluator counts. It never checks whether an operand may stand where it does, and relies on
the number of values at the end. `Shape` is what that number depends on, and `complete_cases` says
how an evaluation goes on and what one lexeme does to the shape.
-/

namespace FlashBasic

set_option autoImplicit false

/-! ## Results -/

namespace Action

variable {σ α β : Type} {P : α → Prop} {Q : β → Prop}

/-- The action fails or gives a result with the property. -/
def Gives (a : Action σ α) (P : α → Prop) : Prop :=
  ∀ s x t, a.exec s = (.ok x, t) → P x

namespace Gives

theorem pure {x : α} (h : P x) : (pure x : Action σ α).Gives P := by
  rintro s y t heq
  cases heq
  exact h

theorem throw (e : Error) : (throw e : Action σ α).Gives P := by
  rintro s y t heq
  cases heq

theorem bind {a : Action σ α} {f : α → Action σ β} (ha : a.Gives P)
    (hf : ∀ x, P x → (f x).Gives Q) : (a >>= f).Gives Q := by
  intro s y u heq
  obtain ⟨x, t, hx, hy⟩ := exec_bind_eq_ok.mp heq
  exact hf x (ha s x t hx) t y u hy

theorem skip {a : Action σ α} {f : α → Action σ β} (hf : ∀ x, (f x).Gives Q) :
    (a >>= f).Gives Q :=
  bind (P := fun _ => True) (fun _ _ _ _ => trivial) fun x _ => hf x

theorem ofExcept {r : Except Error α} (h : ∀ x, r = .ok x → P x) :
    (Action.ofExcept r : Action σ α).Gives P := by
  intro s x t heq
  exact h x (congrArg Prod.fst heq)

end Gives

end Action

open FlashBasic.Action (Gives)

namespace Stack

variable {α : Type} {s t : Stack α}

theorem items_of_push {a : α} (h : s.push a = .ok t) : t.items = a :: s.items := by
  unfold push at h
  split at h
  · cases h
    rfl
  · cases h

theorem size_of_push {a : α} (h : s.push a = .ok t) : t.size = s.size + 1 := by
  simp [size, items_of_push h]

theorem size_of_pop {a : α} (h : s.pop = .ok (a, t)) : s.size = t.size + 1 := by
  unfold pop at h
  split at h
  next hitems =>
    cases h
    simp [size, hitems]
  next => cases h

theorem size_of_popTwo {ab : α × α} (h : s.popTwo = .ok (ab, t)) : s.size = t.size + 2 := by
  unfold popTwo at h
  split at h
  next hitems =>
    cases h
    simp [size, hitems]
  next => cases h

end Stack

namespace Expr

/-! ## Shapes -/

def Op.isBinary : Op → Bool
  | .binary _ => true
  | _ => false

/-- The values that wait, less the binary operators that wait. -/
def excess (ops : List Op) (values : Stack Int32) : Int :=
  values.size - ops.countP Op.isBinary

structure Shape where
  excess : Int
  /-- The number of open parentheses. -/
  depth : Nat
  /-- An operand comes next. -/
  wants : Bool
deriving DecidableEq

def Pending.shape (p : Pending) : Shape where
  excess := Expr.excess p.ops.items p.values
  depth := p.ops.items.count .paren
  wants := p.wantsOperand

namespace Shape

/-- The excess at the same place of a well-formed expression. -/
def due (s : Shape) : Int := if s.wants then 0 else 1

def value (s : Shape) : Shape := { s with excess := s.excess + 1, wants := false }

/-- The shape after an operator has been put off. -/
def operator (s : Shape) (op : Op) : Shape where
  excess := s.excess - if op.isBinary then 1 else 0
  depth := s.depth + if op = .paren then 1 else 0
  wants := true

variable (env : Letter → Binding)

/-- The shape after a lexeme that does not end the expression; none when it is refused. -/
def after (s : Shape) : Lexeme → Option Shape
  | .number _ | .millis | .battery => some s.value
  | .name l =>
    match env l with
    | .scalar _ => some s.value
    | .array _ => some (s.operator (.index l))
  | .length l =>
    match env l with
    | .array _ => some s.value
    | .scalar _ => none
  | .opening | .call _ => some (s.operator .paren)
  | .operator o =>
    if s.wants then (if o = .sub then some (s.operator .negate) else none)
    else some (s.operator (.binary o))
  | .closing => if s.depth = 0 then none else some { s with depth := s.depth - 1, wants := false }
  | .comma => if s.depth = 0 then none else some { s with wants := true }
  | .malformed => none

end Shape

theorem shape_pushValue {p p' : Pending} {v : Int32} (h : p.pushValue v = .ok p') :
    p'.shape = p.shape.value := by
  unfold Pending.pushValue at h
  cases hpush : p.values.push v with
  | error e => simp [hpush, bind, Except.bind] at h
  | ok values =>
    obtain rfl : _ = p' := by simpa [hpush, bind, Except.bind, pure, Except.pure] using h
    have hsize := Stack.size_of_push hpush
    simp only [Pending.shape, Shape.value, excess, hsize, Shape.mk.injEq, and_self, and_true]
    omega

theorem shape_pushOp {p p' : Pending} {op : Op} (h : p.pushOp op = .ok p') :
    p'.shape = p.shape.operator op := by
  unfold Pending.pushOp at h
  cases hpush : p.ops.push op with
  | error e => simp [hpush, bind, Except.bind] at h
  | ok ops =>
    obtain rfl : _ = p' := by simpa [hpush, bind, Except.bind, pure, Except.pure] using h
    simp only [Pending.shape, Shape.operator, excess, Stack.items_of_push hpush, List.countP_cons,
      List.count_cons, beq_iff_eq, Shape.mk.injEq, and_true]
    split <;> simp
    omega

section

variable {σ : Type} [Sensors σ] {env : Letter → Binding} {mode : Mode}

/-- An operator that is applied takes its binary share of the values with it. -/
theorem gives_apply (op : Op) (ops : List Op) (values : Stack Int32) :
    (apply env op values : Action σ _).Gives fun values' =>
      excess ops values' = excess (op :: ops) values := by
  have hone {x : Int32 × Stack Int32} {values' : Stack Int32} {a : Int32} (hop : op.isBinary = false)
      (hpop : values.pop = .ok x) (hpush : x.2.push a = .ok values') :
      excess ops values' = excess (op :: ops) values := by
    have hsize := Stack.size_of_pop hpop
    have hsize' := Stack.size_of_push hpush
    simp [excess, hop, hsize, hsize']
  unfold apply
  cases op with
  | binary o =>
    refine .bind (.ofExcept fun x hx => hx) fun ⟨ab, rest⟩ hpop => .skip fun a => .ofExcept ?_
    intro values' hpush
    have hsize := Stack.size_of_popTwo hpop
    have hsize' := Stack.size_of_push hpush
    simp only [excess, List.countP_cons, Op.isBinary, hsize, hsize', if_true]
    omega
  | negate =>
    refine .bind (.ofExcept fun x hx => hx) fun x hpop => .ofExcept ?_
    intro values' hpush
    exact hone rfl hpop hpush
  | call f =>
    refine .bind (.ofExcept fun x hx => hx) fun x hpop => .skip fun a => .ofExcept ?_
    intro values' hpush
    exact hone rfl hpop hpush
  | index name =>
    refine .bind (.ofExcept fun x hx => hx) fun x hpop => .skip fun a => .ofExcept ?_
    intro values' hpush
    exact hone rfl hpop hpush
  | paren => exact .throw _

theorem gives_reduceWhile {ready : Op → Bool} (hready : ready .paren = false) (ops : List Op)
    (values : Stack Int32) :
    (reduceWhile env ready ops values : Action σ _).Gives fun r =>
      excess r.1 r.2 = excess ops values ∧ r.1.count .paren = ops.count .paren ∧
        ∀ op ∈ r.1.head?, ready op = false := by
  induction ops generalizing values with
  | nil => exact .pure ⟨rfl, rfl, by simp⟩
  | cons op ops ih =>
    unfold reduceWhile
    split
    next hop =>
      have hne : op ≠ .paren := by
        rintro rfl
        simp [hready] at hop
      refine .bind (gives_apply op ops values) fun values' hvalues => ?_
      intro s r t hr
      obtain ⟨hexcess, hcount, hhead⟩ := ih values' s r t hr
      exact ⟨hexcess.trans hvalues, by rw [hcount, List.count_cons_of_ne hne], hhead⟩
    next hop => exact .pure ⟨rfl, rfl, by simpa using hop⟩

theorem gives_reduceToParen (p : Pending) :
    (reduceToParen env p : Action σ _).Gives fun p' => p'.shape = p.shape ∧
      (p'.ops.items = [] ∨ ∃ ops, p'.ops.items = .paren :: ops) := by
  unfold reduceToParen
  refine .bind (gives_reduceWhile (by simp) p.ops.items p.values) ?_
  rintro ⟨ops, values⟩ ⟨hexcess, hcount, hhead⟩
  refine .pure ⟨?_, ?_⟩
  · simp [Pending.shape, Pending.setOps, hexcess, hcount]
  · cases ops with
    | nil => exact .inl rfl
    | cons op ops =>
      obtain rfl : op = .paren := by simpa using hhead op rfl
      exact .inr ⟨ops, rfl⟩

theorem gives_closeParen {p : Pending} {ops : List Op} (h : p.ops.items = .paren :: ops) :
    (closeParen env p ops : Action σ _).Gives fun p' =>
      p'.shape = { p.shape with depth := p.shape.depth - 1, wants := false } := by
  have hargument {op : Op} {ops' : List Op} (hops : ops = op :: ops') (hop : op ≠ .paren) :
      (do
        return { p.setOps ops' with values := ← apply env op p.values, wantsOperand := false } :
        Action σ _).Gives fun p' =>
        p'.shape = { p.shape with depth := p.shape.depth - 1, wants := false } := by
    refine .bind (gives_apply op ops' p.values) fun values hvalues => .pure ?_
    simp only [Pending.shape, Pending.setOps, h, hops, hvalues]
    simp [excess, Op.isBinary, hop]
  unfold closeParen
  split
  next => exact hargument rfl (by simp)
  next => exact hargument rfl (by simp)
  next =>
    refine .pure ?_
    simp only [Pending.shape, Pending.setOps, h]
    simp [excess, Op.isBinary]

/-- The lexeme that ends an expression in this mode. -/
def terminates : Mode → Lexeme → Bool
  | .braces, .closing => true
  | .comma, .comma => true
  | _, _ => false

variable (env mode) in
/-- What is known of the stacks after a lexeme and whether it ends the expression. -/
def Absorbed (s : Shape) (x : Lexeme) (r : Pending × Bool) : Prop :=
  if r.2 then r.1.shape = s ∧ s.depth = 0 ∧ terminates mode x = true
  else s.after env x = some r.1.shape

theorem gives_punctuate {ends : Bool} {inside : Pending → List Op → Action σ Pending} {x : Lexeme}
    (hends : ends = true → terminates mode x = true)
    (hinside : ∀ p ops, p.ops.items = .paren :: ops →
      (inside p ops).Gives fun p' => p.shape.after env x = some p'.shape) (p : Pending) :
    (punctuate env ends inside p).Gives (Absorbed env mode p.shape x) := by
  unfold punctuate
  refine .bind (gives_reduceToParen p) ?_
  rintro q ⟨hshape, hq | ⟨ops, hq⟩⟩
  · rw [hq]
    dsimp only
    split
    next hend =>
      have hdepth : q.shape.depth = 0 := by simp [Pending.shape, hq]
      exact .pure ⟨hshape, hshape ▸ hdepth, hends hend⟩
    next => exact .throw _
  · rw [hq]
    refine .bind (hinside q ops hq) fun p' hp' => .pure ?_
    rw [hshape] at hp'
    exact hp'

theorem gives_absorbOperator {p : Pending} (o : Operator) :
    (absorbOperator env p o : Action σ _).Gives fun p' => p.wantsOperand = false ∧
      p'.shape = p.shape.operator (.binary o) := by
  unfold absorbOperator
  split
  next => exact .throw _
  next hwants =>
    refine .bind (gives_reduceWhile rfl p.ops.items p.values) ?_
    rintro ⟨ops, values⟩ ⟨hexcess, hcount, -⟩
    refine .ofExcept fun p' hp' => ⟨by simpa using hwants, ?_⟩
    rw [shape_pushOp hp']
    simp [Shape.operator, Pending.shape, Pending.setOps, hexcess, hcount]

theorem gives_absorb (p : Pending) (x : Lexeme) :
    (absorb env mode p x : Action σ _).Gives (Absorbed env mode p.shape x) := by
  have hvalue (v : Int32) (hx : p.shape.after env x = some p.shape.value) :
      (do return (← .ofExcept (p.pushValue v), false) : Action σ (Pending × Bool)).Gives
        (Absorbed env mode p.shape x) := by
    refine .bind (.ofExcept fun p' hp' => shape_pushValue hp') fun p' hp' => .pure ?_
    exact hx.trans (congrArg some hp'.symm)
  have hop (op : Op) (hx : p.shape.after env x = some (p.shape.operator op)) :
      (do return (← .ofExcept (p.pushOp op), false) : Action σ (Pending × Bool)).Gives
        (Absorbed env mode p.shape x) := by
    refine .bind (.ofExcept fun p' hp' => shape_pushOp hp') fun p' hp' => .pure ?_
    exact hx.trans (congrArg some hp'.symm)
  unfold absorb
  cases x with
  | number v => exact hvalue v rfl
  | name l =>
    dsimp only
    split
    next v hl => exact hvalue v (by simp [Shape.after, hl])
    next bytes hl => exact hop (.index l) (by simp [Shape.after, hl])
  | opening => exact hop .paren rfl
  | closing =>
    refine gives_punctuate (by cases mode <;> simp [terminates]) (fun q ops hq => ?_) p
    intro s q' t hq'
    have hdepth : q.shape.depth ≠ 0 := by simp [Pending.shape, hq]
    rw [gives_closeParen hq s q' t hq', Shape.after, if_neg hdepth]
  | comma =>
    refine gives_punctuate (by cases mode <;> simp [terminates]) (fun q ops hq => .pure ?_) p
    have hdepth : q.shape.depth ≠ 0 := by simp [Pending.shape, hq]
    rw [Shape.after, if_neg hdepth]
    rfl
  | operator o =>
    dsimp only
    split
    next h =>
      refine hop .negate ?_
      simp [Shape.after, h, Pending.shape]
    next h =>
      refine .bind (gives_absorbOperator o) ?_
      rintro p' ⟨hwants, hp'⟩
      have hwants : p.shape.wants = false := hwants
      exact .pure (by simp [Absorbed, Shape.after, hp', hwants])
  | call f =>
    refine .bind (.ofExcept (P := fun p' => p'.shape = p.shape.operator .paren) fun p' hp' => ?_)
      fun p' hp' => .pure (congrArg some hp'.symm)
    cases hcall : p.pushOp (.call f) with
    | error e => simp [hcall, bind, Except.bind] at hp'
    | ok q =>
      have hparen : q.pushOp .paren = .ok p' := by simpa [hcall, bind, Except.bind] using hp'
      rw [shape_pushOp hparen, shape_pushOp hcall]
      simp [Shape.operator, Op.isBinary]
  | millis => exact .skip fun v => hvalue v rfl
  | battery => exact .skip fun v => hvalue v rfl
  | length l =>
    dsimp only
    split
    next bytes hl => exact hvalue _ (by simp [Shape.after, hl])
    next => exact .throw _
  | malformed => exact .throw _

theorem gives_finish (p : Pending) :
    (finish env p : Action σ _).Gives fun _ => p.shape.excess = 1 ∧ p.shape.depth = 0 := by
  unfold finish
  refine .bind (gives_reduceToParen p) ?_
  rintro q ⟨hshape, -⟩
  split
  next v hops hvalues =>
    refine .pure ?_
    rw [← hshape]
    simp [Pending.shape, excess, Stack.size, hops, hvalues]
  next => exact .throw _

/-- What a successful evaluation does next: it ends where nothing can be read, it reads what ends it,
or it goes on after one more lexeme. -/
theorem complete_cases {p : Pending} {c rest : Cursor} {v : Int32} {s s' : σ}
    (h : (complete env mode p c : Action σ _).exec s = (.ok (v, rest), s')) :
    (Lexeme.read c.skipBlanks = none ∧ rest = c.skipBlanks ∧ p.shape.excess = 1 ∧
      p.shape.depth = 0) ∨
    (∃ x, Next c x rest ∧ terminates mode x = true ∧ p.shape.excess = 1 ∧ p.shape.depth = 0) ∨
    ∃ x c₁ p₁ s₁, Next c x c₁ ∧ p.shape.after env x = some p₁.shape ∧
      (complete env mode p₁ c₁ : Action σ _).exec s₁ = (.ok (v, rest), s') := by
  cases hread : Lexeme.read c.skipBlanks with
  | none =>
    rw [complete_of_read_eq_none hread] at h
    obtain ⟨v', t, hfinish, hpure⟩ := Action.exec_bind_eq_ok.mp h
    cases hpure
    exact .inl ⟨rfl, rfl, gives_finish p _ _ _ hfinish⟩
  | some y =>
    obtain ⟨x, c₁⟩ := y
    have hnext : Next c x c₁ := hread
    rw [complete_of_next hnext] at h
    obtain ⟨⟨p₁, ended⟩, s₁, habsorb, h⟩ := Action.exec_bind_eq_ok.mp h
    have hshape := gives_absorb p x _ _ _ habsorb
    cases ended with
    | false => exact .inr (.inr ⟨x, c₁, p₁, s₁, hnext, hshape, h⟩)
    | true =>
      obtain ⟨hsame, -, hx⟩ := hshape
      obtain ⟨v', t, hfinish, hpure⟩ := Action.exec_bind_eq_ok.mp h
      cases hpure
      exact .inr (.inl ⟨x, hnext, hx, hsame ▸ gives_finish p₁ _ _ _ hfinish⟩)

end

end Expr

end FlashBasic
