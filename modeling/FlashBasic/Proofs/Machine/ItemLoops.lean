import FlashBasic.Host.Recorder
import FlashBasic.Machine.Run
import FlashBasic.Proofs.Expr.Acceptance

/-!
The loops that read text come to an end: the evaluator, which takes in one lexeme after the other,
and PRINT and WRITE, which take in one item after the other. The loops of PRINT and WRITE do not look
whether they get on. They rely on the evaluator, which never gives a value without reading for it:
at the end it counts its values, and before the first lexeme there is none.

`Action.LoopsFor` is a loop without a bound. Each of the three is such a loop, and the bounds they
are run with are never used up (`item_loops_end`).
-/

namespace FlashBasic

set_option autoImplicit false

/-! ## Loops -/

namespace Action

variable {S α β : Type}

/-- The loop whose rounds are `body` is over after `n` rounds, with outcome `r`. A round fails, gives
the value for another round, or gives the result. -/
inductive LoopsFor (body : α → Action S (α ⊕ β)) : Nat → α → S → Except Error β × S → Prop where
  | fail {a : α} {s t : S} {e : Error} (h : (body a).exec s = (.error e, t)) :
      LoopsFor body 1 a s (.error e, t)
  | done {a : α} {s t : S} {b : β} (h : (body a).exec s = (.ok (.inr b), t)) :
      LoopsFor body 1 a s (.ok b, t)
  | again {n : Nat} {a a' : α} {s t : S} {r : Except Error β × S}
      (h : (body a).exec s = (.ok (.inl a'), t)) (hrest : LoopsFor body n a' t r) :
      LoopsFor body (n + 1) a s r

variable {body : α → Action S (α ⊕ β)}

/-- A loop is over after at most one round more than there is to shrink. -/
theorem exists_loopsFor (size : α → S → Nat)
    (hsize : ∀ {a s a' t}, (body a).exec s = (.ok (.inl a'), t) → size a' t < size a s) (a : α)
    (s : S) : ∃ n r, n ≤ size a s + 1 ∧ LoopsFor body n a s r := by
  induction hn : size a s using Nat.strong_induction_on generalizing a s with
  | _ k ih =>
  obtain ⟨r, t, hbody⟩ : ∃ r t, (body a).exec s = (r, t) := ⟨_, _, rfl⟩
  cases r with
  | error e => exact ⟨1, _, by omega, .fail hbody⟩
  | ok next =>
    cases next with
    | inr b => exact ⟨1, _, by omega, .done hbody⟩
    | inl a' =>
      have hlt := hsize hbody
      obtain ⟨n, r, hle, hrest⟩ := ih _ (hn ▸ hlt) a' t rfl
      exact ⟨n + 1, r, by omega, .again hbody hrest⟩

/-- What runs the rounds of a loop within a bound has its outcome if it does not run out. -/
theorem LoopsFor.exec_eq {f : Nat → α → Action S β}
    (hf : ∀ fuel a, f (fuel + 1) a = body a >>= Sum.elim (f fuel) pure) {n : Nat} {a : α} {s : S}
    {r : Except Error β × S} (h : LoopsFor body n a s r) {fuel : Nat} (hn : n ≤ fuel) :
    (f fuel a).exec s = r := by
  induction h generalizing fuel with
  | fail hbody =>
    obtain ⟨k, rfl⟩ := Nat.exists_eq_add_of_le' hn
    rw [hf, exec_bind, hbody]
  | done hbody =>
    obtain ⟨k, rfl⟩ := Nat.exists_eq_add_of_le' hn
    rw [hf, exec_bind, hbody]
    rfl
  | again hbody hrest ih =>
    obtain ⟨k, rfl⟩ := Nat.exists_eq_add_of_le' hn
    rw [← Nat.add_assoc, hf, exec_bind, hbody]
    exact ih (by omega)

/-- A loop in which something shrinks with each round is what runs its rounds within that bound. -/
theorem loopsFor_exec {f : Nat → α → Action S β}
    (hf : ∀ fuel a, f (fuel + 1) a = body a >>= Sum.elim (f fuel) pure) (size : α → S → Nat)
    (hsize : ∀ {a s a' t}, (body a).exec s = (.ok (.inl a'), t) → size a' t < size a s) (a : α)
    (s : S) : ∃ n ≤ size a s + 1, LoopsFor body n a s ((f (size a s + 1) a).exec s) := by
  obtain ⟨n, r, hle, hloops⟩ := exists_loopsFor size hsize a s
  refine ⟨n, hle, ?_⟩
  rw [hloops.exec_eq hf hle]
  exact hloops

end Action

open FlashBasic.Action (LoopsFor)

/-! ## The evaluator -/

namespace Expr

variable {σ : Type} [Sensors σ] {env : Letter → Binding} {mode : Mode}

variable (env mode) in
/-- One round of the evaluator: a lexeme is taken in, unless there is none. -/
def round (x : Pending × Cursor) : Action σ ((Pending × Cursor) ⊕ (Pending × Cursor)) :=
  match Lexeme.read x.2.skipBlanks with
  | none => return .inr (x.1, x.2.skipBlanks)
  | some (lexeme, rest) => do
    let (p, ended) ← absorb env mode x.1 lexeme
    return if ended then .inr (p, rest) else .inl (p, rest)

theorem absorbAll_succ (fuel : Nat) (x : Pending × Cursor) :
    (absorbAll env mode (fuel + 1) x.1 x.2 : Action σ _) =
      round env mode x >>= Sum.elim (fun x => absorbAll env mode fuel x.1 x.2) pure := by
  rw [absorbAll, round]
  cases Lexeme.read x.2.skipBlanks with
  | none => rfl
  | some y =>
    dsimp only
    rw [bind_assoc]
    congr
    funext z
    obtain ⟨p, ended⟩ := z
    cases ended <;> rfl

/-- A round after which there is another one has read a lexeme. -/
theorem length_lt_of_round {x x' : Pending × Cursor} {s t : σ}
    (h : (round env mode x).exec s = (.ok (.inl x'), t)) : x'.2.length < x.2.length := by
  rw [round] at h
  split at h
  · cases h
  next lexeme rest hread =>
    obtain ⟨⟨p, ended⟩, u, -, h⟩ := Action.exec_bind_eq_ok.mp h
    cases ended with
    | true => cases h
    | false =>
      cases h
      have hnext : Next x.2 lexeme rest := hread
      exact hnext.length_lt

/-- Before the first lexeme there is no value, so an evaluation cannot end there. -/
theorem length_lt_of_evaluate {c rest : Cursor} {v : Int32} {s s' : σ}
    (h : (evaluate env mode c).exec s = (.ok (v, rest), s')) : rest.length < c.length := by
  have hnone : (Pending.shape {}).excess = 0 := rfl
  obtain ⟨-, -, hone, -⟩ | ⟨x, -, -, hone, -⟩ | ⟨x, c₁, p₁, s₁, hnext, -, h₁⟩ := complete_cases h
  · rw [hnone] at hone
    cases hone
  · rw [hnone] at hone
    cases hone
  · exact Nat.lt_of_le_of_lt (length_le_of_complete h₁) hnext.length_lt

theorem exists_read_of_evaluate {c rest : Cursor} {v : Int32} {s s' : σ}
    (h : (evaluate env mode c).exec s = (.ok (v, rest), s')) :
    ∃ read, read ≠ [] ∧ c = read ++ rest := by
  obtain ⟨read, rfl⟩ := suffix_of_complete h
  refine ⟨read, ?_, rfl⟩
  rintro rfl
  exact Nat.lt_irrefl _ (length_lt_of_evaluate h)

end Expr

/-! ## Items -/

namespace Exec

variable {σ α β : Type} {t : Execution σ} {n : Nat}

/-- Executing `a` from `t` fails or leaves fewer than `n` bytes to be read. -/
def Leaves (n : Nat) (t : Execution σ) (a : Exec σ α) : Prop :=
  ∀ x t', a.exec t = (.ok x, t') → t'.unread.length < n

namespace Leaves

theorem pure {x : α} (h : t.unread.length < n) : Leaves n t (pure x : Exec σ α) := by
  rintro y t' heq
  cases heq
  exact h

theorem bind {k : Nat} {a : Exec σ α} {f : α → Exec σ β} (ha : Leaves k t a)
    (hf : ∀ x t', t'.unread.length < k → Leaves n t' (f x)) : Leaves n t (a >>= f) := by
  intro y t' heq
  obtain ⟨x, u, hx, hy⟩ := Action.exec_bind_eq_ok.mp heq
  exact hf x u (ha x u hx) y t' hy

theorem get {f : Execution σ → Exec σ β} (hf : Leaves n t (f t)) : Leaves n t (get >>= f) := hf

theorem machine {f : Machine σ → Exec σ β} (hf : Leaves n t (f t.machine)) :
    Leaves n t (machine >>= f) := hf

theorem turnTo {text : Cursor} (h : text.length < n) : Leaves n t (turnTo text) := by
  rintro x t' heq
  cases heq
  exact h

theorem read {a : Action Cursor α}
    (h : ∀ x c, a.exec t.unread = (.ok x, c) → c.length < n) : Leaves n t (read a : Exec σ α) := by
  intro x t' heq
  rw [exec_read, Prod.mk.injEq] at heq
  obtain ⟨hx, rfl⟩ := heq
  exact h x _ (Prod.ext hx rfl)

theorem eval [Host σ] {mode : Mode} (h : t.unread.length ≤ n) :
    Leaves n t (eval mode : Exec σ Int32) := by
  intro v t' heq
  obtain ⟨t₁, u, hget, heq⟩ := Action.exec_bind_eq_ok.mp heq
  cases hget
  obtain ⟨⟨v', rest⟩, u, hvalue, heq⟩ := Action.exec_bind_eq_ok.mp heq
  cases heq
  rw [Action.exec_zoom, Prod.mk.injEq] at hvalue
  exact Nat.lt_of_lt_of_le (Expr.length_lt_of_evaluate (Prod.ext hvalue.1 rfl)) h

end Leaves

theorem length_advance_lt {c : Cursor} (h : c.peek ≠ Ascii.newline) :
    c.advance.length < c.length :=
  Nat.lt_of_succ_le (Nat.le_of_eq (congrArg List.length (Cursor.eq_cons_of_peek rfl h)).symm)

theorem length_advance_le (c : Cursor) : c.advance.length ≤ c.length :=
  (List.tail_suffix c).length_le

theorem length_le_of_literal {quote : UInt8} {text : String} {c c' : Cursor}
    (h : (literal quote).exec c = (.ok text, c')) : c'.length ≤ c.length := by
  rw [literal, Action.exec_bind, Action.exec_get] at h
  dsimp only at h
  split_ifs at h
  · cases h
  · cases h
    exact ((List.tail_suffix _).trans (List.drop_suffix _ _)).length_le

theorem length_le_of_accept {b : UInt8} {found : Bool} {c c' : Cursor}
    (h : (Cursor.accept b).exec c = (.ok found, c')) : c'.length ≤ c.length := by
  have hblanks := Expr.length_skipBlanks_le c
  have hc := congrArg Prod.snd h
  rw [Cursor.accept, Action.exec_update] at hc
  dsimp only at hc
  split at hc
  · exact hc ▸ Nat.le_trans (length_advance_le _) hblanks
  · exact hc ▸ hblanks

/-- An array stands alone only where its name is. -/
theorem peek_of_aloneArray? {m : Machine σ} {c : Cursor} {a : ArrayFrame}
    (h : aloneArray? m c = some a) : c.peek ≠ Ascii.newline := by
  rw [aloneArray?] at h
  split_ifs at h
  obtain ⟨name, hname, -⟩ := Option.bind_eq_some_iff.mp h
  rw [Letter.eq_byte_of_ofByte? hname]
  exact name.byte_ne_newline

variable [Host σ]

/-! ### PRINT -/

/-- What one item of PRINT prints: a literal or the value of an expression, nothing for a comma or a
blank between items. -/
def printItem : Exec σ String := do
  let c := (← get).unread
  let b := c.peek
  if Ascii.isQuote b then
    turnTo c.advance
    read (literal b)
  else if b = Ascii.code ',' ∨ b = Ascii.code ' ' then
    turnTo c.advance
    return ""
  else
    let value ← eval .comma
    return toString value.toInt

/-- One round of PRINT. -/
def printRound (out : String) : Exec σ (String ⊕ String) := do
  if (← get).unread.peek = Ascii.newline then return .inr out
  else return .inl (out ++ (← printItem))

theorem printItems_succ (fuel : Nat) (out : String) :
    (printItems (fuel + 1) out : Exec σ String) =
      printRound out >>= Sum.elim (printItems fuel) pure := by
  refine funext fun t => ?_
  change (printItems (fuel + 1) out).exec t = (printRound out >>= _).exec t
  rw [printItems, printRound, bind_assoc, Action.exec_bind, Action.exec_get, Action.exec_bind,
    Action.exec_get]
  dsimp only
  by_cases hend : t.unread.peek = Ascii.newline
  · rw [if_pos hend, if_pos hend]
    rfl
  · rw [if_neg hend, if_neg hend, bind_assoc, printItem, bind_assoc, Action.exec_bind,
      Action.exec_get]
    dsimp only
    split_ifs <;> simp only [bind_assoc, pure_bind, Sum.elim_inl, String.append_empty]

theorem leaves_printItem (h : t.unread.peek ≠ Ascii.newline) :
    Leaves t.unread.length t (printItem : Exec σ String) := by
  have hadvance := length_advance_lt h
  refine .get ?_
  dsimp only
  split_ifs
  · refine .bind (.turnTo hadvance) fun _ t' ht' => .read fun text c hc => ?_
    exact Nat.lt_of_le_of_lt (length_le_of_literal hc) ht'
  · exact .bind (.turnTo hadvance) fun _ t' ht' => .pure ht'
  · exact .bind (.eval le_rfl) fun v t' ht' => .pure ht'

theorem length_lt_of_printRound {out out' : String} {t' : Execution σ}
    (h : (printRound out).exec t = (.ok (.inl out'), t')) :
    t'.unread.length < t.unread.length := by
  obtain ⟨t₁, u, hget, h⟩ := Action.exec_bind_eq_ok.mp h
  cases hget
  split_ifs at h with hend
  · cases h
  · obtain ⟨item, u, hitem, h⟩ := Action.exec_bind_eq_ok.mp h
    cases h
    exact leaves_printItem hend item _ hitem

/-! ### WRITE -/

/-- One round of WRITE. -/
def writeRound (data : List UInt8) : Exec σ (List UInt8 ⊕ List UInt8) := do
  let data := data ++ (← writeItem)
  read (modify Cursor.skipBlanks)
  return if (← get).unread.atEnd then .inr data else .inl data

theorem writeItems_succ (fuel : Nat) (data : List UInt8) :
    (writeItems (fuel + 1) data : Exec σ _) =
      writeRound data >>= Sum.elim (writeItems fuel) pure := by
  rw [writeItems, writeRound, bind_assoc]
  congr
  funext item
  simp only [bind_assoc, pure_bind]
  congr
  funext _
  congr
  funext t
  split <;> rfl

theorem leaves_writeItem : Leaves t.unread.length t (writeItem : Exec σ (List UInt8)) := by
  refine .bind (k := t.unread.length + 1) (.read ?_) fun _ u hu => .get (.machine ?_)
  · rintro x c hc
    cases hc
    exact Nat.lt_succ_of_le (Expr.length_skipBlanks_le _)
  have hu := Nat.le_of_lt_succ hu
  split
  next a ha =>
    have hadvance := Nat.lt_of_lt_of_le (length_advance_lt (peek_of_aloneArray? ha)) hu
    refine .bind (.turnTo hadvance) fun _ v hv => ?_
    refine .bind (.read fun found c hc => ?_) fun _ w hw => .pure hw
    exact Nat.lt_of_le_of_lt (length_le_of_accept hc) hv
  next => exact .bind (.eval hu) fun _ v hv => .pure hv

theorem leaves_writeRound (data : List UInt8) :
    Leaves t.unread.length t (writeRound data : Exec σ (List UInt8 ⊕ List UInt8)) := by
  refine .bind leaves_writeItem fun item u hu => .bind (.read ?_) fun _ v hv => .get (.pure hv)
  rintro x c hc
  cases hc
  exact Nat.lt_of_le_of_lt (Expr.length_skipBlanks_le _) hu

end Exec

/-- On any text the loop of the evaluator is over after at most one round for each byte and one more,
and if the evaluator gives a value then it has read something. So the same holds of the loops of
PRINT and WRITE, whatever the state of the machine. -/
theorem item_loops_end {τ σ : Type} [Sensors τ] [Host σ] :
    (∀ (env : Letter → Binding) (mode : Mode) (c : Cursor) (s : τ),
      (∃ n ≤ c.length + 1, LoopsFor (Expr.round env mode) n ({}, c) s
        ((Expr.absorbAll env mode c.length {} c).exec s)) ∧
      ∀ v rest s', (evaluate env mode c).exec s = (.ok (v, rest), s') →
        ∃ read, read ≠ [] ∧ c = read ++ rest) ∧
    (∀ t : Execution σ, ∃ n ≤ t.unread.length + 1,
      LoopsFor Exec.printRound n "" t ((Exec.printItems (t.unread.length + 1) "").exec t)) ∧
    ∀ t : Execution σ, ∃ n ≤ t.unread.length + 1,
      LoopsFor Exec.writeRound n [] t ((Exec.writeItems (t.unread.length + 1) []).exec t) := by
  refine ⟨fun env mode c s => ⟨?_, fun v rest s' => Expr.exists_read_of_evaluate⟩, ?_, ?_⟩
  · have hloops := Action.loopsFor_exec (f := fun fuel x => Expr.absorbAll env mode fuel x.1 x.2)
      Expr.absorbAll_succ (fun x _ => x.2.length) Expr.length_lt_of_round ({}, c) s
    rw [Expr.absorbAll_fuel (Nat.le_succ _) le_rfl] at hloops
    exact hloops
  · exact Action.loopsFor_exec Exec.printItems_succ (fun _ t => t.unread.length)
      Exec.length_lt_of_printRound ""
  · exact Action.loopsFor_exec Exec.writeItems_succ (fun _ t => t.unread.length)
      (fun h => Exec.leaves_writeRound _ _ _ h) []

/-- The text has no newline at its end; of its two commas the first ends the expression. -/
theorem item_loops_end_comma :
    let env : Letter → Binding := fun _ => .scalar 7
    let c : Cursor := [32, 65, 44, 44]
    (evaluate env .comma c).exec ({} : Recorder) = (.ok (7, [44]), {}) ∧
      ∃ read, read ≠ [] ∧ c = read ++ [44] := by
  intro env c
  have hvalue : (evaluate env .comma c).exec ({} : Recorder) = (.ok (7, [44]), {}) := rfl
  have hloops := (item_loops_end (τ := Recorder) (σ := Recorder)).1 env .comma c {}
  exact ⟨hvalue, hloops.2 7 [44] {} hvalue⟩

end FlashBasic
