import FlashBasic.Expr.Eval
import Mathlib.Data.List.GetD
import Mathlib.Data.List.Induction
import Mathlib.Data.Nat.Digits.Defs
import Mathlib.Tactic.Common

/-!
Expression trees and their meaning. `Tree.eval` evaluates a tree from left to right: every node
computes on whole numbers and wraps its result to 32 bits.

The arithmetic of the evaluator is that of the trees: `Operator.apply_eq` for the operators,
`Expr.call_eq` for the functions, `Expr.element_eq` for array elements and `Number.ofDigits_eq` for
literals.
-/

namespace FlashBasic

set_option autoImplicit false

/-! ## Operators -/

namespace Operator

/-- The result of an operator before it is wrapped. The bitwise operators work on the 32 bits of
their operands, and shifts take their amount modulo 32. -/
def onInt (o : Operator) (a b : Int) : Except Error Int :=
  match o with
  | .add => .ok (a + b)
  | .sub => .ok (a - b)
  | .mul => .ok (a * b)
  | .div => if b = 0 then .error .divisionByZero else .ok (a.tdiv b)
  | .mod => if b = 0 then .error .divisionByZero else .ok (a.tmod b)
  | .and => .ok (BitVec.ofInt 32 a &&& BitVec.ofInt 32 b).toInt
  | .or => .ok (BitVec.ofInt 32 a ||| BitVec.ofInt 32 b).toInt
  | .xor => .ok (BitVec.ofInt 32 a ^^^ BitVec.ofInt 32 b).toInt
  | .shl => .ok (a * 2 ^ (b % 32).toNat)
  | .shr => .ok (a / 2 ^ (b % 32).toNat)
  | .ge => .ok (if a ≥ b then 1 else 0)
  | .gt => .ok (if a > b then 1 else 0)
  | .le => .ok (if a ≤ b then 1 else 0)
  | .lt => .ok (if a < b then 1 else 0)
  | .eq | .eqEq => .ok (if a = b then 1 else 0)
  | .ne | .neBang => .ok (if a ≠ b then 1 else 0)

theorem toNat_shiftAmount (b : Int32) : (b.toBitVec.smod 32).toNat = (b.toInt % 32).toNat := by
  have hmod : (b.toBitVec.smod 32).toInt = b.toInt % 32 := by
    rw [BitVec.toInt_smod, Int.fmod_eq_emod_of_nonneg _ (by decide)]
    simp
  have hlt := Int.emod_lt_of_pos b.toInt (show (0 : Int) < 32 by decide)
  have hle := Int.emod_nonneg b.toInt (show (32 : Int) ≠ 0 by decide)
  have hbound := (b.toBitVec.smod 32).isLt
  rw [← hmod] at hlt hle ⊢
  rw [BitVec.toInt_eq_toNat_cond] at hlt hle ⊢
  split
  · simp
  · rw [if_neg (by assumption)] at hle
    omega

theorem ofInt_shl (a b : Int32) : Int32.ofInt (a.toInt * 2 ^ (b.toInt % 32).toNat) = a <<< b := by
  rw [← Int32.toBitVec_inj, Int32.toBitVec_shiftLeft, Int32.toBitVec_ofInt, BitVec.shiftLeft_eq',
    toNat_shiftAmount, BitVec.shiftLeft_eq_mul_twoPow, BitVec.ofInt_mul]
  have hpow (n : Nat) : BitVec.ofInt 32 (2 ^ n) = BitVec.twoPow 32 n := by
    apply BitVec.eq_of_toNat_eq
    rw [BitVec.toNat_twoPow, BitVec.toNat_ofInt]
    norm_cast
  rw [hpow]
  simp

theorem ofInt_shr (a b : Int32) : Int32.ofInt (a.toInt / 2 ^ (b.toInt % 32).toNat) = a >>> b := by
  rw [← Int32.toBitVec_inj, Int32.toBitVec_shiftRight, Int32.toBitVec_ofInt,
    BitVec.sshiftRight_eq', toNat_shiftAmount]
  apply BitVec.eq_of_toInt_eq
  rw [← @BitVec.ofInt_toInt 32 (a.toBitVec.sshiftRight _), BitVec.toInt_sshiftRight,
    Int.shiftRight_eq_div_pow]
  simp

theorem ofInt_truth (p : Prop) [Decidable p] :
    Int32.ofInt (if p then 1 else 0) = truth (decide p) := by
  by_cases h : p <;> simp [h, truth]

theorem ofInt_tdiv (a b : Int32) : Int32.ofInt (a.toInt.tdiv b.toInt) = a / b := by
  rw [← Int32.toInt_inj, Int32.toInt_ofInt, Int32.toInt_div]

theorem ofInt_tmod (a b : Int32) : Int32.ofInt (a.toInt.tmod b.toInt) = a % b := by
  rw [← Int32.toInt_mod, Int32.ofInt_toInt]

theorem apply_eq (o : Operator) (a b : Int32) :
    o.apply a b = (o.onInt a.toInt b.toInt).map Int32.ofInt := by
  have hzero : b.toInt = 0 ↔ b = 0 := by
    rw [← Int32.toInt_inj, Int32.toInt_zero]
  cases o
  case div | mod =>
    simp only [apply, onInt, hzero]
    split
    · rfl
    · simp [Except.map, ofInt_tdiv, ofInt_tmod]
  case shl => simp only [apply, onInt, Except.map, ofInt_shl]
  case ne | neBang => simp only [apply, onInt, Except.map, ofInt_truth, ne_eq, Int32.toInt_inj]
  case and | or | xor =>
    simp only [apply, onInt, Except.map, Int32.ofInt_bitVecToInt, ← Int32.toBitVec_inj,
      Except.ok.injEq]
    simp
  all_goals
    simp [apply, onInt, Except.map, ofInt_shr, ofInt_truth, Int32.le_iff_toInt_le,
      Int32.lt_iff_toInt_lt, Int32.toInt_inj]

end Operator

/-! ## Functions and elements -/

section

variable {σ : Type}

/-- A reading of the host at a position below `limit`; `e` is the error when there is none. -/
def reading (e : Error) (limit : Int) (read : Nat → σ → Option Int32 × σ) (n : Int) :
    Action σ Int := do
  unless 0 ≤ n ∧ n < limit do throw e
  match ← .update (read n.toNat) with
  | some value => return value.toInt
  | none => throw e

theorem map_reading (e : Error) (limit a : Int32) (read : Nat → σ → Option Int32 × σ) :
    Int32.ofInt <$> reading e limit.toInt read a.toInt = (do
      if a < 0 ∨ limit ≤ a then throw e
      match ← .update (read a.toInt.toNat) with
      | some value => return value
      | none => throw e : Action σ Int32) := by
  have hrange : (a < 0 ∨ limit ≤ a) ↔ ¬ (0 ≤ a.toInt ∧ a.toInt < limit.toInt) := by
    rw [Int32.lt_iff_toInt_lt, Int32.le_iff_toInt_le, Int32.toInt_zero]
    omega
  have hvalue (r : Option Int32) :
      (Int32.ofInt <$> match r with
        | some value => pure value.toInt
        | none => throw e : Action σ Int32) =
      match r with
        | some value => pure value
        | none => throw e := by
    cases r with
    | some value => simp
    | none => rfl
  simp only [reading, hrange]
  by_cases h : 0 ≤ a.toInt ∧ a.toInt < limit.toInt
  · rw [if_pos h, if_neg (not_not_intro h), map_bind]
    simp only [hvalue]
  · rw [if_neg h, if_pos h]
    rfl

variable [Sensors σ] (env : Letter → Binding)

/-- What a function gives for its argument, before it is wrapped. -/
def Builtin.onInt (f : Builtin) (n : Int) : Action σ Int :=
  match f with
  | .abs => return n.natAbs
  | .rnd => do
    if n = 0 then throw .divisionByZero
    return (← .update Sensors.random).toInt % n
  | .pin bank => reading .badPin 8 (fun pin => Sensors.pinRead bank.val.toUInt8 pin.toUInt8) n
  | .btGet => reading .expression 0x8000 (fun param => Sensors.radioParam param.toUInt16) n

theorem ofInt_natAbs (a : Int32) : Int32.ofInt a.toInt.natAbs = magnitude a := by
  unfold magnitude
  split
  next h =>
    rw [Int32.lt_iff_toInt_lt, Int32.toInt_zero] at h
    rw [Int.ofNat_natAbs_of_nonpos (by omega)]
    simp
  next h =>
    rw [Int32.lt_iff_toInt_lt, Int32.toInt_zero] at h
    rw [Int.natAbs_of_nonneg (by omega)]
    simp

theorem Expr.call_eq (f : Builtin) (a : Int32) :
    (call f a : Action σ Int32) = Int32.ofInt <$> f.onInt a.toInt := by
  cases f with
  | abs =>
    simp only [call, Builtin.onInt, map_pure, ofInt_natAbs]
  | rnd =>
    have hzero : a.toInt = 0 ↔ a = 0 := by
      rw [← Int32.toInt_inj, Int32.toInt_zero]
    simp only [call, Builtin.onInt, hzero]
    split
    · rfl
    · simp [residue]
  | pin bank =>
    exact (map_reading .badPin 8 a fun pin => Sensors.pinRead bank.val.toUInt8 pin.toUInt8).symm
  | btGet =>
    exact (map_reading .expression 0x8000 a fun param => Sensors.radioParam param.toUInt16).symm

/-- The element of an array at a position, which must lie inside. -/
def elementAt (name : Letter) (i : Int) : Except Error Int :=
  match env name with
  | .array bytes =>
    if 0 ≤ i ∧ i < bytes.length then .ok (bytes.getD i.toNat 0).toNat else .error .expression
  | .scalar _ => .error .expression

theorem Expr.element_eq (name : Letter) (i : Int32) :
    element env name i = (elementAt env name i.toInt).map Int32.ofInt := by
  unfold element elementAt
  cases env name with
  | scalar v => rfl
  | array bytes =>
    have hneg : i < 0 ↔ i.toInt < 0 := by
      rw [Int32.lt_iff_toInt_lt, Int32.toInt_zero]
    simp only [hneg]
    by_cases hinside : 0 ≤ i.toInt ∧ i.toInt < bytes.length
    · rw [if_pos hinside, if_neg (by omega), List.getElem?_eq_getElem (by omega),
        List.getD_eq_getElem _ _ (by omega)]
      rfl
    · rw [if_neg hinside]
      split
      · rfl
      · rw [List.getElem?_eq_none (by omega)]
        rfl

end

/-! ## Literals -/

inductive Radix where
  | decimal
  | hex
deriving DecidableEq, Repr

namespace Radix

def base : Radix → Nat
  | .decimal => 10
  | .hex => 16

def maxLength : Radix → Nat
  | .decimal => 10
  | .hex => 8

end Radix

/-- The digits of a literal. -/
structure Digits (r : Radix) where
  bytes : List UInt8
  nonempty : bytes ≠ []
  length_le : bytes.length ≤ r.maxLength
  isSome : ∀ b ∈ bytes, (Ascii.digit? r.base b).isSome

namespace Digits

variable {r : Radix}

def values (d : Digits r) : List Nat := d.bytes.filterMap (Ascii.digit? r.base)

def value (d : Digits r) : Nat := Nat.ofDigits r.base d.values.reverse

end Digits

theorem Number.ofDigits_eq (base : Nat) (ds : List Nat) :
    ofDigits base ds = .ofNat (Nat.ofDigits base ds.reverse) := by
  induction ds using List.reverseRecOn with
  | nil => rfl
  | append_singleton ds d ih =>
    have hstep : ofDigits base (ds ++ [d]) = ofDigits base ds * .ofNat base + .ofNat d := by
      simp [ofDigits]
    rw [hstep, ih, List.reverse_append, List.reverse_singleton, List.singleton_append,
      Nat.ofDigits_cons, Int32.ofNat_add, Int32.ofNat_mul, Int32.add_comm, Int32.mul_comm]

/-! ## Trees -/

namespace Expr

inductive Tree where
  | literal (r : Radix) (digits : Digits r)
  | constant (k : Fin namedValues.length)
  | scalar (name : Letter)
  | millis
  | battery
  | length (name : Letter)
  | call (f : Builtin) (arg : Tree)
  | element (name : Letter) (index : Tree)
  | negate (e : Tree)
  | binary (o : Operator) (left right : Tree)

namespace Tree

variable {σ : Type} [Sensors σ] (env : Letter → Binding)

/-- Every letter is used as what it stands for: scalars alone, arrays with an index or `LEN`. -/
def Scoped : Tree → Prop
  | scalar name => ∃ v, env name = .scalar v
  | length name => ∃ bytes, env name = .array bytes
  | element name index => (∃ bytes, env name = .array bytes) ∧ index.Scoped
  | call _ arg => arg.Scoped
  | negate e => e.Scoped
  | binary _ left right => left.Scoped ∧ right.Scoped
  | _ => True

def eval : Tree → Action σ Int32
  | literal _ digits => return .ofInt digits.value
  | constant k => return (namedValues.get k).2
  | scalar name =>
    match env name with
    | .scalar v => return v
    | .array _ => throw .expression
  | millis => .update Sensors.millis
  | battery => .update Sensors.battery
  | length name =>
    match env name with
    | .array bytes => return .ofInt bytes.length
    | .scalar _ => throw .expression
  | call f arg => do
    let a ← arg.eval
    Int32.ofInt <$> f.onInt a.toInt
  | element name index => do
    let i ← index.eval
    Int32.ofInt <$> .ofExcept (elementAt env name i.toInt)
  | negate e => do
    let a ← e.eval
    return .ofInt (-a.toInt)
  | binary o left right => do
    let a ← left.eval
    let b ← right.eval
    Int32.ofInt <$> .ofExcept (o.onInt a.toInt b.toInt)

end Tree

end Expr

end FlashBasic
