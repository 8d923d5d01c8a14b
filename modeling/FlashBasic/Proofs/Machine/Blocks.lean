import FlashBasic.Host.Recorder
import FlashBasic.Proofs.Machine.Course
import FlashBasic.Proofs.Machine.Performing
import Mathlib.Algebra.BigOperators.Intervals

/-!
Blocks of a program. `Machine.openBlocks` counts the blocks that the lines from one to another open
and do not close, and says which END belongs to an IF (`Machine.Encloses`) and which lines between
the two are clauses of this block and not of one inside it. IF and the end of a clause look for
their line in two different ways, and both keep this count while they look.
-/

namespace FlashBasic

set_option autoImplicit false

/-- Blocks that a statement opens, less those that it closes. -/
def Statement.nesting : Option Statement → Int
  | some .if => 1
  | some .end => -1
  | _ => 0

theorem Statement.eq_end_of_nesting {s : Option Statement} (h : nesting s < 0) : s = some .end := by
  unfold nesting at h
  split at h
  · cases h
  · rfl
  · cases h

theorem Statement.neg_one_le_nesting (s : Option Statement) : -1 ≤ nesting s := by
  unfold nesting
  split <;> decide

theorem Statement.nesting_of_ne {s : Option Statement} (hif : s ≠ some .if) (hend : s ≠ some .end) :
    nesting s = 0 := by
  unfold nesting
  split
  · exact absurd rfl hif
  · exact absurd rfl hend
  · rfl

open Statement (nesting)

namespace Machine

variable {σ : Type} {m : Machine σ} {p e q : Nat}

/-! ## Lines -/

/-- The statement on a line, if the line starts with one. -/
def head (m : Machine σ) (pos : Nat) : Option Statement :=
  Statement.ofText? (m.textAt (.line pos))

/-- What stands behind the first word of a line. -/
def condition (m : Machine σ) (pos : Nat) : Cursor :=
  (Statement.decode.exec (m.textAt (.line pos))).2

theorem exec_decode_of_head {s : Statement} (h : m.head p = some s) :
    Statement.decode.exec (m.textAt (.line p)) = (.ok s, m.condition p) := by
  obtain ⟨rest, hdecode⟩ := Statement.exists_decode h
  rw [condition, hdecode]

theorem lt_size_of_head {s : Statement} (h : m.head p = some s) : p < m.store.size := by
  by_contra hle
  have hline : m.store.line? p = none := by
    rw [Store.line?, List.getElem?_eq_none (not_lt.mp hle), Option.map_none]
  rw [head, textAt, hline] at h
  cases h

/-- The lines after one are the next line and those after it. -/
theorem linesAfter_eq_cons (h : p + 1 < m.store.size) :
    m.linesAfter p = (p + 1, m.textAt (.line (p + 1))) :: m.linesAfter (p + 1) := by
  have htext : m.textAt (.line (p + 1)) = m.store.flash.payload (m.store.index.get ⟨p + 1, h⟩) := by
    rw [textAt, Store.line?, List.getElem?_eq_getElem h]
    rfl
  rw [linesAfter, linesAfter, List.drop_eq_getElem_cons h, List.mapIdx_cons, htext]
  refine congrArg₂ List.cons rfl (List.mapIdx_eq_mapIdx_iff.mpr fun i _ => ?_)
  rw [Nat.add_comm i 1, ← Nat.add_assoc]

/-! ## Blocks -/

/-- Blocks opened less blocks closed on the lines from `p` up to, but without, line `q`. -/
def openBlocks (m : Machine σ) (p q : Nat) : Int := ∑ i ∈ Finset.Ico p q, nesting (m.head i)

theorem openBlocks_succ (h : p ≤ q) :
    m.openBlocks p (q + 1) = m.openBlocks p q + nesting (m.head q) :=
  Finset.sum_Ico_succ_top h _

/-- Line `e` is the END that closes the block opened by the IF on line `p`: the count is back to zero
there for the first time. -/
structure Encloses (m : Machine σ) (p e : Nat) : Prop where
  isIf : m.head p = some .if
  lt : p < e
  isOpen : ∀ q, p < q → q ≤ e → 0 < m.openBlocks p q
  closed : m.openBlocks p (e + 1) = 0

/-- The first ELSE of the block between `p` and `e` itself. -/
def elseLine? (m : Machine σ) (p e : Nat) : Option Nat :=
  (List.range' (p + 1) (e - (p + 1))).find? fun q => m.openBlocks p q = 1 ∧ m.head q = some .else

/-- The line after which execution goes on when no condition holds: the ELSE or else the END. -/
def lastHead (m : Machine σ) (p e : Nat) : Nat := (m.elseLine? p e).getD e

/-- The `n` lines from `q` on that are an ELIF of the block opened on line `p` itself. -/
def elifLines (m : Machine σ) (p q n : Nat) : List Nat :=
  (List.range' q n).filter fun q => m.openBlocks p q = 1 ∧ m.head q = some .elif

/-- The clauses with a condition after the first, up to the ELSE of the block. -/
def clauses (m : Machine σ) (p e : Nat) : List Nat :=
  m.elifLines p (p + 1) (m.lastHead p e - (p + 1))

namespace Encloses

theorem openBlocks_start (h : m.Encloses p e) : m.openBlocks p (p + 1) = 1 := by
  have hif : nesting (m.head p) = 1 := congrArg nesting h.isIf
  rw [openBlocks_succ le_rfl, hif, openBlocks, Finset.Ico_self, Finset.sum_empty, Int.zero_add]

theorem openBlocks_end (h : m.Encloses p e) : m.openBlocks p e = 1 ∧ m.head e = some .end := by
  have hclosed := h.closed
  have hopen := h.isOpen e h.lt le_rfl
  have hnesting := Statement.neg_one_le_nesting (m.head e)
  rw [openBlocks_succ h.lt.le] at hclosed
  exact ⟨by omega, Statement.eq_end_of_nesting (by omega)⟩

theorem lastHead_spec (h : m.Encloses p e) :
    p < m.lastHead p e ∧ m.lastHead p e ≤ e ∧ m.openBlocks p (m.lastHead p e) = 1 ∧
      (m.head (m.lastHead p e) = some .else ∨ m.head (m.lastHead p e) = some .end) ∧
      ∀ q, p < q → q < m.lastHead p e → m.openBlocks p q = 1 → m.head q ≠ some .else := by
  have hlt := h.lt
  cases helse : m.elseLine? p e with
  | none =>
    have hlast : m.lastHead p e = e := by rw [lastHead, helse, Option.getD_none]
    obtain ⟨hopen, hend⟩ := h.openBlocks_end
    rw [hlast]
    refine ⟨hlt, le_rfl, hopen, .inr hend, fun q hpq hqe hown helse' => ?_⟩
    have hnone := List.find?_range'_eq_none.mp helse q hpq (by omega)
    simp [hown, helse'] at hnone
  | some l =>
    have hlast : m.lastHead p e = l := by rw [lastHead, helse, Option.getD_some]
    obtain ⟨hfound, hmem, hfirst⟩ := List.find?_range'_eq_some.mp helse
    obtain ⟨hown, hl⟩ : m.openBlocks p l = 1 ∧ m.head l = some .else := by simpa using hfound
    obtain ⟨hpl, hle⟩ := List.mem_range'_1.mp hmem
    rw [hlast]
    refine ⟨hpl, by omega, hown, .inl hl, fun q hpq hql hown' helse' => ?_⟩
    have hnot := hfirst q hpq hql
    simp [hown', helse'] at hnot

end Encloses

/-! ## Counting line by line -/

/-- The number of blocks opened on the way, after a line with this statement. -/
def nestAfter (nest : Nat) : Option Statement → Nat
  | some .if => nest + 1
  | some .end => nest - 1
  | _ => nest

/-- Inside the block the way of counting line by line agrees with `openBlocks`. -/
theorem Encloses.count (h : m.Encloses p e) {nest : Nat} (hpq : p ≤ q) (hqe : q + 1 < e)
    (hnest : m.openBlocks p (q + 1) = nest + 1) :
    (m.head (q + 1) = some .end → nest ≠ 0) ∧
      m.openBlocks p (q + 1 + 1) = nestAfter nest (m.head (q + 1)) + 1 := by
  have hle : p ≤ q + 1 := Nat.le_succ_of_le hpq
  have hpos := h.isOpen (q + 1 + 1) (by omega) (by omega)
  rw [openBlocks_succ hle, hnest] at hpos ⊢
  by_cases hend : m.head (q + 1) = some .end
  · rw [hend] at hpos ⊢
    simp only [nesting, nestAfter] at hpos ⊢
    omega
  · refine ⟨fun heq => absurd heq hend, ?_⟩
    by_cases hif : m.head (q + 1) = some .if
    · rw [hif]
      simp only [nesting, nestAfter]
      omega
    · have hsame : nestAfter nest (m.head (q + 1)) = nest := by
        unfold nestAfter
        split
        · exact absurd ‹_› hif
        · exact absurd ‹_› hend
        · rfl
      rw [Statement.nesting_of_ne hif hend, hsame, Int.add_zero]

/-! ## Leaving a block -/

theorem closingEnd?_cons (pos nest : Nat) (text : List UInt8) (rest : List (Nat × List UInt8)) :
    Exec.closingEnd? ((pos, text) :: rest) nest =
      if Statement.ofText? text = some .end ∧ nest = 0 then some pos
      else Exec.closingEnd? rest (nestAfter nest (Statement.ofText? text)) := by
  rw [Exec.closingEnd?]
  unfold nestAfter
  split <;> simp_all

-- The induction is on the number of lines before the END.
theorem Encloses.closingEnd? (h : m.Encloses p e) {nest n : Nat} (hpq : p ≤ q) (hn : q + 1 + n = e)
    (hnest : m.openBlocks p (q + 1) = nest + 1) :
    Exec.closingEnd? (m.linesAfter q) nest = some e := by
  obtain ⟨hopen, hend⟩ := h.openBlocks_end
  have hsize := lt_size_of_head hend
  induction n generalizing q nest with
  | zero =>
    obtain rfl : q + 1 = e := hn
    rw [linesAfter_eq_cons hsize, closingEnd?_cons, if_pos ⟨hend, by omega⟩]
  | succ n ih =>
    obtain ⟨hinner, hcount⟩ := h.count hpq (by omega) hnest
    rw [linesAfter_eq_cons (by omega), closingEnd?_cons, if_neg fun hboth => hinner hboth.1 hboth.2]
    exact ih (Nat.le_succ_of_le hpq) (by omega) hcount

/-! ## Choosing a clause -/

variable [Host σ]

/-- Evaluates the conditions on the lines `heads` one after the other, up to the first that holds,
and returns its line. -/
def firstHolding (m : Machine σ) : (heads : List Nat) → Except Error (Option Nat) × Machine σ
  | [] => (.ok none, m)
  | q :: heads =>
    match Exec.evalLast.exec { machine := m, unread := m.condition q } with
    | (.ok value, t) =>
      if value ≠ 0 then (.ok (some q), t.machine) else firstHolding t.machine heads
    | (.error e, t) => (.error e, t.machine)

omit [Host σ] in
theorem Alike.condition {m' : Machine σ} (h : m.Alike m') (pos : Nat) :
    m'.condition pos = m.condition pos := by
  obtain ⟨host, rfl⟩ := h
  rfl

/-- Execution goes on after the line whose condition holds, or else after `last`. -/
def goesOn (last : Nat) : Except Error (Option Nat) × Machine σ → Except Error Pc × Machine σ
  | (.ok r, m) => (.ok (m.after (r.getD last)), m)
  | (.error e, m) => (.error e, m)

/-- The result of an action and the machine it leaves. -/
def reached {α : Type} (r : Except Error α × Execution σ) : Except Error α × Machine σ :=
  (r.1, r.2.machine)

theorem nextClause_cons (pos nest : Nat) (text : List UInt8) (rest : List (Nat × List UInt8)) :
    (Exec.nextClause ((pos, text) :: rest) nest : Exec σ Pc) =
      if nest = 0 ∧ (Statement.ofText? text = some .end ∨ Statement.ofText? text = some .else) then do
        return (← Exec.machine).after pos
      else if nest = 0 ∧ Statement.ofText? text = some .elif then do
        Exec.turnTo (Statement.decode.exec text).2
        if (← Exec.evalLast) ≠ 0 then return (← Exec.machine).after pos
        else Exec.nextClause rest nest
      else Exec.nextClause rest (nestAfter nest (Statement.ofText? text)) := by
  rw [Exec.nextClause, Statement.ofText?]
  obtain ⟨r, condition⟩ := Statement.decode.exec text
  cases r with
  | error e => simp [nestAfter, Except.toOption]
  | ok s => cases s <;> simp [nestAfter, Except.toOption]

omit [Host σ] in
theorem elifLines_succ (m : Machine σ) (p q n : Nat) :
    m.elifLines p q (n + 1) =
      if m.openBlocks p q = 1 ∧ m.head q = some .elif then q :: m.elifLines p (q + 1) n
      else m.elifLines p (q + 1) n := by
  rw [elifLines, List.range'_succ, List.filter_cons]
  simp [elifLines]

-- The induction is on the number of lines before the one where the search ends.
theorem Encloses.exec_nextClause (h : m.Encloses p e) {nest n : Nat} {t : Execution σ}
    (halike : m.Alike t.machine) (hpq : p ≤ q) (hn : q + 1 + n = m.lastHead p e)
    (hnest : m.openBlocks p (q + 1) = nest + 1) :
    reached ((Exec.nextClause (m.linesAfter q) nest).exec t) =
      goesOn (m.lastHead p e) (t.machine.firstHolding (m.elifLines p (q + 1) n)) := by
  obtain ⟨hplast, hlaste, hown, hlast, hfirst⟩ := h.lastHead_spec
  have hsize := lt_size_of_head h.openBlocks_end.2
  induction n generalizing q nest t with
  | zero =>
    obtain hn : q + 1 = m.lastHead p e := hn
    rw [← hn] at hown hlast ⊢
    rw [linesAfter_eq_cons (by omega), nextClause_cons, if_pos ⟨by omega, hlast.symm⟩]
    rfl
  | succ n ih =>
    obtain ⟨hinner, hcount⟩ := h.count hpq (by omega) hnest
    have hzero : nest = 0 ↔ m.openBlocks p (q + 1) = 1 := by omega
    have hskip : ¬ (nest = 0 ∧ (m.head (q + 1) = some .end ∨ m.head (q + 1) = some .else)) := by
      rintro ⟨hnest', hend | helse⟩
      · exact hinner hend hnest'
      · exact hfirst (q + 1) (by omega) (by omega) (hzero.mp hnest') helse
    rw [linesAfter_eq_cons (by omega), nextClause_cons, ← head, ← condition, if_neg hskip,
      elifLines_succ]
    have hle : p ≤ q + 1 := Nat.le_succ_of_le hpq
    have hrest {t' : Execution σ} (halike' : m.Alike t'.machine) := ih halike' hle (by omega) hcount
    by_cases hclause : nest = 0 ∧ m.head (q + 1) = some .elif
    · have hsame : nestAfter nest (m.head (q + 1)) = nest := by rw [hclause.2]; rfl
      rw [hsame] at hrest
      rw [if_pos hclause, if_pos ⟨hzero.mp hclause.1, hclause.2⟩, firstHolding, halike.condition,
        Action.exec_bind, Exec.exec_turnTo]
      dsimp only
      rw [Action.exec_bind]
      have hvia := Exec.Via.evalLast (R := Alike) (t := { t with unread := m.condition (q + 1) })
      cases hexec : Exec.evalLast.exec { t with unread := m.condition (q + 1) } with
      | mk r t' =>
        have halike' := halike.trans (hvia.exec hexec)
        cases r with
        | error err => rfl
        | ok value =>
          dsimp only
          by_cases hvalue : value ≠ 0
          · rw [if_pos hvalue, if_pos hvalue]
            rfl
          · rw [if_neg hvalue, if_neg hvalue]
            exact hrest halike'
    · rw [if_neg hclause, if_neg fun hown' => hclause ⟨hzero.mpr hown'.1, hown'.2⟩]
      exact hrest halike

/-! ## IF, ELIF and ELSE -/

/-- What follows when execution goes on at a place, or fails. -/
def leads (pc : Pc) : Except Error Pc × Machine σ → Turn × Machine σ
  | (.ok target, m) => (.more target, m)
  | (.error e, m) => halted (m.fail pc e)

theorem outcome_jump (pc : Pc) (a : Exec σ Pc) (t : Execution σ) :
    outcome pc ((do return .jump (← a) : Exec σ Flow).exec t) = leads pc (reached (a.exec t)) := by
  rw [Action.exec_bind]
  obtain ⟨r, t'⟩ := a.exec t
  cases r <;> rfl

theorem exec_branch (p : Nat) (t : Execution σ) :
    (Exec.branch (.line p)).exec t =
      match Exec.evalLast.exec t with
      | (.ok value, t) =>
        if value ≠ 0 then (.ok .next, t)
        else (do return .jump (← Exec.nextClause (t.machine.linesAfter p) 0) : Exec σ Flow).exec t
      | (.error e, t) => (.error e, t) := by
  rw [Exec.branch, Action.exec_bind]
  obtain ⟨r, t'⟩ := Exec.evalLast.exec t
  cases r with
  | error e => rfl
  | ok value =>
    dsimp only
    by_cases hvalue : value ≠ 0
    · rw [if_pos hvalue, if_pos hvalue, Action.exec_pure]
    · rw [if_neg hvalue, if_neg hvalue, Exec.position, pure_bind, Action.exec_bind, Exec.exec_machine]

theorem Encloses.step_if (h : m.Encloses p e) (hbreak : (Host.breakCheck m.host).1 = false) :
    m.step (.line p) = leads (.line p) (goesOn (m.lastHead p e)
      (firstHolding { m with host := (Host.breakCheck m.host).2 } (p :: m.clauses p e))) := by
  have hplast := h.lastHead_spec.1
  rw [step_eq_perform (by simp) hbreak, perform_eq,
    exec_statement_of_decode (exec_decode_of_head h.isIf), if_neg (by simp), Exec.perform, exec_branch]
  generalize hm : ({ m with host := (Host.breakCheck m.host).2 } : Machine σ) = m₀
  have halike : m.Alike m₀ := ⟨_, hm.symm⟩
  rw [firstHolding, halike.condition]
  have hvia := Exec.Via.evalLast (R := Alike) (t := { machine := m₀, unread := m.condition p })
  cases hexec : Exec.evalLast.exec { machine := m₀, unread := m.condition p } with
  | mk r t =>
    have halike' := halike.trans (hvia.exec hexec)
    cases r with
    | error err => rfl
    | ok value =>
      dsimp only
      by_cases hvalue : value ≠ 0
      · rw [if_pos hvalue, if_pos hvalue]
        rfl
      · have hstart : m.openBlocks p (p + 1) = (0 : Nat) + 1 := h.openBlocks_start
        have hclause := h.exec_nextClause (n := m.lastHead p e - (p + 1)) halike' le_rfl (by omega) hstart
        have hlines : t.machine.linesAfter p = m.linesAfter p := by
          obtain ⟨host, ht⟩ := halike'
          rw [ht]
          rfl
        rw [if_neg hvalue, if_neg hvalue, outcome_jump, hlines, hclause, clauses]

theorem Encloses.step_clause (h : m.Encloses p e) (hbreak : (Host.breakCheck m.host).1 = false)
    (hpq : p < q) (hqe : q < e) (hown : m.openBlocks p q = 1)
    (hhead : m.head q = some .elif ∨ m.head q = some .else) :
    m.step (.line q) = (.more (m.after e), { m with host := (Host.breakCheck m.host).2 }) := by
  have hnesting : nesting (m.head q) = 0 := by
    obtain hhead | hhead := hhead <;> rw [hhead] <;> rfl
  have hnest : m.openBlocks p (q + 1) = (0 : Nat) + 1 := by
    rw [openBlocks_succ hpq.le, hown, hnesting]
    rfl
  have hend := h.closingEnd? (n := e - (q + 1)) hpq.le (by omega) hnest
  have hleave : (Exec.leaveBlock (.line q)).exec
      { machine := { m with host := (Host.breakCheck m.host).2 }, unread := m.condition q } =
      (.ok (.jump (m.after e)),
        { machine := { m with host := (Host.breakCheck m.host).2 }, unread := m.condition q }) := by
    have hlines : linesAfter { m with host := (Host.breakCheck m.host).2 } q = m.linesAfter q := rfl
    rw [Exec.leaveBlock, Action.exec_bind, Exec.exec_machine]
    dsimp only
    rw [Exec.position, pure_bind, hlines, hend]
    rfl
  rw [step_eq_perform (by simp) hbreak, perform_eq]
  obtain hhead | hhead := hhead
  · rw [exec_statement_of_decode (exec_decode_of_head hhead), if_neg (by simp), Exec.perform, hleave]
    rfl
  · rw [exec_statement_of_decode (exec_decode_of_head hhead), if_neg (by simp), Exec.perform, hleave]
    rfl

theorem alike_firstHolding (m : Machine σ) (heads : List Nat) : m.Alike (m.firstHolding heads).2 := by
  induction heads generalizing m with
  | nil => exact .refl m
  | cons q heads ih =>
    rw [firstHolding]
    have hvia := Exec.Via.evalLast (R := Alike) (t := { machine := m, unread := m.condition q })
    cases hexec : Exec.evalLast.exec { machine := m, unread := m.condition q } with
    | mk r t =>
      have halike := hvia.exec hexec
      cases r with
      | error err => exact halike
      | ok value =>
        dsimp only
        split
        · exact halike
        · exact halike.trans (ih t.machine)

theorem mem_of_firstHolding {m m' : Machine σ} {heads : List Nat} {l : Nat}
    (h : m.firstHolding heads = (.ok (some l), m')) : l ∈ heads := by
  induction heads generalizing m with
  | nil => cases h
  | cons q heads ih =>
    rw [firstHolding] at h
    split at h
    · split at h
      · cases h
        exact List.mem_cons_self
      · exact List.mem_cons_of_mem _ (ih h)
    · cases h

omit [Host σ] in
/-- The lines after which execution may go on lie in the block and not in one inside it. -/
theorem Encloses.own_of_mem (h : m.Encloses p e) {l : Nat}
    (hl : l ∈ p :: m.clauses p e ∨ l = m.lastHead p e) :
    p ≤ l ∧ l ≤ e ∧ (l < e → m.openBlocks p (l + 1) = 1) := by
  obtain ⟨hplast, hlaste, hown, hlast, -⟩ := h.lastHead_spec
  have hlt := h.lt
  have hafter (l : Nat) (hpl : p ≤ l) (hown : m.openBlocks p l = 1)
      (hhead : m.head l = some .elif ∨ m.head l = some .else) : m.openBlocks p (l + 1) = 1 := by
    have hnesting : nesting (m.head l) = 0 := by
      obtain hhead | hhead := hhead <;> rw [hhead] <;> rfl
    rw [openBlocks_succ hpl, hown, hnesting, Int.add_zero]
  obtain hl | rfl := hl
  · obtain rfl | hl := List.mem_cons.mp hl
    · exact ⟨le_rfl, hlt.le, fun _ => h.openBlocks_start⟩
    · obtain ⟨hrange, hclause⟩ := List.mem_filter.mp hl
      obtain ⟨hpl, hlt'⟩ := List.mem_range'_1.mp hrange
      obtain ⟨hown', helif⟩ : m.openBlocks p l = 1 ∧ m.head l = some .elif := by simpa using hclause
      exact ⟨by omega, by omega, fun _ => hafter l (by omega) hown' (.inl helif)⟩
  · refine ⟨hplast.le, hlaste, fun hlt' => hafter _ hplast.le hown (.inr (hlast.resolve_right ?_))⟩
    intro hend
    have hopen := h.isOpen (m.lastHead p e + 1) (by omega) hlt'
    rw [openBlocks_succ hplast.le, hown, hend] at hopen
    exact absurd hopen (by decide)

/-- IF goes on after the first line of its block whose condition holds, or else after the ELSE of the
block or after its END, and the end of a clause leads after the END. None of these lines lies in a
block inside this one. -/
theorem branches_of_block (h : m.Encloses p e) (hbreak : (Host.breakCheck m.host).1 = false) :
    let m₀ : Machine σ := { m with host := (Host.breakCheck m.host).2 }
    (∀ r m', m₀.firstHolding (p :: m.clauses p e) = (.ok r, m') →
      m.step (.line p) = (.more (m.after (r.getD (m.lastHead p e))), m') ∧
        p ≤ r.getD (m.lastHead p e) ∧ r.getD (m.lastHead p e) ≤ e ∧
        (r.getD (m.lastHead p e) < e → m.openBlocks p (r.getD (m.lastHead p e) + 1) = 1)) ∧
      ∀ q, p < q → q < e → m.openBlocks p q = 1 →
        (m.head q = some .elif ∨ m.head q = some .else) →
        m.step (.line q) = (.more (m.after e), m₀) := by
  intro m₀
  refine ⟨fun r m' hfirst => ⟨?_, h.own_of_mem ?_⟩, fun q hpq hqe hown hhead =>
    h.step_clause hbreak hpq hqe hown hhead⟩
  · have halike : m.Alike m' := by
      have := alike_firstHolding m₀ (p :: m.clauses p e)
      rw [hfirst] at this
      exact Alike.trans ⟨_, rfl⟩ this
    have hafter : m'.after = m.after := by
      obtain ⟨host, rfl⟩ := halike
      rfl
    rw [h.step_if hbreak, hfirst, goesOn, leads, hafter]
  · cases r with
    | none => exact .inr rfl
    | some l => exact .inl (mem_of_firstHolding hfirst)

/-- The first condition fails, a block with clauses of its own is skipped, and the next condition
holds; its clause ends at the ELSE. -/
theorem branches_of_block_nested :
    let start : Moment Recorder :=
      started { pages := 1, pageSize := 96, arenaSize := 160 } (.blank 96) {}
    let s := session 1 start ["1 IF 0", "2 IF 1", "3 ELSE", "4 END", "5 ELIF 2", "6 ELSE", "7 END",
      "RUN"]
    s.1 = .more (.line 0) ∧ s.2.Encloses 0 6 ∧ s.2.clauses 0 6 = [4] ∧ s.2.lastHead 0 6 = 5 ∧
      (s.2.step (.line 0)).1 = .more (.line 5) ∧ (s.2.step (.line 5)).1 = .more .end := by
  intro start s
  -- One evaluation of the session for all that is read off it.
  obtain ⟨hturn, hif, hopen, hclosed, hclauses, hlast, hbreak, hfirst, hown, hhead, hafter, hend⟩ :
      s.1 = .more (.line 0) ∧ s.2.head 0 = some .if ∧
      (∀ q ≤ 6, 0 < q → 0 < s.2.openBlocks 0 q) ∧ s.2.openBlocks 0 7 = 0 ∧
      s.2.clauses 0 6 = [4] ∧ s.2.lastHead 0 6 = 5 ∧ (Host.breakCheck s.2.host).1 = false ∧
      (firstHolding { s.2 with host := (Host.breakCheck s.2.host).2 } [0, 4]).1.toOption =
        some (some 4) ∧
      s.2.openBlocks 0 5 = 1 ∧ s.2.head 5 = some .else ∧ s.2.after 4 = .line 5 ∧
      s.2.after 6 = .end := by
    decide +kernel
  clear_value s
  have hblock : s.2.Encloses 0 6 := ⟨hif, by decide, fun q hpq hqe => hopen q hqe hpq, hclosed⟩
  obtain ⟨hchoose, hleave⟩ := branches_of_block hblock hbreak
  rw [hclauses, hlast] at hchoose
  have hstep := (hchoose (some 4) _ (Prod.ext (Error.eq_ok_of_toOption hfirst) rfl)).1
  refine ⟨hturn, hblock, hclauses, hlast, ?_, ?_⟩
  · rw [hstep]
    exact congrArg Turn.more hafter
  · rw [hleave 5 (by decide) (by decide) hown (.inr hhead)]
    exact congrArg Turn.more hend

end Machine

end FlashBasic
