import FlashBasic.Proofs.Machine.Stack
import FlashBasic.Proofs.Store.Lines

/-!
The store along the course of a machine. All that a machine does to its store is to make requests,
so what every request keeps lasts for ever (`Machine.kept_store`). The requests made by a running
program leave the lines where they are; only NEW removes them, and empties the stack at the same
time (`Machine.Move.lines`).
-/

namespace FlashBasic

set_option autoImplicit false

namespace Machine

variable {σ : Type} {m m' : Machine σ}

/-! ## Storing -/

theorem storing_cases (m : Machine σ) (length : Nat) (put? : Store → Option Store) :
    (∃ store, put? m.store = some store ∧ m.storing length put? = (true, { m with store })) ∨
    (put? m.store = none ∧ m.compact? length = none ∧ m.storing length put? = (false, m)) ∨
    (put? m.store = none ∧ ∃ m', m.compact? length = some m' ∧
      ((∃ store, put? m'.store = some store ∧
          m.storing length put? = (true, { m' with store })) ∨
        (put? m'.store = none ∧ m.storing length put? = (false, m')))) := by
  unfold storing
  cases hput : put? m.store with
  | some store => exact .inl ⟨store, rfl, rfl⟩
  | none =>
    refine .inr ?_
    cases hcompact : m.compact? length with
    | none => exact .inl ⟨rfl, rfl, rfl⟩
    | some m' =>
      refine .inr ⟨rfl, m', rfl, ?_⟩
      cases hput' : put? m'.store with
      | some store => exact .inl ⟨store, rfl, by simp only [hput']⟩
      | none => exact .inr ⟨rfl, by simp only [hput']⟩

theorem store_of_compact? {length : Nat} (h : m.compact? length = some m') :
    m.store.compact? length m.arena.free = some m'.store ∧ m'.host = m.host := by
  obtain ⟨p, hp, rfl⟩ := Option.map_eq_some_iff.mp h
  rw [Store.compact?_eq, hp]
  exact ⟨rfl, rfl⟩

/-- What the two requests of storing keep, storing keeps. -/
theorem store_storing {Q : Store → Prop} (h : Q m.store) {length : Nat}
    {put? : Store → Option Store} (hput : ∀ {s s'}, Q s → put? s = some s' → Q s')
    (hcompact : ∀ {s s' scratch}, Q s → s.compact? length scratch = some s' → Q s') :
    Q (m.storing length put?).2.store := by
  obtain ⟨s, hs, hstoring⟩ | ⟨-, -, hstoring⟩ | ⟨-, m', hm', ⟨s, hs, hstoring⟩ | ⟨-, hstoring⟩⟩ :=
    m.storing_cases length put?
  · rw [hstoring]
    exact hput h hs
  · rw [hstoring]
    exact h
  · rw [hstoring]
    exact hput (hcompact h (store_of_compact? hm').1) hs
  · rw [hstoring]
    exact hcompact h (store_of_compact? hm').1

/-! ## Requests -/

section

variable {Q : Store → Prop} (hQ : ∀ {s : Store} {r : Store.Request}, Q s → r.Valid → Q (s.perform r))

include hQ

theorem store_storing_request (h : Q m.store) {length : Nat} {put? : Store → Option Store}
    {r : Store.Request} (hr : r.Valid) (hput : ∀ s s', put? s = some s' → s' = s.perform r) :
    Q (m.storing length put?).2.store := by
  refine store_storing h (fun hs hs' => hput _ _ hs' ▸ hQ hs hr) fun {s s' scratch} hs hs' => ?_
  have hperform := hQ (r := .compact length scratch) hs trivial
  rwa [Store.perform_compact, hs', Option.getD_some] at hperform

variable [Host σ]

theorem store_move {d : Trend} (h : Q m.store) (hmove : Move d m m') : Q m'.store := by
  cases hmove with
  | clear => exact hQ (r := .clear) h trivial
  | storing _ key data =>
    refine store_storing_request hQ h (r := .putRecord key data) trivial fun s s' hput => ?_
    rw [Store.perform_putRecord, hput, Option.getD_some]
  | @forget _ _ key store hdelete =>
    have hperform := hQ (r := .deleteRecord key) h trivial
    rwa [Store.perform_deleteRecord, hdelete, Option.getD_some] at hperform
  | @pop _ frame arena _ => cases frame <;> exact h
  | _ => exact h

theorem store_edit (h : Q m.store) {line : Line} (hnumber : 1 ≤ line.number ∧ line.number ≤ 0xFFFD) :
    Q (m.edit line).2.store := by
  have hstoring : Q (m.reset.storing (Item.length line.text.length)
      (·.putLine? line.number line.text)).2.store := by
    refine store_storing_request hQ (m := m.reset) h (r := .putLine line.number line.text) hnumber
      fun s s' hput => ?_
    rw [Store.perform_putLine, hput, Option.getD_some]
  obtain ⟨e, hedit⟩ | hedit | ⟨m', heq, hedit⟩ | ⟨m', heq, hedit⟩ := m.edit_cases line
  · rw [hedit]
    exact h
  · rw [hedit]
    exact hQ (r := .deleteLine line.number) h trivial
  · rw [heq] at hstoring
    rw [hedit]
    exact hstoring
  · rw [heq] at hstoring
    rw [hedit]
    exact hstoring

theorem kept_store : Kept fun m : Machine σ => Q m.store where
  move h := store_move hQ h
  direct h _ := h
  edit h _ := store_edit hQ h
  event h _ _ := h
  service h m' service hservice := by
    obtain ⟨block, arena, -, rfl⟩ := eq_of_registerService hservice
    exact h
  notifier h m' name n hnotifier := by
    obtain ⟨frames, -, rfl⟩ := eq_of_attachNotifier hnotifier
    exact h

end

/-! ## Lines -/

variable [Host σ]

theorem kept_isSound : Kept fun m : Machine σ => m.store.IsSound :=
  kept_store fun h hr => h.perform hr

omit [Host σ] in
theorem lines_storing_record (hsound : m.store.IsSound) (key : RecordKey) (data : List UInt8)
    (length : Nat) : (m.storing length (·.putRecord? key data)).2.store.lines = m.store.lines := by
  have hboth : (m.storing length (·.putRecord? key data)).2.store.IsSound ∧
      (m.storing length (·.putRecord? key data)).2.store.lines = m.store.lines := by
    refine store_storing (Q := fun s => s.IsSound ∧ s.lines = m.store.lines) ⟨hsound, rfl⟩ ?_ ?_
    · rintro s s' ⟨hs, hlines⟩ hput
      exact hlines ▸ hs.putRecord? hput
    · rintro s s' scratch ⟨hs, hlines⟩ hcompact
      exact hlines ▸ hs.compact? hcompact
  exact hboth.2

/-- A running program keeps the lines in place, or removes all of them together with all frames. -/
theorem Move.lines {d : Trend} (h : Move d m m') (hsound : m.store.IsSound) :
    m'.store.lines = m.store.lines ∨ m'.arena.frames = [] := by
  cases h with
  | clear => exact .inr rfl
  | storing _ key data => exact .inl (lines_storing_record hsound key data _)
  | @forget _ _ key store hdelete => exact .inl (hsound.deleteRecord? hdelete).2
  | @pop _ frame arena _ => cases frame <;> exact .inl rfl
  | _ => exact .inl rfl

end Machine

end FlashBasic
