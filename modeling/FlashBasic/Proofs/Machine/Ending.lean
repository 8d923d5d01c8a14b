import FlashBasic.Proofs.Machine.Loops
import Mathlib.Data.Int.GCD
import Mathlib.Data.Int.ModEq

/-!
Loops that end and loops that do not. The variable of a loop wraps around, so in time it takes every
value that the step leads to from the start: those congruent to the start modulo the greatest common
divisor of the step and the number of all values (`Loop.exists_value_eq_iff`). The loop ends exactly
if one of them is past the terminal.
-/

namespace FlashBasic

set_option autoImplicit false

namespace Loop

open Machine (Moment started session)

variable {σ : Type} [Host σ] {l : Loop} {n : Nat} {m m₁ : Machine σ}

/-! ## Values -/

theorem toInt_value_modEq (l : Loop) (n : Nat) : (l.value n).toInt ≡ l.ideal n [ZMOD 2 ^ 32] := by
  rw [value, Int32.toInt_ofInt]
  exact Int.bmod_emod

theorem eq_of_toInt_modEq {x y : Int32} (h : x.toInt ≡ y.toInt [ZMOD 2 ^ 32]) : x = y := by
  obtain ⟨c, hc⟩ := h.dvd
  have hx := x.le_toInt
  have hx' := x.toInt_lt
  have hy := y.le_toInt
  have hy' := y.toInt_lt
  exact Int32.toInt_inj.mp (by omega)

/-- The variable takes exactly the values in the class of the start. -/
theorem exists_value_eq_iff {x : Int32} :
    (∃ n ≠ 0, l.value n = x) ↔ x.toInt ≡ l.start.toInt [ZMOD Int.gcd l.step.toInt (2 ^ 32)] := by
  constructor
  · rintro ⟨n, -, rfl⟩
    have hvalue := (l.toInt_value_modEq n).of_dvd (Int.gcd_dvd_right l.step.toInt (2 ^ 32))
    refine hvalue.trans (Int.modEq_iff_dvd.mpr ?_)
    have hdiff : l.start.toInt - l.ideal n = l.step.toInt * -n := by
      rw [ideal]
      ring
    rw [hdiff]
    exact Dvd.dvd.mul_right (Int.gcd_dvd_left l.step.toInt (2 ^ 32)) _
  · intro h
    obtain ⟨c, hc⟩ := h.symm.dvd
    have hgcd := Int.gcd_eq_gcd_ab l.step.toInt (2 ^ 32)
    set a := l.step.toInt.gcdA (2 ^ 32)
    -- The number of rounds solves a linear congruence; a full turn more makes it positive.
    obtain ⟨n, hn, hmod⟩ : ∃ n : Nat, n ≠ 0 ∧ (n : Int) ≡ a * c [ZMOD 2 ^ 32] := by
      have hnonneg : 0 ≤ a * c % 2 ^ 32 := Int.emod_nonneg _ (by decide)
      refine ⟨(a * c % 2 ^ 32 + 2 ^ 32).toNat, by omega, ?_⟩
      rw [Int.toNat_of_nonneg (by omega)]
      exact Int.add_modEq_right.trans (Int.mod_modEq _ _)
    refine ⟨n, hn, eq_of_toInt_modEq ((l.toInt_value_modEq n).trans ?_)⟩
    have hideal : l.ideal n ≡ l.start.toInt + a * c * l.step.toInt [ZMOD 2 ^ 32] :=
      (hmod.mul_right _).add_left _
    refine hideal.trans (Int.modEq_iff_dvd.mpr ⟨l.step.toInt.gcdB (2 ^ 32) * c, ?_⟩)
    rw [← sub_sub, hc, hgcd]
    ring

/-! ## Empty bodies -/

/-- NEXT right after the body was entered. -/
theorem Level.step_next (h : l.Level m n [l.frame] m₁) (hnext : m₁.IsNext l.last l.name)
    (hbreak : (Host.breakCheck m₁.host).1 = false) :
    (m₁.step (.line l.last)).2.vars.get l.name = m₁.vars.get l.name + l.step ∧
      (m₁.step (.line l.last)).2.store = m₁.store ∧
      (m₁.step (.line l.last)).2.host = (Host.breakCheck m₁.host).2 := by
  obtain ⟨f, below, hframes, hf, -⟩ := List.map_eq_cons_iff.mp h.frames
  obtain rfl := eq_frame_of_mute hf
  have hnone : m₁.arena.frames = [] ++ l.frame :: below := hframes
  obtain ⟨arena, vars, -, hvars, hstep⟩ := Machine.step_next hnext hbreak hnone fun f hf => nomatch hf
  rw [hstep]
  split
  · exact ⟨hvars, rfl, rfl⟩
  · generalize hm : ({ m₁ with host := (Host.breakCheck m₁.host).2, arena, vars } : Machine σ) = m₂
    have hget := m₂.get_dropTop l.name
    obtain ⟨arena', vars', hdrop⟩ := m₂.exists_dropTop
    rw [hdrop, ← hm] at hget ⊢
    exact ⟨hget.trans hvars, rfl, rfl⟩

/-- With nothing between FOR and NEXT, a round is NEXT alone. -/
theorem Level.straight (h : l.Level m n [l.frame] m₁) (hempty : l.last = l.first + 1)
    (hstep : l.step ≠ 0) (hnext : m₁.IsNext l.last l.name)
    (hbreak : (Host.breakCheck m₁.host).1 = false) :
    l.Straight m.arena.depth 0 (.more (.line (l.first + 1)), m₁) where
  enters := rfl
  before i hi := absurd hi (Nat.not_lt_zero i)
  arrives := by
    rw [hempty]
    rfl
  spared i hi := by
    obtain rfl := Nat.le_zero.mp hi
    exact h.spared
  isNext := hnext
  unbroken := hbreak
  counts := by
    show (m₁.step (.line (l.first + 1))).2.vars.get l.name ≠ m₁.vars.get l.name
    rw [← hempty, (h.step_next hnext hbreak).1]
    exact fun heq => hstep (Int32.add_eq_left.mp heq)

/-- If the host does not break in, an empty body always comes to its NEXT. -/
theorem runsThrough_of_empty (hloop : l.Begins m) (hempty : l.last = l.first + 1)
    (hstep : l.step ≠ 0) {host : σ} (hhost : (m.step (.line l.first)).2.host = host)
    (hquiet : Host.breakCheck host = (false, host)) : l.RunsThrough m := by
  have hlevel {xs : List Int32} {m₁ : Machine σ}
      (h : l.Rounds m xs (.more (.line (l.first + 1)), m₁)) : l.Level m xs.length [l.frame] m₁ :=
    ((h.settled hloop).enters ((h.settled hloop).goesOn hloop.lt rfl)).2
  have hready {m₁ : Machine σ} (hstore : m₁.store = m.store) (hhost : m₁.host = host) :
      m₁.IsNext l.last l.name ∧ (Host.breakCheck m₁.host).1 = false := by
    have hnext := hloop.isNext
    unfold Machine.IsNext Machine.head Machine.condition Machine.textAt at hnext ⊢
    rw [hstore, hhost, hquiet]
    exact ⟨hnext, rfl⟩
  -- Program and host are the same after every round.
  have hsame : ∀ xs s, l.Rounds m xs s → s.2.store = m.store ∧ s.2.host = host := by
    intro xs s h
    induction h with
    | start =>
      obtain ⟨_, _, -, heq⟩ := hloop.step
      exact ⟨by rw [heq], hhost⟩
    | @lap xs m₁ m₂ hrounds hlap ih =>
      obtain ⟨hstore, hhost⟩ := ih
      obtain ⟨hnext, hbreak⟩ := hready hstore hhost
      obtain rfl := ((hlevel hrounds).straight hempty hstep hnext hbreak).lap_iff.mp hlap
      obtain ⟨-, hstore', hhost'⟩ := (hlevel hrounds).step_next hnext hbreak
      refine ⟨hstore'.trans hstore, hhost'.trans ?_⟩
      rw [hhost, hquiet]
  intro xs m₁ h
  obtain ⟨hstore, hhost⟩ := hsame xs _ h
  obtain ⟨hnext, hbreak⟩ := hready hstore hhost
  exact ⟨m₁, ((hlevel h).straight hempty hstep hnext hbreak).lap_iff.mpr rfl⟩

theorem breakCheck_of_none {r : Recorder} (h : r.breakAfter = none) :
    Host.breakCheck r = (false, r) := by
  show r.countDown = _
  rw [Recorder.countDown, h]

/-! ## Ending -/

/-- Some number that the variable can take is past the terminal. -/
def Ends (l : Loop) : Prop :=
  ∃ x : Int32, x.toInt ≡ l.start.toInt [ZMOD Int.gcd l.step.toInt (2 ^ 32)] ∧ l.Past x.toInt

theorem ends_iff : l.Ends ↔ ∃ n, ¬ l.GoesOn n := by
  have hgoes (n : Nat) : ¬ l.GoesOn n ↔ n ≠ 0 ∧ l.Past (l.value n).toInt := by
    rw [GoesOn, not_or, not_not]
  constructor
  · rintro ⟨x, hx, hpast⟩
    obtain ⟨n, hn, rfl⟩ := exists_value_eq_iff.mpr hx
    exact ⟨n, (hgoes n).mpr ⟨hn, hpast⟩⟩
  · rintro ⟨n, hnot⟩
    obtain ⟨hn, hpast⟩ := (hgoes n).mp hnot
    exact ⟨_, exists_value_eq_iff.mp ⟨n, hn, rfl⟩, hpast⟩

/-- If some value that the step leads to is past the terminal, a NEXT leads on to the line after it
in the end, and the body is entered no more often than until then. Otherwise every NEXT leads back
into the body, without end. -/
theorem ends_or_endless (hloop : l.Begins m) (hbody : l.RunsThrough m) :
    (l.Ends → ∃ xs s, l.Rounds m xs s ∧ s.1 = .more (s.2.after l.last) ∧
      ∀ xs' s', l.Rounds m xs' s' → xs'.length ≤ xs.length) ∧
    (¬ l.Ends → (∀ xs s, l.Rounds m xs s → s.1 = .more (.line (l.first + 1))) ∧
      ∀ n, ∃ xs s, l.Rounds m xs s ∧ xs.length = n) := by
  rw [ends_iff]
  refine ⟨fun hends => ?_, fun hnot => ?_⟩
  · classical
    obtain ⟨xs, s, hrounds, hlength⟩ := exists_rounds hloop hbody (n := Nat.find hends)
      fun i hi => not_not.mp (Nat.find_min hends hi)
    have hlast : ¬ l.GoesOn xs.length := hlength ▸ Nat.find_spec hends
    refine ⟨xs, s, hrounds, ((hrounds.settled hloop).leaves hlast).1, fun xs' s' hrounds' => ?_⟩
    exact not_lt.mp fun hlt => hlast ((hrounds'.settled hloop).before _ hlt)
  · have hgoes (n : Nat) : l.GoesOn n := not_not.mp fun h => hnot ⟨n, h⟩
    exact ⟨fun xs s hrounds => ((hrounds.settled hloop).enters (hgoes _)).1,
      fun n => exists_rounds hloop hbody fun i _ => hgoes i⟩

/-- A loop from one number to the same in steps of three: the variable wraps around until it meets the
one number that is greater. -/
theorem ends_or_endless_wrapping :
    let start : Moment Recorder :=
      started { pages := 1, pageSize := 64, arenaSize := 144 } (.blank 64) {}
    let s := session 1 start ["1 FOR I=2147483646 TO 2147483646 STEP 3", "2 NEXT I", "RUN"]
    let l : Loop :=
      { name := ⟨8⟩, start := 2147483646, terminal := 2147483646, step := 3, first := 0, last := 1 }
    s.1 = .more (.line 0) ∧ l.Begins s.2 ∧ l.Ends ∧
      ∃ xs s', l.Rounds s.2 xs s' ∧ s'.1 = .more (s'.2.after 1) := by
  intro start s l
  -- One evaluation of the session for all that is read off it.
  obtain ⟨hturn, hfor, hnext, hreads, hstep, hhost⟩ :
      s.1 = .more (.line 0) ∧ s.2.head 0 = some .for ∧ s.2.IsNext 1 ⟨8⟩ ∧
      (Exec.loopHead.exec { machine := { s.2 with host := (Host.breakCheck s.2.host).2 }
                            unread := s.2.condition 0 }).1.toOption =
        some (⟨8⟩, 2147483646, 2147483646, 3) ∧
      (s.2.step (.line 0)).1 = .more (.line 1) ∧ (s.2.step (.line 0)).2.host.breakAfter = none := by
    decide +kernel
  clear_value s
  have hbegins : l.Begins s.2 := ⟨by decide, hfor, hnext, hreads, _, _, Prod.ext hstep rfl⟩
  have hends : l.Ends := ⟨2147483647, by decide, by decide⟩
  have hbody := runsThrough_of_empty hbegins rfl (by decide) rfl (breakCheck_of_none hhost)
  obtain ⟨xs, s', hrounds, hleaves, -⟩ := (ends_or_endless hbegins hbody).1 hends
  exact ⟨hturn, hbegins, hends, xs, s', hrounds, hleaves⟩

/-- No number is past the greatest, so a loop up to it goes on for ever: here the variable takes the
same four values again and again. -/
theorem endless_to_greatest :
    let start : Moment Recorder :=
      started { pages := 1, pageSize := 64, arenaSize := 144 } (.blank 64) {}
    let s := session 1 start ["1 FOR I=0 TO 2147483647 STEP 1073741824", "2 NEXT I", "RUN"]
    let l : Loop :=
      { name := ⟨8⟩, start := 0, terminal := 2147483647, step := 1073741824, first := 0, last := 1 }
    s.1 = .more (.line 0) ∧ l.Begins s.2 ∧ l.RunsThrough s.2 ∧
      (∀ xs s', l.Rounds s.2 xs s' → s'.1 = .more (.line 1)) ∧
      ∀ n, ∃ xs s', l.Rounds s.2 xs s' ∧ xs.length = n := by
  intro start s l
  -- One evaluation of the session for all that is read off it.
  obtain ⟨hturn, hfor, hnext, hreads, hstep, hhost⟩ :
      s.1 = .more (.line 0) ∧ s.2.head 0 = some .for ∧ s.2.IsNext 1 ⟨8⟩ ∧
      (Exec.loopHead.exec { machine := { s.2 with host := (Host.breakCheck s.2.host).2 }
                            unread := s.2.condition 0 }).1.toOption =
        some (⟨8⟩, 0, 2147483647, 1073741824) ∧
      (s.2.step (.line 0)).1 = .more (.line 1) ∧ (s.2.step (.line 0)).2.host.breakAfter = none := by
    decide +kernel
  clear_value s
  have hbegins : l.Begins s.2 := ⟨by decide, hfor, hnext, hreads, _, _, Prod.ext hstep rfl⟩
  have hbody := runsThrough_of_empty hbegins rfl (by decide) rfl (breakCheck_of_none hhost)
  have hgoes (n : Nat) : l.GoesOn n := by
    refine .inr fun hpast => ?_
    have hlt := (l.value n).toInt_lt
    have hterminal : l.terminal.toInt = 2 ^ 31 - 1 := rfl
    have hup : l.step.toInt = 2 ^ 30 := rfl
    rw [Past, hterminal, hup] at hpast
    omega
  refine ⟨hturn, hbegins, hbody, fun xs s' hrounds => ?_, fun n => ?_⟩
  · exact ((hrounds.settled hbegins).enters (hgoes _)).1
  · exact exists_rounds hbegins hbody fun i _ => hgoes i

end Loop

end FlashBasic
