import FlashBasic.Host.Recorder
import FlashBasic.Proofs.Machine.Reachable

/-!
What becomes of a numbered line that is typed. Either the line is stored or deleted and nothing else
changes, or it is refused and nothing changes at all; `Machine.refusal?` says when and why.
-/

namespace FlashBasic

set_option autoImplicit false

namespace Machine

variable {σ : Type} {m : Machine σ} {c : Contents}

/-! ## Refusals -/

/-- The arena cannot hold the line index with an entry for the line. -/
def IndexOverflows (m : Machine σ) (number : UInt16) : Prop :=
  m.arena.top < 2 * (m.store.ids.insert number).length

/-- No page has so many free bytes, and none can be compacted to have them. -/
def Full (m : Machine σ) (length : Nat) : Prop :=
  (∀ info ∈ m.store.pages, info.free < length) ∧
    (m.arena.free < m.store.pageSize ∨
      ∀ info ∈ m.store.pages, 0 < info.waste → info.waste + info.free < length)

instance (m : Machine σ) (number : UInt16) : Decidable (m.IndexOverflows number) :=
  inferInstanceAs (Decidable (_ < _))

instance (m : Machine σ) (length : Nat) : Decidable (m.Full length) :=
  inferInstanceAs (Decidable (_ ∧ _))

theorem compact?_eq_none_iff {length : Nat} :
    m.compact? length = none ↔
      m.arena.free < m.store.pageSize ∨
        ∀ info ∈ m.store.pages, 0 < info.waste → info.waste + info.free < length := by
  have hworth (info : Page.Info) : Store.worthCompacting length info = false ↔
      (0 < info.waste → info.waste + info.free < length) := by
    simp [Store.worthCompacting]
  rw [compact?, Option.map_eq_none_iff, Store.compactionTarget?_eq_none_iff]
  simp only [hworth]

theorem floorFits_iff (hc : m.store.Holds c) (number : UInt16) :
    m.arena.floorFits (m.entriesWith number * indexEntrySize) = true ↔
      ¬ m.IndexOverflows number := by
  obtain ⟨vol, hsound, -⟩ := hc
  have hentries : m.entriesWith number = (m.store.ids.insert number).length := by
    have hsize : m.store.size = m.store.ids.length := by simp [Store.size, Store.ids]
    unfold entriesWith
    split
    next h => rw [List.length_insert_of_mem (hsound.find?_isSome_iff.mp h), hsize]
    next h => rw [List.length_insert_of_not_mem (mt hsound.find?_isSome_iff.mpr h), hsize]
  rw [hentries, IndexOverflows, Arena.floorFits, indexEntrySize, decide_eq_true_eq]
  omega

/-! ## Storing a line -/

theorem putLine?_eq_none {s : Store} {number : UInt16} {text : List UInt8}
    (hlength : Item.length text.length ≤ 252) :
    s.putLine? number text = none ↔ ∀ info ∈ s.pages, info.free < Item.length text.length := by
  rw [Store.putLine?_eq_none_iff, Store.hasRoom_eq_false_iff]
  exact or_iff_right (Nat.not_lt.mpr hlength)

theorem storing_line (hc : m.store.Holds c) {number : UInt16} {text : List UInt8}
    (hnumber : 1 ≤ number ∧ number ≤ 0xFFFD) (hlength : Item.length text.length ≤ 252) :
    (m.Full (Item.length text.length) ∧
      m.storing (Item.length text.length) (·.putLine? number text) = (false, m)) ∨
    (¬ m.Full (Item.length text.length) ∧
      ∃ m', m.storing (Item.length text.length) (·.putLine? number text) = (true, m') ∧
        m'.host = m.host ∧ m'.store.Holds (Function.update c (.line number) (some text))) := by
  obtain ⟨s, hs, hstoring⟩ | ⟨hput, hnone, hstoring⟩ | ⟨-, m', hm', hretry⟩ :=
    m.storing_cases (Item.length text.length) (·.putLine? number text)
  · refine .inr ⟨?_, _, hstoring, rfl, hc.putLine? hnumber hs⟩
    intro hfull
    rw [(putLine?_eq_none hlength).mpr hfull.1] at hs
    cases hs
  · exact .inl ⟨⟨(putLine?_eq_none hlength).mp hput, compact?_eq_none_iff.mp hnone⟩, hstoring⟩
  · obtain ⟨hcompact, hhost⟩ := store_of_compact? hm'
    obtain ⟨hholds, info, hinfo, hfree⟩ := hc.compact? hcompact
    obtain ⟨s, hs, hstoring⟩ | ⟨hnone, -⟩ := hretry
    · refine .inr ⟨?_, _, hstoring, hhost, hholds.putLine? hnumber hs⟩
      intro hfull
      rw [compact?_eq_none_iff.mpr hfull.2] at hm'
      cases hm'
    · have hlt := (putLine?_eq_none hlength).mp hnone info hinfo
      omega

/-! ## Editing -/

variable [Host σ]

/-- Why a numbered line is refused, if it is. -/
def refusal? (m : Machine σ) (line : Line) : Option Error :=
  if line.isEmpty then none
  else if 252 < Item.length line.text.length then some .tooBig
  else if m.IndexOverflows line.number ∨ m.reset.Full (Item.length line.text.length) then
    some .outOfMemory
  else none

theorem edit_eq {line : Line} (hempty : line.isEmpty = false)
    (hlength : Item.length line.text.length ≤ 252) :
    m.edit line =
      if m.reset.arena.floorFits (m.reset.entriesWith line.number * indexEntrySize) then
        match m.reset.storing (Item.length line.text.length)
          (·.putLine? line.number line.text) with
        | (true, m) => (.ready, m.reserveIndex)
        | (false, m) => m.fail .end .outOfMemory
      else m.reset.fail .end .outOfMemory := by
  have hfits : ¬ Item.maxLength < Item.length line.text.length := Nat.not_lt.mpr hlength
  unfold edit editWith
  dsimp only
  rw [hempty, if_neg Bool.false_ne_true, if_neg hfits]
  cases m.reset.arena.floorFits (m.reset.entriesWith line.number * indexEntrySize) <;> rfl

theorem edit_of_refused (hc : m.store.Holds c) {line : Line}
    (hnumber : 1 ≤ line.number ∧ line.number ≤ 0xFFFD) {e : Error}
    (he : m.refusal? line = some e) :
    ∃ m', m.edit line = (if e = .outOfMemory then .outOfMemory else .ready, m') ∧
      m'.host = Host.report e none m.reset.host ∧ m'.store.Holds c := by
  have hreset : m.reset.store.Holds c := hc
  unfold refusal? at he
  split_ifs at he with hempty hbig hmemory
  · obtain rfl := Option.some.inj he
    have hlength : Item.maxLength < Item.length line.text.length := hbig
    have hedit : m.edit line = m.reset.fail .end .tooBig := by
      unfold edit editWith
      dsimp only
      rw [if_neg hempty, if_pos hlength]
    rw [hedit]
    exact ⟨_, rfl, rfl, hreset⟩
  · obtain rfl := Option.some.inj he
    rw [edit_eq (Bool.not_eq_true _ ▸ hempty) (Nat.not_lt.mp hbig)]
    have hfloor := floorFits_iff hreset line.number
    obtain ⟨hfull, hstoring⟩ | ⟨hfull, -⟩ := storing_line hreset hnumber (Nat.not_lt.mp hbig)
    · split
      · rw [hstoring]
        exact ⟨_, rfl, rfl, hreset⟩
      · exact ⟨_, rfl, rfl, hreset⟩
    · have hindex : m.IndexOverflows line.number := hmemory.resolve_right hfull
      rw [if_neg (fun h => hfloor.mp h hindex)]
      exact ⟨_, rfl, rfl, hreset⟩

theorem edit_of_not_refused (hc : m.store.Holds c) {line : Line}
    (hnumber : 1 ≤ line.number ∧ line.number ≤ 0xFFFD) (he : m.refusal? line = none) :
    ∃ m', m.edit line = (.ready, m') ∧ m'.host = m.reset.host ∧
      m'.store.Holds (Function.update c (.line line.number)
        (if line.isEmpty then none else some line.text)) := by
  have hreset : m.reset.store.Holds c := hc
  unfold refusal? at he
  split_ifs at he with hempty hbig hmemory
  · have hedit : m.edit line = (.ready,
        reserveIndex { m.reset with store := m.reset.store.deleteLine line.number }) := by
      unfold edit editWith
      dsimp only
      rw [if_pos hempty]
    rw [hedit, if_pos hempty]
    exact ⟨_, rfl, rfl, hreset.deleteLine line.number⟩
  · rw [not_or] at hmemory
    rw [if_neg hempty, edit_eq (Bool.not_eq_true _ ▸ hempty) (Nat.not_lt.mp hbig),
      if_pos ((floorFits_iff hreset line.number).mpr hmemory.1)]
    obtain ⟨hfull, -⟩ | ⟨-, m', hstoring, hhost, hholds⟩ :=
      storing_line hreset hnumber (Nat.not_lt.mp hbig)
    · exact absurd hfull hmemory.2
    · rw [hstoring]
      exact ⟨_, rfl, hhost, hholds⟩

/-- A numbered line that is typed is stored, or deleted if it is empty, and nothing else changes; or
it is refused with an error, and nothing changes. -/
theorem enter_numbered {config : Config} (hsize : Page.ageLength ≤ config.pageSize)
    (hm : Reachable config m) (fuel : Nat) (typed : String)
    (hnumbered : ∀ line, Line.parse typed = .ok line → line.number ≠ 0) :
    ∃ c status m', m.store.Shows c ∧ m.enter? fuel typed = some (status, m') ∧
      match Line.parse typed with
      | .error e => (e = .tooBig ∨ e = .general ∧ Line.NumberTooHigh typed) ∧ status = .ready ∧
          m'.host = Host.report e none m.host ∧ m'.store.Shows c
      | .ok line =>
        match m.refusal? line with
        | some e => status = (if e = .outOfMemory then .outOfMemory else .ready) ∧
            m'.host = Host.report e none m.reset.host ∧ m'.store.Shows c
        | none => status = .ready ∧ m'.host = m.reset.host ∧
            m'.store.Shows (Function.update c (.line line.number)
              (if line.isEmpty then none else some line.text)) := by
  obtain ⟨-, c, hc⟩ := (invariant_sound hsize).reachable hm
  unfold enter? enterWith
  cases hparse : Line.parse typed with
  | error e =>
    have he := Line.eq_of_parse_eq_error hparse
    refine ⟨c, _, _, hc.shows, rfl, he, ?_, rfl, hc.shows⟩
    obtain rfl | ⟨rfl, -⟩ := he <;> rfl
  | ok line =>
    have hdirect : line.isDirect = false := by
      simpa [Line.isDirect] using hnumbered line hparse
    have hnumber := And.intro (Line.one_le_of_not_isDirect hdirect) (Line.number_le_of_parse hparse)
    simp only [hdirect, Bool.not_false, if_true]
    cases hrefusal : m.refusal? line with
    | some e =>
      obtain ⟨m', hedit, hhost, hholds⟩ := edit_of_refused hc hnumber hrefusal
      exact ⟨c, _, m', hc.shows, congrArg some hedit, rfl, hhost, hholds.shows⟩
    | none =>
      obtain ⟨m', hedit, hhost, hholds⟩ := edit_of_not_refused hc hnumber hrefusal
      exact ⟨c, _, m', hc.shows, congrArg some hedit, rfl, hhost, hholds.shows⟩

/-- The flash has one page with room for two items; the third line typed makes it compact. -/
theorem enter_numbered_third_copy :
    let config : Config := { pages := 1, pageSize := 24, arenaSize := 256 }
    let typing (m : Machine Recorder) (typed : String) : Machine Recorder :=
      ((m.enter? 0 typed).map (·.2)).getD m
    let m := typing (typing (boot config (.blank config.flashSize) {}) "10A=1") "10A=2"
    Page.ageLength ≤ config.pageSize ∧ Reachable config m ∧
      (∀ line, Line.parse "10A=3" = .ok line → line.number ≠ 0) ∧
      ∃ c m', m.store.Shows c ∧ m.enter? 0 "10A=3" = some (.ready, m') ∧
        m'.store.Shows (Function.update c (.line 10) (some [65, (Token.op .eq).byte, 51, 10])) := by
  intro config typing m
  have hstep {m : Machine Recorder} (hm : Reachable config m) (typed : String) :
      Reachable config (typing m typed) := by
    cases h : m.enter? 0 typed with
    | none => simpa [typing, h] using hm
    | some r => simpa [typing, h] using hm.enter h
  have hboot : Reachable config (boot config (.blank config.flashSize) ({} : Recorder)) := .boot _
  have hm : Reachable config m := hstep (hstep hboot "10A=1") "10A=2"
  let line : Line := { number := 10, text := [65, (Token.op .eq).byte, 51, 10] }
  have hparse : Line.parse "10A=3" = .ok line := Error.eq_ok_of_toOption (by decide +kernel)
  have hnumbered : ∀ line, Line.parse "10A=3" = .ok line → line.number ≠ 0 := by
    intro line' h
    rw [hparse] at h
    cases h
    decide
  have hrefusal : m.refusal? line = none := by decide +kernel
  clear_value m
  obtain ⟨c, status, m', hshows, henter, hends⟩ :=
    enter_numbered (by decide) hm 0 "10A=3" hnumbered
  simp only [hparse, hrefusal] at hends
  obtain ⟨rfl, -, hafter⟩ := hends
  exact ⟨by decide, hm, hnumbered, c, m', hshows, henter, hafter⟩

end Machine

end FlashBasic
