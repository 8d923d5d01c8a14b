import FlashBasic.Proofs.Line.Typed
import FlashBasic.Proofs.Machine.Moves

/-!
The course of a machine through the calls of its host. A `Machine.Moment` is a machine between two
statements, or between two calls, together with what it does next; `Machine.Next` leads from one
moment to the following, and a `Machine.Course` is any number of such transitions.

* `Machine.course_enter?` and `Machine.course_event?` say that the calls follow such a course.
* `Machine.Kept.course`: what moves and calls keep holds all along a course.
-/

namespace FlashBasic

set_option autoImplicit false

namespace Machine

variable {σ : Type} [Host σ]

/-! ## Calls -/

/-- What a typed line sets off. -/
def entered (m : Machine σ) (typed : String) : Turn × Machine σ :=
  match Line.parse typed with
  | .error e => halted (m.fail .end e)
  | .ok line =>
    if !line.isDirect then halted (m.edit line)
    else if line.isEmpty then (.halt .ready, m)
    else (.more .direct, { m with direct := line.text })

/-- What an event sets off. -/
def raised (m : Machine σ) (line : UInt16) (canReturn : Bool) : Turn × Machine σ :=
  match m.store.find? line with
  | none => (.halt .ready, m)
  | some pos =>
    if canReturn then
      match m.arena.push .event with
      | .ok arena => (.more (.line pos), { m with arena })
      | .error e => halted (m.fail .end e)
    else (.more (.line pos), m)

/-- Runs on until control goes back to the host. -/
def finish? (fuel : Nat) : Turn × Machine σ → Option (Status × Machine σ)
  | (.more pc, m) => m.run? fuel pc
  | (.halt status, m) => some (status, m)

theorem enter?_eq (fuel : Nat) (m : Machine σ) (typed : String) :
    m.enter? fuel typed = finish? fuel (m.entered typed) := by
  unfold enter? enterWith entered
  cases Line.parse typed with
  | error e => rfl
  | ok line =>
    dsimp only
    split_ifs <;> rfl

theorem event?_eq (fuel : Nat) (m : Machine σ) (line : UInt16) (canReturn : Bool) :
    m.event? fuel line canReturn = finish? fuel (m.raised line canReturn) := by
  unfold event? raised
  cases m.store.find? line with
  | none => rfl
  | some pos =>
    cases canReturn with
    | false => rfl
    | true => cases m.arena.push .event <;> rfl

/-! ## Courses -/

/-- A machine and what it does next: it executes the statement at a place or waits for a call. -/
abbrev Moment (σ : Type) := Turn × Machine σ

/-- One statement is executed, or the host makes one call. The host may change between calls. -/
inductive Next : Moment σ → Moment σ → Prop where
  | step (pc : Pc) (m : Machine σ) : Next (.more pc, m) (m.step pc)
  | enter (status : Status) (m : Machine σ) (typed : String) :
      Next (.halt status, m) (m.entered typed)
  | event (status : Status) (m : Machine σ) (line : UInt16) (canReturn : Bool) :
      Next (.halt status, m) (m.raised line canReturn)
  | host (status : Status) (m : Machine σ) (host : σ) :
      Next (.halt status, m) (.halt status, { m with host })
  | setup (status : Status) (m : Machine σ) : Next (.halt status, m) (.halt status, m.setup)
  | reset (status : Status) (m : Machine σ) : Next (.halt status, m) (.halt status, m.reset)
  | service (status : Status) {m m' : Machine σ} {service : UInt16}
      (h : m.registerService service = .ok m') : Next (.halt status, m) (.halt status, m')
  | notifier (status : Status) {m m' : Machine σ} {name : Letter} {notifier : UInt16}
      (h : m.attachNotifier name notifier = .ok m') : Next (.halt status, m) (.halt status, m')

/-- Statements and calls, one after the other. -/
abbrev Course : Moment σ → Moment σ → Prop := Relation.ReflTransGen Next

/-- A course on which `P` holds of the machine at every moment after the first. -/
abbrev CourseWhile (P : Machine σ → Prop) : Moment σ → Moment σ → Prop :=
  Relation.ReflTransGen fun s s' => Next s s' ∧ P s'.2

theorem CourseWhile.course {P : Machine σ → Prop} {s s' : Moment σ} (h : CourseWhile P s s') :
    Course s s' :=
  Relation.ReflTransGen.mono (fun _ _ hnext => hnext.1) s s' h

/-- A machine that has just been started waits for its first call. -/
def started (config : Config) (flash : Flash) (host : σ) : Moment σ :=
  (.halt .ready, boot config flash host)

theorem course_run? {fuel : Nat} {m m' : Machine σ} {pc : Pc} {status : Status}
    (h : m.run? fuel pc = some (status, m')) : Course (.more pc, m) (.halt status, m') := by
  induction fuel generalizing m pc with
  | zero => cases h
  | succ fuel ih =>
    rw [run?] at h
    split at h
    next pc' m₁ hstep => exact .head (hstep ▸ .step pc m) (ih h)
    next status' m₁ hstep =>
      obtain ⟨rfl, rfl⟩ := Prod.mk.inj (Option.some.inj h)
      exact .single (hstep ▸ .step pc m)

theorem course_finish? {fuel : Nat} {s : Moment σ} {m' : Machine σ} {status : Status}
    (h : finish? fuel s = some (status, m')) : Course s (.halt status, m') := by
  unfold finish? at h
  split at h
  · exact course_run? h
  · obtain ⟨rfl, rfl⟩ := Prod.mk.inj (Option.some.inj h)
    exact .refl

theorem course_enter? {fuel : Nat} {m m' : Machine σ} {typed : String} {status : Status}
    (before : Status) (h : m.enter? fuel typed = some (status, m')) :
    Course (.halt before, m) (.halt status, m') :=
  .head (.enter before m typed) (course_finish? (enter?_eq fuel m typed ▸ h))

theorem course_event? {fuel : Nat} {m m' : Machine σ} {line : UInt16} {canReturn : Bool}
    {status : Status} (before : Status) (h : m.event? fuel line canReturn = some (status, m')) :
    Course (.halt before, m) (.halt status, m') :=
  .head (.event before m line canReturn) (course_finish? (event?_eq fuel m line canReturn ▸ h))

/-! ## Sessions -/

/-- Executes up to `n` statements. -/
def onward : Nat → Moment σ → Moment σ
  | n + 1, (.more pc, m) => onward n (m.step pc)
  | _, s => s

/-- A line is typed, provided that the machine waits, and up to `n` statements are executed. -/
def typing (n : Nat) (s : Moment σ) (typed : String) : Moment σ :=
  match s with
  | (.halt _, m) => onward n (m.entered typed)
  | (.more pc, m) => (.more pc, m)

/-- Lines are typed one after the other. -/
def session (n : Nat) (s : Moment σ) (lines : List String) : Moment σ := lines.foldl (typing n) s

theorem course_onward (n : Nat) (s : Moment σ) : Course s (onward n s) := by
  induction n generalizing s with
  | zero => exact .refl
  | succ n ih =>
    obtain ⟨turn, m⟩ := s
    cases turn with
    | more pc => exact .head (.step pc m) (ih (m.step pc))
    | halt status => exact .refl

/-- A way to show that something holds all along a course. -/
theorem courseWhile_onward {P : Machine σ → Prop} (n : Nat) (s : Moment σ)
    (h : ∀ k ≤ n, P (onward k s).2) : CourseWhile P s (onward n s) := by
  induction n generalizing s with
  | zero => exact .refl
  | succ n ih =>
    obtain ⟨turn, m⟩ := s
    cases turn with
    | more pc =>
      refine .head ⟨.step pc m, h 1 (Nat.le_add_left 1 n)⟩ (ih (m.step pc) fun k hk => ?_)
      exact h (k + 1) (Nat.succ_le_succ hk)
    | halt status => exact .refl

theorem onward_succ {n : Nat} {s : Moment σ} {pc : Pc} (h : (onward n s).1 = .more pc) :
    onward (n + 1) s = (onward n s).2.step pc := by
  induction n generalizing s with
  | zero =>
    obtain ⟨turn, m⟩ := s
    cases h
    rfl
  | succ n ih =>
    obtain ⟨turn, m⟩ := s
    cases turn with
    | more pc' => exact ih h
    | halt status => cases h

theorem exists_more_of_le {i n : Nat} {s : Moment σ} {pc : Pc} (hi : i ≤ n)
    (h : (onward n s).1 = .more pc) : ∃ pc', (onward i s).1 = .more pc' := by
  induction i generalizing n s with
  | zero =>
    obtain ⟨turn, m⟩ := s
    cases turn with
    | more pc' => exact ⟨pc', rfl⟩
    | halt status => cases n <;> cases h
  | succ i ih =>
    obtain ⟨n, rfl⟩ := Nat.exists_eq_add_of_le' (Nat.le_of_add_left_le hi)
    obtain ⟨turn, m⟩ := s
    cases turn with
    | more pc' => exact ih (Nat.le_of_succ_le_succ hi) h
    | halt status => cases h

/-- As long as statements are executed, a course follows them, so it ends before `P` fails. -/
theorem exists_onward_of_courseWhile {P : Machine σ → Prop} {n : Nat} {s s' : Moment σ} {pc : Pc}
    (h : CourseWhile P s s') (hmore : (onward n s).1 = .more pc)
    (hfails : ¬ P (onward (n + 1) s).2) : ∃ i ≤ n, s' = onward i s := by
  induction h with
  | refl => exact ⟨0, Nat.zero_le n, rfl⟩
  | @tail s₁ s₂ _ hnext ih =>
    obtain ⟨i, hi, rfl⟩ := ih
    obtain ⟨pc', hpc⟩ := exists_more_of_le hi hmore
    have hsucc := onward_succ hpc
    generalize onward i s = s₁ at *
    obtain ⟨turn, m⟩ := s₁
    cases hpc
    obtain ⟨hnext, hP⟩ := hnext
    cases hnext with
    | step pc m =>
      rw [← hsucc] at hP ⊢
      obtain hlt | rfl := Nat.lt_or_eq_of_le hi
      · exact ⟨i + 1, hlt, rfl⟩
      · exact absurd hP hfails

theorem course_session (n : Nat) (s : Moment σ) (lines : List String) :
    Course s (session n s lines) := by
  induction lines generalizing s with
  | nil => exact .refl
  | cons line lines ih =>
    refine Relation.ReflTransGen.trans ?_ (ih (typing n s line))
    obtain ⟨turn, m⟩ := s
    cases turn with
    | more pc => exact .refl
    | halt status => exact .head (.enter status m line) (course_onward n _)

/-! ## What a course keeps -/

/-- What keeps `P` true, whatever happens. -/
structure Kept (P : Machine σ → Prop) : Prop where
  move : ∀ {d m m'}, P m → Move d m m' → P m'
  direct : ∀ {m}, P m → ∀ text, P { m with direct := text }
  edit : ∀ {m}, P m → ∀ {line : Line}, 1 ≤ line.number ∧ line.number ≤ 0xFFFD → P (m.edit line).2
  event : ∀ {m}, P m → ∀ {arena}, m.arena.push .event = .ok arena → P { m with arena }
  service : ∀ {m}, P m → ∀ {m' service}, m.registerService service = .ok m' → P m'
  notifier : ∀ {m}, P m → ∀ {m' name n}, m.attachNotifier name n = .ok m' → P m'

namespace Kept

variable {P : Machine σ → Prop} {m m' : Machine σ}

theorem path (h : Kept P) (hm : P m) {d : Trend} (hpath : Path d m m') : P m' := by
  induction hpath with
  | refl => exact hm
  | tail _ hmove ih => exact h.move ih hmove

theorem entered (h : Kept P) (hm : P m) (typed : String) : P (m.entered typed).2 := by
  unfold Machine.entered
  split
  next e _ => exact h.path (d := .up) hm (path_fail m .end e)
  next line hparse =>
    split
    next hnumbered =>
      have hnumber := Line.one_le_of_not_isDirect (Bool.not_eq_true' _ ▸ hnumbered)
      exact h.edit hm ⟨hnumber, Line.number_le_of_parse hparse⟩
    next =>
      split
      · exact hm
      · exact h.direct hm line.text

theorem raised (h : Kept P) (hm : P m) (line : UInt16) (canReturn : Bool) :
    P (m.raised line canReturn).2 := by
  unfold Machine.raised
  split
  · exact hm
  · split
    · split
      next arena harena => exact h.event hm harena
      next e _ => exact h.path (d := .up) hm (path_fail m .end e)
    · exact hm

theorem setup (h : Kept P) (hm : P m) : P m.setup := by
  have hhost {m : Machine σ} (hm : P m) (host : σ) : P { m with host } :=
    h.move (d := .up) hm (.host m host)
  unfold Machine.setup
  dsimp only
  split
  · exact hhost (hhost (hhost hm _) _) _
  · exact hhost (hhost hm _) _

theorem next (h : Kept P) {s s' : Moment σ} (hs : P s.2) (hnext : Next s s') : P s'.2 := by
  cases hnext with
  | step pc m =>
    obtain ⟨d, hpath⟩ := m.path_step pc
    exact h.path hs hpath
  | enter status m typed => exact h.entered hs typed
  | event status m line canReturn => exact h.raised hs line canReturn
  | host status m host => exact h.move (d := .up) hs (.host m host)
  | setup status m => exact h.setup hs
  | reset status m => exact h.move hs (.reset m)
  | service status hservice => exact h.service hs hservice
  | notifier status hnotifier => exact h.notifier hs hnotifier

theorem course (h : Kept P) {s s' : Moment σ} (hs : P s.2) (hcourse : Course s s') : P s'.2 := by
  induction hcourse with
  | refl => exact hs
  | tail _ hnext ih => exact h.next ih hnext

end Kept

end Machine

end FlashBasic
