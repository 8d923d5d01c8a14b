import FlashBasic.Host.Recorder
import FlashBasic.Proofs.Expr.Evaluation
import FlashBasic.Proofs.Machine.Stack

/-!
Names of arrays. A name is flagged as shadowed exactly while an array of that name is on the stack,
and an array remembers whether there was one below it, which is what the flag must become again
when its frame goes. So a shadowed name always stands for its innermost array.
-/

namespace FlashBasic

set_option autoImplicit false

namespace Variables

theorem isShadowed_setShadowed (v : Variables) (name other : Letter) (shadowed : Bool) :
    (v.setShadowed name shadowed).isShadowed other =
      if name = other then shadowed else v.isShadowed other := by
  obtain ⟨i⟩ := name
  obtain ⟨j⟩ := other
  simp [setShadowed, isShadowed, Vector.getElem_set, Letter.mk.injEq, Fin.ext_iff]

@[simp] theorem isShadowed_empty (name : Letter) : ({} : Variables).isShadowed name = false := by
  simp [isShadowed]

end Variables

/-! ## Flags and frames -/

/-- An array of this name is among the frames. -/
def Declared (frames : List Frame) (name : Letter) : Prop :=
  ∃ a, Frame.array a ∈ frames ∧ a.name = name

@[simp] theorem not_declared_nil (name : Letter) : ¬ Declared [] name := by
  simp [Declared]

@[simp] theorem declared_cons_array {a : ArrayFrame} {frames : List Frame} {name : Letter} :
    Declared (.array a :: frames) name ↔ a.name = name ∨ Declared frames name := by
  simp [Declared, or_and_right, exists_or]

theorem declared_cons {frame : Frame} (h : ∀ a, frame ≠ .array a) {frames : List Frame}
    {name : Letter} : Declared (frame :: frames) name ↔ Declared frames name := by
  simp [Declared, fun a => (h a).symm]

@[simp] theorem declared_map_mute {frames : List Frame} {name : Letter} :
    Declared (frames.map Frame.mute) name ↔ Declared frames name := by
  induction frames with
  | nil => simp
  | cons frame frames ih =>
    cases frame with
    | array a => simp [Frame.mute, ih]
    | _ => simpa [Frame.mute, declared_cons] using ih

/-- The flags tell which names are declared, and every array whether its name is declared below
it. -/
structure Shadowing (frames : List Frame) (vars : Variables) : Prop where
  shadowed : ∀ name, vars.isShadowed name = true ↔ Declared frames name
  prior : ∀ a below, .array a :: below <:+ frames → (a.prior = true ↔ Declared below a.name)

namespace Shadowing

variable {frames : List Frame} {vars : Variables}

theorem empty : Shadowing [] {} where
  shadowed := by simp
  prior := by simp

theorem push (h : Shadowing frames vars) {frame : Frame} (hframe : ∀ a, frame ≠ .array a) :
    Shadowing (frame :: frames) vars where
  shadowed name := by rw [h.shadowed, declared_cons hframe]
  prior a below hsuffix := by
    rcases List.suffix_cons_iff.mp hsuffix with heq | hsuffix
    · exact absurd (List.cons.inj heq).1.symm (hframe a)
    · exact h.prior a below hsuffix

theorem declare (h : Shadowing frames vars) {a : ArrayFrame}
    (ha : a.prior = vars.isShadowed a.name) :
    Shadowing (.array a :: frames) (vars.setShadowed a.name true) where
  shadowed name := by
    rw [Variables.isShadowed_setShadowed, declared_cons_array]
    by_cases hname : a.name = name
    · simp [hname]
    · simp [hname, h.shadowed]
  prior b below hsuffix := by
    rcases List.suffix_cons_iff.mp hsuffix with heq | hsuffix
    · obtain ⟨hb, rfl⟩ := List.cons.inj heq
      obtain rfl := Frame.array.inj hb
      rw [ha, h.shadowed]
    · exact h.prior b below hsuffix

theorem below {frame : Frame} (h : Shadowing (frame :: frames) vars) :
    ∀ a below, .array a :: below <:+ frames → (a.prior = true ↔ Declared below a.name) :=
  fun a below hsuffix => h.prior a below (hsuffix.trans (List.suffix_cons frame frames))

theorem pop {frame : Frame} (hframe : ∀ a, frame ≠ .array a)
    (h : Shadowing (frame :: frames) vars) : Shadowing frames vars where
  shadowed name := by rw [h.shadowed, declared_cons hframe]
  prior := h.below

theorem withdraw {a : ArrayFrame} (h : Shadowing (.array a :: frames) vars) :
    Shadowing frames (vars.setShadowed a.name a.prior) where
  shadowed name := by
    rw [Variables.isShadowed_setShadowed]
    by_cases hname : a.name = name
    · rw [if_pos hname, h.prior a frames (List.suffix_refl _), hname]
    · rw [if_neg hname, h.shadowed, declared_cons_array]
      simp [hname]
  prior := h.below

theorem of_mute (h : Shadowing frames vars) {frames' : List Frame}
    (hmute : frames'.map Frame.mute = frames.map Frame.mute) : Shadowing frames' vars where
  shadowed name := by rw [h.shadowed, ← declared_map_mute, ← hmute, declared_map_mute]
  prior a below hsuffix := by
    have hmuted := hsuffix.map Frame.mute
    rw [hmute] at hmuted
    obtain ⟨found, hfound, heq⟩ := List.suffix_map_iff.mp hmuted
    cases found with
    | nil => cases heq
    | cons frame below' =>
      obtain ⟨hframe, hbelow⟩ := List.cons.inj heq
      cases frame with
      | array b =>
        have hb := ArrayFrame.mk.inj (Frame.array.inj hframe)
        rw [← declared_map_mute, hbelow, declared_map_mute, hb.1, hb.2.2.1]
        exact h.prior b below' hfound
      | _ => cases hframe

end Shadowing

/-- `a` is the array of this name that was pushed last. -/
def Innermost (frames : List Frame) (name : Letter) (a : ArrayFrame) : Prop :=
  ∃ above below, frames = above ++ .array a :: below ∧ a.name = name ∧ ¬ Declared above name

theorem Frame.arrayNamed?_eq_some_iff {frame : Frame} {name : Letter} {a : ArrayFrame} :
    frame.arrayNamed? name = some a ↔ frame = .array a ∧ a.name = name := by
  cases frame with
  | array b =>
    by_cases h : b.name = name
    · simp only [arrayNamed?, if_pos h, Option.some.injEq, Frame.array.injEq]
      exact ⟨fun hab => ⟨hab, hab ▸ h⟩, And.left⟩
    · simp only [arrayNamed?, if_neg h, Frame.array.injEq, reduceCtorEq, false_iff, not_and]
      exact fun hab => hab ▸ h
  | _ => simp [arrayNamed?]

namespace Arena

variable {arena : Arena} {name : Letter}

theorem exists_array? (h : Declared arena.frames name) : ∃ a, arena.array? name = some a := by
  obtain ⟨a, ha, hname⟩ := h
  refine Option.isSome_iff_exists.mp (List.findSome?_isSome_iff.mpr ⟨_, ha, ?_⟩)
  rw [Frame.arrayNamed?_eq_some_iff.mpr ⟨rfl, hname⟩, Option.isSome_some]

theorem innermost_of_array? {a : ArrayFrame} (h : arena.array? name = some a) :
    Innermost arena.frames name a := by
  obtain ⟨above, frame, below, hframes, hframe, habove⟩ := List.findSome?_eq_some_iff.mp h
  obtain ⟨rfl, hname⟩ := Frame.arrayNamed?_eq_some_iff.mp hframe
  refine ⟨above, below, hframes, hname, ?_⟩
  rintro ⟨b, hb, hbname⟩
  have hnone := habove _ hb
  rw [Frame.arrayNamed?_eq_some_iff.mpr ⟨rfl, hbname⟩] at hnone
  cases hnone

end Arena

namespace Machine

variable {σ : Type} [Host σ]

theorem kept_shadowing : Kept fun m : Machine σ => Shadowing m.arena.frames m.vars where
  move {d m m'} h hmove := by
    cases hmove with
    | dim _ name halloc hpush =>
      obtain ⟨-, -, rfl⟩ := Arena.alloc_eq_ok halloc
      obtain ⟨-, rfl⟩ := Arena.push_eq_ok hpush
      exact h.declare rfl
    | undo _ halloc =>
      obtain ⟨-, -, rfl⟩ := Arena.alloc_eq_ok halloc
      exact h
    | gosub _ pc hpush =>
      obtain ⟨-, rfl⟩ := Arena.push_eq_ok hpush
      exact h.push (by simp)
    | loop _ hname step terminal pc hpush =>
      obtain ⟨-, rfl⟩ := Arena.push_eq_ok hpush
      exact h.push (by simp)
    | @pop _ frame arena hpop =>
      rw [Exec.frames_of_pop?_eq_some hpop] at h
      cases frame with
      | array a => exact h.withdraw
      | _ => exact h.pop (by simp)
    | reset => exact .empty
    | clear => exact .empty
    | storing _ key data =>
      obtain ⟨store, data, hstoring⟩ :=
        m.eq_of_storing (Item.length (data.length + 4)) (·.putRecord? key data)
      rw [hstoring]
      exact h
    | set => exact ⟨h.shadowed, h.prior⟩
    | advance => exact ⟨h.shadowed, h.prior⟩
    | _ => exact h
  direct h _ := h
  edit {m} _ line _ := by
    rw [m.frames_edit line, m.vars_edit line]
    exact .empty
  event h arena hpush := by
    obtain ⟨-, rfl⟩ := Arena.push_eq_ok hpush
    exact h.push (by simp)
  service h m' service hservice := by
    obtain ⟨block, arena, halloc, rfl⟩ := eq_of_registerService hservice
    obtain ⟨-, -, rfl⟩ := Arena.alloc_eq_ok halloc
    exact h
  notifier h m' name n hnotifier := by
    obtain ⟨frames, hmute, rfl⟩ := eq_of_attachNotifier hnotifier
    exact h.of_mute hmute

theorem flags_of_course {config : Config} {flash : Flash} {host : σ} {s : Moment σ}
    (h : Course (started config flash host) s) : Shadowing s.2.arena.frames s.2.vars :=
  kept_shadowing.course (s := started config flash host) .empty h

/-! ## What a shadowed name stands for -/

/-- Every use of the name as an array finds `a`. -/
structure Resolves (m : Machine σ) (name : Letter) (a : ArrayFrame) : Prop where
  lookup : m.binding name = .array (m.arena.bytes a.block)
  length : ∀ host : σ,
    (evaluate m.binding .normal [Token.len.byte, name.byte, Ascii.code ')', Ascii.newline]).exec
      host = (.ok (.ofNat (m.arena.bytes a.block).length, [Ascii.newline]), host)
  assign : ∀ (index value : Int32) (unread : Cursor),
    (Exec.setElement name index value).exec { machine := m, unread } =
      if index < 0 ∨ (a.block.size : Int) ≤ index.toInt then
        (.error .expression, { machine := m, unread })
      else
        (Exec.notify a).exec
          { machine := { m with
              arena := m.arena.setByte a.block index.toInt.toNat value.toUInt32.toUInt8 }
            unread }
  save : Exec.contents m name = m.arena.bytes a.block
  write : ∀ rest : Cursor, rest.skipBlanks.peek = Ascii.code ',' ∨ rest.skipBlanks.atEnd →
    (Exec.writeItem.exec { machine := m, unread := name.byte :: rest }).1 =
      .ok (m.arena.bytes a.block)

theorem evaluate_length {env : Letter → Binding} {name : Letter} {bytes : List UInt8}
    (h : env name = .array bytes) (host : σ) :
    (evaluate env .normal [Token.len.byte, name.byte, Ascii.code ')', Ascii.newline]).exec host =
      (.ok (.ofNat bytes.length, [Ascii.newline]), host) := by
  have hnext : Expr.Next [Token.len.byte, name.byte, Ascii.code ')', Ascii.newline]
      (.length name) [Ascii.newline] := Expr.next_length .none name .none _
  show (Expr.complete env .normal {} _).exec host = _
  rw [Expr.complete_of_next hnext]
  simp only [Expr.absorb, h]
  rfl

theorem resolves_of_array? {m : Machine σ} {name : Letter} {a : ArrayFrame}
    (h : m.array? name = some a) : m.Resolves name a := by
  have hlookup : m.binding name = .array (m.arena.bytes a.block) := by
    unfold Machine.array? at h
    simp [binding, Variables.binding, h]
  refine ⟨hlookup, evaluate_length hlookup, ?_, ?_, ?_⟩
  · intro index value unread
    simp only [Exec.setElement, Action.exec_bind, Exec.exec_machine, h]
    split
    · simp
    · rw [Action.exec_bind, Exec.exec_modifyMachine]
  · simp [Exec.contents, hlookup]
  · intro rest hrest
    obtain ⟨hblank, -, hletter, -⟩ := Expr.letter_facts name
    have halone : Exec.aloneArray? m (name.byte :: rest) = some a := by
      have hpeek : Cursor.peek (name.byte :: rest) = name.byte := rfl
      rw [Exec.aloneArray?, hpeek, hletter]
      exact if_pos hrest ▸ h
    simp only [Exec.writeItem, Action.exec_bind, Exec.exec_read, Action.exec_modify, Action.exec_get,
      Exec.exec_machine, Expr.skipBlanks_cons hblank, halone, Exec.exec_turnTo, Action.exec_pure]
    rfl

/-- In every course, a name is flagged as shadowed exactly if an array of that name is on the stack,
every array knows whether there is another below it, and a shadowed name stands for its innermost
array. -/
theorem shadowing_of_course {config : Config} {flash : Flash} {host : σ} {s : Moment σ}
    (h : Course (started config flash host) s) :
    Shadowing s.2.arena.frames s.2.vars ∧
      ∀ name, s.2.vars.isShadowed name = true →
        ∃ a, Innermost s.2.arena.frames name a ∧ s.2.Resolves name a := by
  have hshadowing := flags_of_course h
  refine ⟨hshadowing, fun name hname => ?_⟩
  obtain ⟨a, ha⟩ := Arena.exists_array? ((hshadowing.shadowed name).mp hname)
  refine ⟨a, Arena.innermost_of_array? ha, resolves_of_array? ?_⟩
  rw [array?, Variables.array?, if_pos hname, ha]

/-- A subroutine declares an array that its caller has declared as well, and waits. -/
theorem shadowing_of_course_redeclared :
    let start : Moment Recorder :=
      started { pages := 1, pageSize := 128, arenaSize := 256 } (.blank 128) {}
    let s := session 9 start
      ["10 DIM A(2)", "20 GOSUB 40", "30 END", "40 DIM A(5)", "50 DELAY 1", "RUN"]
    Course start s ∧ s.2.arena.frames.length = 3 ∧ s.2.vars.isShadowed ⟨0⟩ = true ∧
      Shadowing s.2.arena.frames s.2.vars ∧
        ∃ a, Innermost s.2.arena.frames ⟨0⟩ a ∧ s.2.Resolves ⟨0⟩ a := by
  intro start s
  have hcourse : Course start s := course_session ..
  -- One evaluation of the session for all that is read off it.
  obtain ⟨hframes, hshadowed⟩ :
      s.2.arena.frames.length = 3 ∧ s.2.vars.isShadowed ⟨0⟩ = true := by
    decide +kernel
  obtain ⟨hshadowing, hresolves⟩ := shadowing_of_course hcourse
  exact ⟨hcourse, hframes, hshadowed, hshadowing, hresolves _ hshadowed⟩

end Machine

end FlashBasic
