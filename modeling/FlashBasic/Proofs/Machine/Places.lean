import FlashBasic.Host.Recorder
import FlashBasic.Proofs.Machine.Performing
import FlashBasic.Proofs.Machine.Program

/-!
Where execution can continue. A place is the end of the program or the position of a stored line.
Statements jump to places only (`Exec.leads_perform`), and the places that frames hold stay what they
are, because whatever moves lines empties the stack.
-/

namespace FlashBasic

set_option autoImplicit false

namespace Machine

variable {σ : Type} {m m' : Machine σ}

/-- The end, or a stored line. -/
def Place (m : Machine σ) (pc : Pc) : Prop := pc = .end ∨ ∃ pos < m.store.size, pc = .line pos

theorem Place.congr {pc : Pc} (h : m.Place pc) (hsize : m'.store.size = m.store.size) :
    m'.Place pc := by
  rw [Place, hsize]
  exact h

theorem place_end (m : Machine σ) : m.Place .end := .inl rfl

theorem place_after (m : Machine σ) (pos : Nat) : m.Place (m.after pos) := by
  unfold after
  split
  next h => exact .inr ⟨_, h, rfl⟩
  next => exact m.place_end

theorem place_next (m : Machine σ) (pc : Pc) : m.Place (m.next pc) := by
  cases pc with
  | line pos => exact m.place_after pos
  | _ => exact m.place_end

theorem place_first (m : Machine σ) : m.Place m.first := by
  unfold first
  split
  next => exact m.place_end
  next h => exact .inr ⟨0, List.length_pos_iff.mpr (by simpa [Store.isEmpty] using h), rfl⟩

theorem place_target (m : Machine σ) (number : Int32) : m.Place (m.target number) := by
  unfold target
  dsimp only
  split
  next h => exact .inr ⟨_, h, rfl⟩
  next => exact m.place_end

theorem place_of_find? {line : UInt16} {pos : Nat} (h : m.store.find? line = some pos) :
    m.Place (.line pos) := by
  rw [Store.find?] at h
  split at h
  next hnumber =>
    cases h
    obtain ⟨a, ha, -⟩ := Option.map_eq_some_iff.mp hnumber
    exact .inr ⟨_, (List.getElem?_eq_some_iff.mp ha).1, rfl⟩
  next => cases h

end Machine

/-- All frames continue at places. -/
def Machine.Rooted {σ : Type} (m : Machine σ) : Prop :=
  ∀ frame ∈ m.arena.frames, ∀ pc, frame.resume? = some pc → m.Place pc

/-! ## Statements -/

namespace Exec

variable {σ α : Type} [Host σ] {t : Execution σ}

/-- If the action jumps, then to a place. -/
def Leads (t : Execution σ) (a : Exec σ Flow) : Prop :=
  Ensures t a fun flow t' => ∀ pc, flow = .jump pc → t'.machine.Place pc

namespace Leads

section

omit [Host σ]

theorem next : Leads t (pure .next) := .pure fun _ h => by cases h

theorem yield (status : Status) : Leads t (pure (.yield status)) := .pure fun _ h => by cases h

theorem jump {pc : Pc} (h : t.machine.Place pc) : Leads t (pure (.jump pc)) :=
  .pure fun _ heq => by cases heq; exact h

theorem throw (e : Error) : Leads t (throw e) := Ensures.throw e

theorem bind {P : α → Execution σ → Prop} {a : Exec σ α} {f : α → Exec σ Flow} (ha : Ensures t a P)
    (hf : ∀ x t', P x t' → Leads t' (f x)) : Leads t (a >>= f) :=
  Ensures.bind ha hf

theorem skip {a : Exec σ α} {f : α → Exec σ Flow} (hf : ∀ x t', Leads t' (f x)) :
    Leads t (a >>= f) :=
  Ensures.skip hf

theorem machine {f : Machine σ → Exec σ Flow} (hf : Leads t (f t.machine)) :
    Leads t (machine >>= f) :=
  Ensures.machine hf

theorem get {f : Execution σ → Exec σ Flow} (hf : Leads t (f t)) : Leads t (get >>= f) :=
  Ensures.get hf

theorem ite {c : Prop} [Decidable c] {a b : Exec σ Flow} (ha : c → Leads t a) (hb : ¬ c → Leads t b) :
    Leads t (if c then a else b) :=
  Ensures.ite ha hb

theorem check {c : Prop} [Decidable c] {e : Error} {f : Unit → Exec σ Flow}
    (hf : ¬ c → Leads t (f ())) : Leads t (if c then MonadExcept.throw e >>= f else f ()) :=
  Ensures.check hf

/-- Both ways go on alike. -/
theorem either {c : Prop} [Decidable c] {a b : Exec σ α} {f : α → Exec σ Flow}
    (hf : ∀ x t', Leads t' (f x)) : Leads t (if c then a >>= f else b >>= f) :=
  Ensures.ite (fun _ => skip hf) fun _ => skip hf

end

end Leads

theorem leads_assign : Leads t assign := by
  refine .skip fun name t => .skip fun indexed t => .either fun index t => ?_
  refine .skip fun _ t => .skip fun value t => ?_
  cases index with
  | some index => exact .skip fun _ t => .next
  | none => exact .machine (.check fun _ => .skip fun _ t => .next)

theorem leads_dim : Leads t dim := by
  refine .skip fun name t => .skip fun _ t => .skip fun size t => .skip fun _ t => .check fun _ => ?_
  refine .machine (.skip fun _ t => ?_)
  dsimp only
  split
  · exact .skip fun _ t => .next
  · exact .skip fun _ t => .throw _

theorem leads_setPin (bank : PinBank) : Leads t (setPin bank) := by
  refine .skip fun pin t => .skip fun _ t => .skip fun value t => .check fun _ => ?_
  exact .skip fun present t => .check fun _ => .next

theorem leads_dload : Leads t (dload : Exec σ _) := by
  refine .skip fun setting t => .machine ?_
  split
  · exact .throw _
  · exact .skip fun _ t => .next

theorem leads_openFile : Leads t (openFile : Exec σ _) := by
  refine .skip fun h t => .skip fun access t => .skip fun name t => .skip fun _ t => .machine ?_
  cases access with
  | read => exact .skip fun _ t => .next
  | write => exact .skip fun _ t => .skip fun _ t => .next
  | append => exact .skip fun _ t => .next

theorem leads_readFile : Leads t (readFile : Exec σ _) := by
  refine .skip fun h t => .skip fun file t => .machine ?_
  split
  · exact .throw _
  · exact .skip fun names t => .skip fun _ t => .skip fun _ t => .skip fun _ t => .next

theorem leads_writeFile : Leads t (writeFile : Exec σ _) :=
  .skip fun _ _ => .skip fun _ _ => .get (.skip fun _ _ => .skip fun _ _ => .skip fun _ _ => .next)

theorem leads_timer : Leads t (timer : Exec σ _) := by
  refine .skip fun id t => .skip fun stops t => .ite (fun _ => ?_) fun _ => ?_
  · exact .skip fun _ t => .check fun _ => .skip fun _ t => .next
  · refine .check fun _ => .skip fun timeout t => .skip fun repeats t => .skip fun _ t => ?_
    exact .skip fun line t => .check fun _ => .skip fun armed t => .check fun _ => .next

theorem leads_delay (pc : Pc) : Leads t (delay pc : Exec σ _) := by
  refine .skip fun timeout t => .check fun _ => .machine ?_
  split
  · split
    · exact .skip fun _ t => .yield _
    · exact .yield _
  · exact .yield _

theorem leads_list : Leads t (list : Exec σ _) := by
  refine .skip fun _ t => .get (.either fun start t => .skip fun _ t => .machine ?_)
  exact .skip fun _ t => .next

/-! ## Jumps -/

theorem ensures_nextClause (lines : List (Nat × List UInt8)) (nest : Nat) :
    Ensures t (nextClause lines nest) fun pc t' => t'.machine.Place pc := by
  induction lines generalizing t nest with
  | nil => exact .pure (Machine.place_end _)
  | cons line lines ih =>
    rw [nextClause]
    split
    · exact ih _
    · exact .ite (fun _ => .machine (.pure (Machine.place_after _ _))) fun _ => ih _
    · exact .ite (fun _ => .machine (.pure (Machine.place_after _ _))) fun _ => ih _
    · refine .ite (fun _ => .skip fun _ t => .skip fun v t => ?_) fun _ => ih _
      exact .ite (fun _ => .machine (.pure (Machine.place_after _ _))) fun _ => ih _
    · exact ih _

theorem leads_branch (pc : Pc) : Leads t (branch pc : Exec σ _) := by
  refine .skip fun v t => .ite (fun _ => .next) fun _ => .skip fun pos t => .machine ?_
  exact .bind (ensures_nextClause _ _) fun pc t h => .jump h

section

omit [Host σ]

theorem leads_leaveBlock (pc : Pc) : Leads t (leaveBlock pc : Exec σ _) := by
  have hposition : Ensures t (position pc) fun _ t' => t' = t := by
    unfold position
    split
    · exact .pure rfl
    · exact .throw _
  refine .machine (.bind hposition ?_)
  rintro pos t' rfl
  split
  · exact .jump (Machine.place_after _ _)
  · exact .jump (Machine.place_end _)

theorem leads_unwind (frames : List Frame)
    (h : ∀ frame ∈ frames, ∀ pc, frame.resume? = some pc → t.machine.Place pc) :
    Leads t (unwind frames) := by
  induction frames generalizing t with
  | nil => exact .jump (Machine.place_end _)
  | cons frame frames ih =>
    refine .bind .popFrame ?_
    rintro _ _ rfl
    have hplace {pc : Pc} (hpc : t.machine.Place pc) : t.machine.dropTop.Place pc :=
      hpc.congr (congrArg Store.size (Machine.store_dropTop_iterate 1 _))
    cases frame with
    | array a => exact ih fun frame hframe pc hpc => hplace (h frame (by simp [hframe]) pc hpc)
    | gosub resume => exact .jump (hplace (h _ List.mem_cons_self resume rfl))
    | event => exact .yield _
    | loop name step terminal resume => exact .throw _

theorem leads_returnToCaller (h : t.machine.Rooted) : Leads t (returnToCaller : Exec σ _) :=
  .bind (.read _) fun _ _ ht' => .machine (leads_unwind _ (ht' ▸ h))

theorem leads_nextLoop (h : t.machine.Rooted) : Leads t (nextLoop : Exec σ _) := by
  refine .bind (.read _) fun name t₁ h₁ => .bind (.read _) fun _ t₂ h₂ => .machine ?_
  split
  · exact .throw _
  next above habove =>
    refine .bind (.popFrames above) ?_
    rintro _ _ rfl
    refine .machine ?_
    dsimp only
    rw [h₂, h₁, Machine.frames_dropTop_iterate]
    split
    next name' step terminal resume frames hframes =>
      have hmem : Frame.loop name' step terminal resume ∈ t.machine.arena.frames :=
        List.mem_of_mem_drop (hframes ▸ List.mem_cons_self)
      have hplace : (Machine.dropTop^[above] t.machine).Place resume :=
        (h _ hmem resume rfl).congr (by rw [Machine.store_dropTop_iterate])
      refine .machine (.ite (fun _ => .jump (hplace.congr rfl)) fun _ => ?_)
      exact .skip fun _ t => .next
    next => exact .throw _

end

theorem leads_startLoop (pc : Pc) : Leads t (startLoop pc : Exec σ _) := by
  refine .skip fun name t => .skip fun _ t => .skip fun start t => .skip fun _ t => ?_
  refine .skip fun terminal t => .skip fun _ t => .either fun step t => .skip fun _ t => .machine ?_
  exact .check fun _ => .skip fun _ t => .machine (.skip fun _ t => .next)

/-- From a machine whose frames continue at places, statements jump to places only. -/
theorem leads_perform (h : t.machine.Rooted) (pc : Pc) (s : Statement) :
    Leads t (perform pc s : Exec σ _) := by
  cases s with
  | list => exact leads_list
  | new => exact .skip fun _ t => .skip fun _ t => .jump (Machine.place_end _)
  | run => exact .skip fun _ t => .skip fun _ t => .machine (.jump (Machine.place_first _))
  | mem => exact .skip fun _ t => .skip fun _ t => .next
  | rem => exact .next
  | «let» => exact leads_assign
  | «if» => exact leads_branch pc
  | elif => exact leads_leaveBlock pc
  | «else» => exact leads_leaveBlock pc
  | «end» => exact .skip fun _ t => .next
  | goto => exact .skip fun number t => .machine (.jump (Machine.place_target _ _))
  | gosub =>
    refine .skip fun number t => .machine (.skip fun _ t => .machine ?_)
    exact .jump (Machine.place_target _ _)
  | «return» => exact leads_returnToCaller h
  | «for» => exact leads_startLoop pc
  | next => exact leads_nextLoop h
  | print => exact .get (.skip fun _ t => .skip fun _ t => .next)
  | dim => exact leads_dim
  | timer => exact leads_timer
  | delay => exact leads_delay pc
  | autorun => exact .skip fun on t => .either fun _ t => .next
  | dsave => exact .skip fun setting t => .machine (.skip fun _ t => .next)
  | dload => exact leads_dload
  | «open» => exact leads_openFile
  | close => exact .skip fun h t => .skip fun _ t => .skip fun _ t => .next
  | read => exact leads_readFile
  | write => exact leads_writeFile
  | pin bank => exact leads_setPin bank
  | reboot => exact .skip fun _ t => .skip fun _ t => .yield _

end Exec

/-! ## Steps -/

namespace Machine

variable {σ : Type} [Host σ] {m m' : Machine σ}

theorem place_of_step (h : m.Rooted) {pc pc' : Pc} (hstep : m.step pc = (.more pc', m')) :
    m'.Place pc' := by
  obtain ⟨s, rest, flow, t, -, hexec, rfl, ⟨-, rfl⟩ | rfl⟩ := step_eq_more hstep
  · exact place_next _ _
  · exact Exec.leads_perform h pc s _ _ hexec pc' rfl

omit [Host σ] in
theorem Rooted.congr (h : m.Rooted) (hstore : m'.store = m.store)
    (hframes : m'.arena.frames = m.arena.frames) : m'.Rooted := by
  intro frame hframe resume hresume
  exact (h frame (hframes ▸ hframe) resume hresume).congr (by rw [hstore])

theorem Rooted.move (h : m.Rooted) (hsound : m.store.IsSound) {d : Trend} (hmove : Move d m m') :
    m'.Rooted := by
  intro frame hframe resume hresume
  have hplace : m.Place resume := by
    obtain heq | ⟨-, top, heq, hnext, -⟩ | ⟨-, ⟨top, heq⟩ | heq⟩ := hmove.frames
    · exact h frame (heq ▸ hframe) resume hresume
    · rw [heq] at hframe
      rcases List.mem_cons.mp hframe with rfl | hframe
      · obtain ⟨pc, rfl⟩ := hnext resume hresume
        exact m.place_next pc
      · exact h frame hframe resume hresume
    · exact h frame (heq ▸ List.mem_cons_of_mem _ hframe) resume hresume
    · rw [heq] at hframe
      cases hframe
  rcases hmove.lines hsound with hlines | hnil
  · have hsize := congrArg List.length hlines
    rw [Store.length_lines, Store.length_lines] at hsize
    exact hplace.congr hsize
  · rw [hnil] at hframe
    cases hframe

theorem kept_rooted : Kept fun m : Machine σ => m.store.IsSound ∧ m.Rooted where
  move h hmove := ⟨kept_isSound.move h.1 hmove, h.2.move h.1 hmove⟩
  direct h _ := ⟨h.1, h.2.congr rfl rfl⟩
  edit {m} h line hnumber := by
    refine ⟨kept_isSound.edit h.1 hnumber, fun frame hframe => ?_⟩
    rw [m.frames_edit line] at hframe
    cases hframe
  event h arena hpush := by
    obtain ⟨-, rfl⟩ := Arena.push_eq_ok hpush
    refine ⟨h.1, fun frame hframe resume hresume => ?_⟩
    rcases List.mem_cons.mp hframe with rfl | hframe
    · cases hresume
    · exact (h.2 frame hframe resume hresume).congr rfl
  service h m' service hservice := by
    obtain ⟨block, arena, halloc, rfl⟩ := eq_of_registerService hservice
    obtain ⟨-, -, rfl⟩ := Arena.alloc_eq_ok halloc
    exact ⟨h.1, h.2.congr rfl rfl⟩
  notifier h m' name n hnotifier := by
    obtain ⟨frames, hmute, rfl⟩ := eq_of_attachNotifier hnotifier
    refine ⟨h.1, fun frame hframe resume hresume => ?_⟩
    have hmem := List.mem_map_of_mem (f := Frame.mute) hframe
    rw [hmute] at hmem
    obtain ⟨f, hf, heq⟩ := List.mem_map.mp hmem
    refine (h.2 f hf resume ?_).congr rfl
    rw [← f.resume?_mute, heq, frame.resume?_mute, hresume]

theorem place_of_next {s s' : Moment σ} (h : s.2.Rooted) (hnext : Next s s') {pc : Pc}
    (hpc : s'.1 = .more pc) : pc = .direct ∨ s'.2.Place pc := by
  cases hnext with
  | step pc m => exact .inr (place_of_step h (Prod.ext hpc rfl))
  | enter status m typed =>
    unfold entered at hpc
    split at hpc
    · cases hpc
    · split at hpc
      · cases hpc
      · split at hpc
        · cases hpc
        · cases hpc
          exact .inl rfl
  | event status m line canReturn =>
    generalize hraised : m.raised line canReturn = s' at hpc ⊢
    unfold raised at hraised
    split at hraised
    · subst hraised
      cases hpc
    next pos hpos =>
      have hplace := place_of_find? hpos
      split at hraised
      · split at hraised <;> subst hraised <;> cases hpc
        exact .inr (hplace.congr rfl)
      · subst hraised
        cases hpc
        exact .inr hplace
  | _ => cases hpc

/-- As long as there are frames, the lines stay where they are. -/
theorem held_lines (depth : Nat) (lines : List (UInt16 × List UInt8)) :
    Held depth fun m : Machine σ => m.store.IsSound ∧ m.store.lines = lines where
  move h hmove hdepth := by
    refine ⟨kept_isSound.move h.1 hmove, ?_⟩
    rcases hmove.lines h.1 with hlines | hnil
    · exact hlines.trans h.2
    · simp [Arena.depth, hnil] at hdepth
  direct h _ := h
  event h _ _ := h
  service h m' service hservice := by
    obtain ⟨block, arena, -, rfl⟩ := eq_of_registerService hservice
    exact h
  notifier h m' name n hnotifier := by
    obtain ⟨frames, -, rfl⟩ := eq_of_attachNotifier hnotifier
    exact h

/-- If free flash was erased at the start, execution continues at places only, those in frames
included, so there always is a line to execute; and while a frame is on the stack, every line stays
at its position. -/
theorem places_of_course {config : Config} {flash : Flash} {host : σ} {s : Moment σ}
    (hsize : Page.ageLength ≤ config.pageSize) (hclean : CleanTailed flash config.pageSize)
    (h : Course (started config flash host) s) :
    (∀ pc, s.1 = .more pc → (pc = .direct ∨ s.2.Place pc) ∧
      ∀ pc' m', s.2.step pc = (.more pc', m') → m'.Place pc') ∧
    s.2.Rooted ∧
    (∀ pos, s.1 = .more (.line pos) →
      ∃ line, s.2.store.line? pos = some line ∧ s.2.textAt (.line pos) = line.2) ∧
    ∀ above frame below s', s.2.arena.frames = above ++ frame :: below →
      CourseWhile (fun m => below.length < m.arena.depth) s s' →
      (frame :: below).map Frame.mute <:+ s'.2.arena.frames.map Frame.mute ∧
        ∀ pos, s'.2.store.line? pos = s.2.store.line? pos := by
  have hkept {s : Moment σ} (h : Course (started config flash host) s) :
      s.2.store.IsSound ∧ s.2.Rooted :=
    kept_rooted.course (s := started config flash host)
      ⟨.mount hsize hclean, fun _ hframe => by cases hframe⟩ h
  have hplace : ∀ pc, s.1 = .more pc → pc = .direct ∨ s.2.Place pc := by
    intro pc hpc
    obtain rfl | ⟨s₀, h₀, hnext⟩ := Relation.ReflTransGen.cases_tail h
    · cases hpc
    · exact place_of_next (hkept h₀).2 hnext hpc
  obtain ⟨hsound, hrooted⟩ := hkept h
  refine ⟨fun pc hpc => ⟨hplace pc hpc, fun pc' m' => place_of_step hrooted⟩, hrooted, ?_, ?_⟩
  · intro pos hpos
    obtain heq | heq | ⟨pos', hlt, heq⟩ := hplace _ hpos
    · cases heq
    · cases heq
    · cases heq
      obtain ⟨line, hline⟩ := Store.exists_line hlt
      exact ⟨line, hline, by simp [textAt, hline]⟩
  · intro above frame below s' hframes hcourse
    have hdepth : below.length < s.2.arena.depth := by
      simp only [Arena.depth, hframes, List.length_append, List.length_cons]
      omega
    refine ⟨?_, fun pos => ?_⟩
    · refine (held_suffix frame below).course ?_ hdepth hcourse
      rw [hframes]
      exact (List.suffix_append _ _).map _
    · rw [Store.line?_eq, Store.line?_eq,
        ((held_lines below.length _).course ⟨hsound, rfl⟩ hdepth hcourse).2]

/-- A subroutine saves the same setting until the page is full and has to be compacted. -/
theorem places_of_course_compacting :
    let start : Moment Recorder :=
      started { pages := 1, pageSize := 64, arenaSize := 256 } (.blank 64) {}
    let s := session 2 start ["10 GOSUB 30", "20 END", "30 DSAVE 1,A", "40 GOTO 30", "RUN"]
    let s' := onward 5 s
    Page.ageLength ≤ 64 ∧ CleanTailed (.blank 64) 64 ∧ Course start s ∧ s.1 = .more (.line 2) ∧
      s.2.arena.frames = [] ++ [.gosub (.line 1)] ∧
      CourseWhile (fun m => 0 < m.arena.depth) s s' ∧ s.2.store.lastAge ≠ s'.2.store.lastAge ∧
      s.2.Place (.line 2) ∧ s.2.Rooted ∧
      [Frame.gosub (.line 1)] <:+ s'.2.arena.frames.map Frame.mute ∧
      s'.2.store.line? 1 = s.2.store.line? 1 := by
  intro start s s'
  have hpage : Page.ageLength ≤ 64 := by decide
  have hclean : CleanTailed (.blank 64) 64 := by decide +kernel
  have hcourse : Course start s := course_session ..
  -- One evaluation of the session for all that is read off it.
  obtain ⟨hturn, hframes, hup, hage⟩ :
      s.1 = .more (.line 2) ∧ s.2.arena.frames = [] ++ [.gosub (.line 1)] ∧
      (∀ k ≤ 5, 0 < (onward k s).2.arena.depth) ∧ s.2.store.lastAge ≠ s'.2.store.lastAge := by
    decide +kernel
  have hwhile : CourseWhile (fun m => 0 < m.arena.depth) s s' := courseWhile_onward 5 s hup
  clear_value s s'
  obtain ⟨hplaces, hrooted, -, hkept⟩ := places_of_course hpage hclean hcourse
  obtain ⟨hsuffix, hline⟩ := hkept _ _ _ _ hframes hwhile
  have hplace := (hplaces _ hturn).1.resolve_left (by simp)
  exact ⟨hpage, hclean, hcourse, hturn, hframes, hwhile, hage, hplace, hrooted, hsuffix, hline 1⟩

end Machine

end FlashBasic
