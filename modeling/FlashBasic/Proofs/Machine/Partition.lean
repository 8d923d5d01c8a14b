import FlashBasic.Host.Recorder
import FlashBasic.Proofs.Machine.Heap
import FlashBasic.Proofs.Machine.Performing

/-!
How a machine divides its arena. Heap and stack never overlap, whatever the machine does, and the
bytes below the heap are as many as the line index takes, provided that free flash was erased when
the machine was started.
-/

namespace FlashBasic

set_option autoImplicit false

namespace Machine

variable {σ : Type} [Host σ] {m m' : Machine σ}

theorem kept_ordered : Kept fun m : Machine σ => m.arena.Ordered where
  move {d m m'} h hmove := by
    cases hmove with
    | fill => exact h.write _ _
    | dim _ name halloc hpush => exact h.declare halloc hpush
    | undo _ halloc =>
      rw [Arena.release_alloc halloc h.trimmed]
      exact h.write _ _
    | gosub _ pc hpush => exact h.push rfl hpush
    | loop _ hname step terminal pc hpush => exact h.push rfl hpush
    | pop _ hpop =>
      rw [Exec.frames_popped]
      exact h.pop? hpop
    | reset => exact h.reset.setFloor rfl rfl rfl _
    | clear => exact h.reset.setFloor rfl rfl rfl _
    | storing _ key data =>
      obtain ⟨store, data, hstoring⟩ :=
        m.eq_of_storing (Item.length (data.length + 4)) (·.putRecord? key data)
      rw [hstoring]
      exact h.write _ _
    | _ => exact h
  direct h _ := h
  edit {m} h line _ := by
    have hreset : m.reset.arena.Ordered := h.reset.setFloor rfl rfl rfl _
    obtain ⟨host, store, data, hedit | hedit⟩ := m.eq_of_edit line
    · rw [hedit]
      exact hreset.write _ _
    · rw [hedit]
      exact (hreset.write _ _).setFloor rfl rfl rfl _
  event h _ hpush := h.push rfl hpush
  service h m' service hservice := by
    obtain ⟨block, arena, halloc, rfl⟩ := eq_of_registerService hservice
    exact h.addService halloc
  notifier h m' name n hnotifier := by
    obtain ⟨frames, hmute, rfl⟩ := eq_of_attachNotifier hnotifier
    exact h.of_mute hmute

theorem ordered_of_course {config : Config} {flash : Flash} {host : σ} {s : Moment σ}
    (h : Course (started config flash host) s) : s.2.arena.Ordered :=
  kept_ordered.course (s := started config flash host)
    ((Arena.Ordered.ofSize _).reset.setFloor rfl rfl rfl _) h

/-! ## The line index -/

/-- The bytes of the line index are reserved, as far as there is room for them. -/
def IndexReserved (m : Machine σ) : Prop :=
  m.arena.floor = min (m.store.size * indexEntrySize) m.arena.top

omit [Host σ] in
theorem IndexReserved.congr (h : m.IndexReserved) (hlines : m'.store.lines = m.store.lines)
    (hfloor : m'.arena.floor = m.arena.floor) (htop : m'.arena.top = m.arena.top) :
    m'.IndexReserved := by
  have hsize := congrArg List.length hlines
  rw [Store.length_lines, Store.length_lines] at hsize
  rw [IndexReserved, hsize, hfloor, htop]
  exact h

omit [Host σ] in
theorem lines_of_storing_eq_false (hsound : m.store.IsSound) {length : Nat}
    {put? : Store → Option Store} (h : m.storing length put? = (false, m')) :
    m'.store.lines = m.store.lines := by
  obtain ⟨s, -, hstoring⟩ | ⟨-, -, hstoring⟩ | ⟨-, m₁, hm₁, ⟨s, -, hstoring⟩ | ⟨-, hstoring⟩⟩ :=
    m.storing_cases length put?
  all_goals rw [hstoring] at h
  · cases h
  · cases h
    rfl
  · cases h
  · cases h
    exact (hsound.compact? (store_of_compact? hm₁).1).2

theorem IndexReserved.move (h : m.IndexReserved) (hsound : m.store.IsSound) {d : Trend}
    (hmove : Move d m m') : m'.IndexReserved := by
  cases hmove with
  | reset => rfl
  | clear => rfl
  | dim _ name halloc hpush =>
    obtain ⟨-, -, rfl⟩ := Arena.alloc_eq_ok halloc
    obtain ⟨-, rfl⟩ := Arena.push_eq_ok hpush
    exact h
  | undo _ halloc =>
    obtain ⟨-, -, rfl⟩ := Arena.alloc_eq_ok halloc
    exact h
  | gosub _ pc hpush =>
    obtain ⟨-, rfl⟩ := Arena.push_eq_ok hpush
    exact h
  | loop _ hname step terminal pc hpush =>
    obtain ⟨-, rfl⟩ := Arena.push_eq_ok hpush
    exact h
  | @pop _ frame arena hpop =>
    obtain ⟨frames, -, rfl⟩ := Arena.pop?_eq_some hpop
    cases frame <;> exact h
  | storing _ key data =>
    have hlines := lines_storing_record hsound key data (Item.length (data.length + 4))
    obtain ⟨store, data', hstoring⟩ :=
      m.eq_of_storing (Item.length (data.length + 4)) (·.putRecord? key data)
    rw [hstoring] at hlines ⊢
    exact h.congr hlines rfl rfl
  | @forget _ _ key store hdelete => exact h.congr (hsound.deleteRecord? hdelete).2 rfl rfl
  | _ => exact h

theorem IndexReserved.edit (hsound : m.store.IsSound) (line : Line) :
    (m.edit line).2.IndexReserved := by
  obtain ⟨store, data, heq⟩ := m.reset.eq_of_storing (Item.length line.text.length)
    (·.putLine? line.number line.text)
  obtain ⟨e, hedit⟩ | hedit | ⟨m', hstoring, hedit⟩ | ⟨m', hstoring, hedit⟩ := m.edit_cases line
  · rw [hedit]
    rfl
  · rw [hedit]
    rfl
  · rw [hstoring] at heq
    obtain rfl := heq
    rw [hedit]
    rfl
  · have hlines := lines_of_storing_eq_false (m := m.reset) hsound hstoring
    rw [hstoring] at heq
    obtain rfl := heq
    rw [hedit]
    exact congr (m := m.reset) rfl hlines rfl rfl

theorem kept_indexReserved :
    Kept fun m : Machine σ => m.store.IsSound ∧ m.IndexReserved where
  move h hmove := ⟨kept_isSound.move h.1 hmove, h.2.move h.1 hmove⟩
  direct h _ := ⟨h.1, h.2.congr rfl rfl rfl⟩
  edit h line hnumber := ⟨kept_isSound.edit h.1 hnumber, .edit h.1 line⟩
  event h arena hpush := by
    obtain ⟨-, rfl⟩ := Arena.push_eq_ok hpush
    exact ⟨h.1, h.2.congr rfl rfl rfl⟩
  service h m' service hservice := by
    obtain ⟨block, arena, halloc, rfl⟩ := eq_of_registerService hservice
    obtain ⟨-, -, rfl⟩ := Arena.alloc_eq_ok halloc
    exact ⟨h.1, h.2.congr rfl rfl rfl⟩
  notifier h m' name n hnotifier := by
    obtain ⟨frames, -, rfl⟩ := eq_of_attachNotifier hnotifier
    exact ⟨h.1, h.2.congr rfl rfl rfl⟩

/-! ## Arrays -/

theorem zeros_of_dim (h : m.arena.Ordered) {pc pc' : Pc}
    (hdim : Statement.ofText? (m.textAt pc) = some .dim) (hstep : m.step pc = (.more pc', m')) :
    ∃ v, m'.arena.frames = .array v :: m.arena.frames ∧
      m'.arena.bytes v.block = List.replicate v.block.size 0 := by
  obtain ⟨s, rest, flow, t, hdecode, hexec, rfl, -⟩ := step_eq_more hstep
  have hs : s = .dim := by
    rw [Statement.ofText?, hdecode] at hdim
    exact Option.some.inj hdim
  obtain rfl := hs
  obtain ⟨m₁, name, size, block, arena, arena', halike, halloc, hpush, heq⟩ :=
    Exec.ensures_dim _ _ hexec
  rw [halike.arena] at halloc
  have hbytes := h.bytes_alloc halloc
  obtain ⟨-, -, rfl⟩ := Arena.alloc_eq_ok halloc
  obtain ⟨-, rfl⟩ := Arena.push_eq_ok hpush
  rw [heq]
  exact ⟨_, rfl, hbytes⟩

/-- In every course the arena is divided into heap and stack, and DIM makes arrays of zeros. If free
flash was erased at the start, the heap begins right after the line index. -/
theorem partition_of_course {config : Config} {flash : Flash} {host : σ} {s : Moment σ}
    (h : Course (started config flash host) s) :
    s.2.arena.Partitioned ∧
      (∀ pc pc' m', s.1 = .more pc → Statement.ofText? (s.2.textAt pc) = some .dim →
        s.2.step pc = (.more pc', m') →
        ∃ v, m'.arena.frames = .array v :: s.2.arena.frames ∧
          m'.arena.bytes v.block = List.replicate v.block.size 0) ∧
      (Page.ageLength ≤ config.pageSize → CleanTailed flash config.pageSize →
        s.2.arena.floor = min (2 * s.2.store.size) s.2.arena.top) := by
  have hordered := ordered_of_course h
  refine ⟨hordered.partitioned, ?_, ?_⟩
  · intro pc pc' m' _ hdim hstep
    exact zeros_of_dim hordered hdim hstep
  · intro hsize hclean
    have hindex := kept_indexReserved.course (s := started config flash host)
      ⟨.mount hsize hclean, rfl⟩ h
    rw [Nat.mul_comm]
    exact hindex.2

/-- A program that has declared one array is about to declare another. -/
theorem partition_of_course_second_array :
    let start : Moment Recorder :=
      started { pages := 1, pageSize := 64, arenaSize := 256 } (.blank 64) {}
    let s := session 2 start ["10 DIM A(3)", "20 DIM B(4)", "RUN"]
    Course start s ∧ s.1 = .more (.line 1) ∧
      Statement.ofText? (s.2.textAt (.line 1)) = some .dim ∧ (s.2.step (.line 1)).1 = .more .end ∧
      s.2.arena.services = [] ∧ s.2.arena.Partitioned ∧
      s.2.arena.floor = min (2 * s.2.store.size) s.2.arena.top ∧
      ∃ v, (s.2.step (.line 1)).2.arena.frames = .array v :: s.2.arena.frames ∧
        (s.2.step (.line 1)).2.arena.bytes v.block = List.replicate v.block.size 0 := by
  intro start s
  have hcourse : Course start s := course_session ..
  -- One evaluation of the session for all that is read off it.
  obtain ⟨hturn, hdim, hmore, hservices⟩ :
      s.1 = .more (.line 1) ∧ Statement.ofText? (s.2.textAt (.line 1)) = some .dim ∧
      (s.2.step (.line 1)).1 = .more .end ∧ s.2.arena.services = [] := by
    decide +kernel
  have hclean : CleanTailed (.blank 64) 64 := by decide +kernel
  have hpage : Page.ageLength ≤ 64 := by decide
  clear_value s
  have hstep : s.2.step (.line 1) = (.more .end, (s.2.step (.line 1)).2) := Prod.ext hmore rfl
  obtain ⟨hpartitioned, hzeros, hfloor⟩ := partition_of_course hcourse
  exact ⟨hcourse, hturn, hdim, hmore, hservices, hpartitioned, hfloor hpage hclean,
    hzeros _ _ _ hturn hdim hstep⟩

/-- Compaction can bring to light a line whose index entry was not reserved: one that lies in free
flash, past the end of the items, when the machine is started. -/
theorem floor_below_revealed_line :
    ¬ ∀ s : Moment Recorder,
      Course (started { pages := 1, pageSize := 36, arenaSize := 256 }
        ⟨#[1, 0, 0, 0, 0, 0, 12, 0, 255, 255, 255, 255, 255, 255, 255, 255, 255, 255, 255, 255, 255,
          255, 255, 255, 255, 255, 255, 255, 10, 0, 8, 2, 142, 10, 255, 255]⟩ {}) s →
        s.2.arena.floor = min (2 * s.2.store.size) s.2.arena.top := by
  intro h
  exact absurd (h _ (course_session 9 _ ["DSAVE 1,A", "DSAVE 2,A"])) (by decide +kernel)

end Machine

end FlashBasic
