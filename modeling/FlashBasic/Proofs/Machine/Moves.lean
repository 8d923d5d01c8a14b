import FlashBasic.Proofs.Machine.Reading

/-!
What executing a statement can do to a machine. `Machine.Move` lists the single changes, each with
what is known when it is made, and every statement is a sequence of them (`Exec.moves_perform`),
whether it succeeds or fails. A property of machines that all moves keep is therefore kept by
every run.

No statement both pushes frames and takes some off: its moves go in one direction, its `Trend`. Most
statements have nothing to do with the store and the files and leave both alone
(`Exec.quiet_perform`).
-/

namespace FlashBasic

set_option autoImplicit false

namespace Machine

variable {σ : Type} [Host σ]

/-- The machine without its top frame; an array gives its name back. -/
def popped (m : Machine σ) (frame : Frame) (arena : Arena) : Machine σ :=
  match frame with
  | .array a => { m with arena, vars := m.vars.setShadowed a.name a.prior }
  | _ => { m with arena }

/-- Whether the stack of frames grows or shrinks. -/
inductive Trend where
  | up
  | down

inductive Move : Trend → Machine σ → Machine σ → Prop where
  | host {d : Trend} (m : Machine σ) (host : σ) : Move d m { m with host }
  | set {d : Trend} (m : Machine σ) {name : Letter} (h : m.array? name = none) (value : Int32) :
      Move d m { m with vars := m.vars.set name value }
  | advance {d : Trend} (m : Machine σ) {name : Letter} {step terminal : Int32} {resume : Pc}
      {frames : List Frame} (h : m.arena.frames = .loop name step terminal resume :: frames)
      (value : Int32) : Move d m { m with vars := m.vars.set name value }
  | file {d : Trend} (m : Machine σ) (h : Fin fileCount) (file : Option OpenFile) :
      Move d m { m with files := m.files.set h file h.isLt }
  | fill {d : Trend} (m : Machine σ) {name : Letter} {a : ArrayFrame} (h : m.array? name = some a)
      (offset : Nat) (data : List UInt8) (hdata : offset + data.length ≤ a.block.size) :
      Move d m { m with arena := m.arena.write (a.block.start + offset) data }
  | dim (m : Machine σ) (name : Letter) {size : Nat} {block : Block} {arena arena' : Arena}
      (halloc : m.arena.alloc size = .ok (block, arena))
      (hpush : arena.push (.array { name, block, prior := m.vars.isShadowed name }) = .ok arena') :
      Move .up m { m with arena := arena', vars := m.vars.setShadowed name true }
  | undo {d : Trend} (m : Machine σ) {size : Nat} {block : Block} {arena : Arena}
      (halloc : m.arena.alloc size = .ok (block, arena)) :
      Move d m { m with arena := arena.release block }
  | gosub (m : Machine σ) (pc : Pc) {arena : Arena}
      (h : m.arena.push (.gosub (m.next pc)) = .ok arena) : Move .up m { m with arena }
  | loop (m : Machine σ) {name : Letter} (hname : m.array? name = none) (step terminal : Int32)
      (pc : Pc) {arena : Arena}
      (h : m.arena.push (.loop name step terminal (m.next pc)) = .ok arena) :
      Move .up m { m with arena }
  | pop (m : Machine σ) {frame : Frame} {arena : Arena} (h : m.arena.pop? = some (frame, arena)) :
      Move .down m (m.popped frame arena)
  | reset (m : Machine σ) : Move .down m m.reset
  | clear (m : Machine σ) : Move .down m { m with store := m.store.clear }.reset
  | storing {d : Trend} (m : Machine σ) (key : RecordKey) (data : List UInt8) :
      Move d m (m.storing (Item.length (data.length + 4)) (·.putRecord? key data)).2
  | forget {d : Trend} (m : Machine σ) {key : RecordKey} {store : Store}
      (h : m.store.deleteRecord? key = some store) : Move d m { m with store }

/-- Any number of moves in one direction. -/
abbrev Path (d : Trend) : Machine σ → Machine σ → Prop := Relation.ReflTransGen (Move d)

variable {d : Trend} {m m' : Machine σ}

/-- The machine moves while its store and its files stay as they are. -/
structure Quiet (d : Trend) (m m' : Machine σ) : Prop where
  path : Path d m m'
  store : m'.store = m.store
  files : m'.files = m.files

theorem Quiet.refl (m : Machine σ) : Quiet d m m := ⟨.refl, rfl, rfl⟩

theorem Quiet.trans {m'' : Machine σ} (h : Quiet d m m') (h' : Quiet d m' m'') : Quiet d m m'' :=
  ⟨h.path.trans h'.path, h'.store.trans h.store, h'.files.trans h.files⟩

theorem Quiet.host (m : Machine σ) (host : σ) : Quiet d m { m with host } :=
  ⟨.single (.host m host), rfl, rfl⟩

end Machine

/-- The statement has nothing to do with the store and the files. -/
def Statement.isQuiet : Statement → Bool
  | .new | .run | .autorun | .dsave | .open | .close | .read | .write => false
  | _ => true

/-- Three statements push a frame; the others at most take some off. -/
def Statement.trend : Statement → Machine.Trend
  | .gosub | .for | .dim => .up
  | _ => .down

instance {σ : Type} [Host σ] {d : Machine.Trend} : Exec.Steady (Machine.Path (σ := σ) d) where
  refl _ := .refl
  trans := .trans
  evaluate m _ _ := .single (.host m _)

instance {σ : Type} [Host σ] {d : Machine.Trend} : Exec.Steady (Machine.Quiet (σ := σ) d) where
  refl := .refl
  trans := .trans
  evaluate m _ _ := .host m _

namespace Exec

open Machine (Trend Move Path Quiet)

variable {σ α β : Type} [Host σ] {d : Trend} {t : Execution σ}

/-- Executing `a` from `t` changes the machine by moves in one direction only. -/
abbrev Moves (d : Trend) (t : Execution σ) (a : Exec σ α) : Prop := Via (Path d) t a

theorem quiet_ask (f : σ → α × σ) : Via (Quiet d) t (ask f) := .host _ _

theorem quiet_tell (f : σ → σ) : Via (Quiet d) t (tell f) := .host _ _

/-! ## Moving data -/

section

omit [Host σ]

theorem array?_eq_none {m : Machine σ} {name : Letter} (h : ¬ m.vars.isShadowed name = true) :
    m.array? name = none := by
  simp [Machine.array?, Variables.array?, h]

end

theorem quiet_notify (a : ArrayFrame) : Via (Quiet d) t (notify a) := by
  unfold notify
  split
  · exact quiet_tell _
  · exact .pure _

theorem quiet_setElement (name : Letter) (index value : Int32) :
    Via (Quiet d) t (setElement name index value) := by
  refine .machine ?_
  split
  · exact .throw _
  next a ha =>
    refine .check fun hindex => .bind (.modifyMachine ?_) fun _ t => quiet_notify a
    refine ⟨.single (.fill _ ha index.toInt.toNat _ ?_), rfl, rfl⟩
    rw [Int32.lt_iff_toInt_lt, Int32.toInt_zero] at hindex
    rw [List.length_singleton]
    omega

theorem quiet_assign : Via (Quiet d) t assign := by
  refine .bind (.read _) fun name t => .bind (.read _) fun indexed t => ?_
  refine .either (.map _ (.eval _)) (.pure _) fun index t => ?_
  refine .bind (.read _) fun _ t => .bind .evalLast fun value t => ?_
  cases index with
  | some index => exact .bind (quiet_setElement name index value) fun _ t => .pure _
  | none =>
    refine .machine (.check fun hname => .bind (.modifyMachine ?_) fun _ t => .pure _)
    exact ⟨.single (.set _ (array?_eq_none hname) value), rfl, rfl⟩

theorem quiet_dim : Via (Quiet .up) t dim := by
  refine .bind (.read _) fun name t => .bind (.read _) fun _ t => ?_
  refine .bind (.eval _) fun size t => .bind (.read _) fun _ t => .check fun _ => .machine ?_
  refine .ofExcept fun y halloc => ?_
  dsimp only
  split
  next arena' hpush =>
    refine .bind (.modifyMachine ?_) fun _ t => .pure _
    exact ⟨.single (.dim _ name halloc hpush), rfl, rfl⟩
  next e _ =>
    refine .bind (.modifyMachine ?_) fun _ t => .throw _
    exact ⟨.single (.undo _ halloc), rfl, rfl⟩

theorem quiet_setPin (bank : PinBank) : Via (Quiet d) t (setPin bank) := by
  refine .bind (.eval _) fun pin t => .bind (.read _) fun _ t => .bind .evalLast fun value t => ?_
  exact .check fun _ => .bind (quiet_ask _) fun present t => .check fun _ => .pure _

theorem moves_putRecord (key : RecordKey) (data : List UInt8) : Moves d t (putRecord key data) := by
  refine .check fun _ => .machine ?_
  refine .bind (.modifyMachine (.single (.storing _ key data))) fun _ t => ?_
  exact .ite (fun _ => .throw _) fun _ => .pure _

theorem quiet_load (name : Letter) (data : List UInt8) : Via (Quiet d) t (load name data) := by
  refine .machine ?_
  split
  next a ha =>
    refine .bind (.modifyMachine ?_) fun _ t => .bind (quiet_notify a) fun _ t => .pure _
    refine ⟨.single (.fill _ ha 0 _ ?_), rfl, rfl⟩
    rw [Nat.zero_add]
    exact List.length_take_le ..
  next ha =>
    refine .bind (.modifyMachine ?_) fun _ t => .pure _
    exact ⟨.single (.set _ ha _), rfl, rfl⟩

theorem quiet_loadAll (names : List Letter) (data : List UInt8) :
    Via (Quiet d) t (loadAll names data) := by
  induction names generalizing t data with
  | nil => exact .pure _
  | cons name names ih => exact .bind (quiet_load name data) fun rest t => ih rest

theorem moves_dsave : Moves d t (dsave : Exec σ _) := by
  refine .bind via_setting fun setting t => .machine ?_
  exact .bind (moves_putRecord _ _) fun _ t => .pure _

theorem quiet_dload : Via (Quiet d) t (dload : Exec σ _) := by
  refine .bind via_setting fun setting t => .machine ?_
  split
  · exact .throw _
  · exact .bind (quiet_load _ _) fun _ t => .pure _

theorem moves_autorun : Moves d t (autorun : Exec σ _) := by
  refine .bind .evalLast fun on t => ?_
  refine .either (moves_putRecord _ _) (.modifyMachine ?_) fun _ t => .pure _
  cases h : t.machine.store.deleteRecord? .autorun with
  | none => exact .refl
  | some store => exact .single (.forget _ h)

/-! ## Files -/

theorem moves_setFile (h : Fin fileCount) (file : Option OpenFile) :
    Moves d t (setFile h file : Exec σ _) :=
  .modifyMachine (.single (.file _ h file))

theorem path_deleteRecords (name : Letter) (fuel : Nat) (record : UInt16) (m : Machine σ) :
    Path d m { m with store := deleteRecords name fuel record m.store } := by
  induction fuel generalizing record m with
  | zero => exact .refl
  | succ fuel ih =>
    rw [deleteRecords]
    split
    next store h => exact .head (.forget m h) (ih (record + 1) { m with store })
    next => exact .refl

theorem moves_openFile : Moves d t (openFile : Exec σ _) := by
  refine .bind via_fileNumber fun h t => .bind (.read _) fun access t => ?_
  refine .bind (.read _) fun name t => .bind (.read _) fun _ t => .machine ?_
  cases access with
  | read => exact .bind (moves_setFile h _) fun _ t => .pure _
  | write =>
    refine .bind (.modifyMachine (path_deleteRecords name _ 1 _)) fun _ t => ?_
    exact .bind (moves_setFile h _) fun _ t => .pure _
  | append => exact .bind (moves_setFile h _) fun _ t => .pure _

theorem moves_close : Moves d t (close : Exec σ _) := by
  refine .bind via_handle fun h t => .bind (.read _) fun _ t => ?_
  exact .bind (moves_setFile h none) fun _ t => .pure _

theorem moves_readFile : Moves d t (readFile : Exec σ _) := by
  refine .bind via_handle fun h t => .bind (via_fileBehind h false) fun file t => .machine ?_
  split
  · exact .throw _
  · refine .bind (.read _) fun names t => .bind (.read _) fun _ t => ?_
    refine .bind (.mono Quiet.path (quiet_loadAll names _)) fun _ t => ?_
    exact .bind (moves_setFile h _) fun _ t => .pure _

theorem moves_writeFile : Moves d t (writeFile : Exec σ _) := by
  refine .bind via_handle fun h t => .bind (via_fileBehind h true) fun file t => .get ?_
  refine .bind (via_writeItems _ []) fun data t => .bind (moves_putRecord _ data) fun _ t => ?_
  exact .bind (moves_setFile h _) fun _ t => .pure _

/-! ## Directing the flow -/

theorem quiet_gosub (pc : Pc) : Via (Quiet .up) t (gosub pc : Exec σ Flow) := by
  refine .bind .evalLast fun number t => .machine ?_
  refine .bind (.onArena fun arena harena => ?_) fun _ t => ?_
  · exact ⟨.single (.gosub _ pc harena), rfl, rfl⟩
  · exact .machine (.pure _)

section

omit [Host σ]

theorem exec_popFrame (t : Execution σ) :
    popFrame.exec t =
      match t.machine.arena.pop? with
      | none => (.ok none, t)
      | some (frame, arena) =>
        (.ok (some frame), { t with machine := t.machine.popped frame arena }) := by
  rw [popFrame, Action.exec_bind, exec_machine]
  cases h : t.machine.arena.pop? with
  | none => simp [h]
  | some y =>
    obtain ⟨frame, arena⟩ := y
    simp only [h]
    cases frame <;> rfl

theorem frames_popped (m : Machine σ) (frame : Frame) (arena : Arena) :
    (m.popped frame arena).arena = arena := by
  cases frame <;> rfl

theorem store_popped (m : Machine σ) (frame : Frame) (arena : Arena) :
    (m.popped frame arena).store = m.store ∧ (m.popped frame arena).files = m.files := by
  cases frame <;> exact ⟨rfl, rfl⟩

theorem frames_of_pop?_eq_none {a : Arena} (h : a.pop? = none) : a.frames = [] := by
  unfold Arena.pop? at h
  split at h
  · assumption
  · split at h <;> cases h

theorem frames_of_pop?_eq_some {a a' : Arena} {frame : Frame} (h : a.pop? = some (frame, a')) :
    a.frames = frame :: a'.frames := by
  unfold Arena.pop? at h
  split at h
  · cases h
  next frame' frames hframes =>
    rw [hframes]
    split at h <;> cases h <;> rfl

theorem frames_popFrames (n : Nat) (t : Execution σ) :
    ((popFrames n).exec t).2.machine.arena.frames = t.machine.arena.frames.drop n := by
  induction n generalizing t with
  | zero => rfl
  | succ n ih =>
    rw [popFrames, Action.exec_bind, exec_popFrame]
    cases h : t.machine.arena.pop? with
    | none =>
      have hnil := frames_of_pop?_eq_none h
      simp only
      rw [ih, hnil, List.drop_nil, List.drop_nil]
    | some y =>
      obtain ⟨frame, arena⟩ := y
      have hcons := frames_of_pop?_eq_some h
      simp only
      rw [ih, frames_popped, hcons, List.drop_succ_cons]

end

theorem quiet_popFrame : Via (Quiet .down) t (popFrame : Exec σ _) := by
  unfold Via
  rw [exec_popFrame]
  split
  · exact .refl _
  next frame arena h =>
    obtain ⟨hstore, hfiles⟩ := store_popped t.machine frame arena
    exact ⟨.single (.pop _ h), hstore, hfiles⟩

theorem quiet_returnToCaller : Via (Quiet .down) t (returnToCaller : Exec σ Flow) :=
  .returnToCaller fun _ => quiet_popFrame

theorem quiet_startLoop (pc : Pc) : Via (Quiet .up) t (startLoop pc : Exec σ Flow) := by
  refine .bind (.read _) fun name t => .bind (.read _) fun _ t => .bind (.eval _) fun start t => ?_
  refine .bind (.read _) fun _ t => .bind (.eval _) fun terminal t => .bind (.read _) fun _ t => ?_
  refine .either (.eval _) (.pure _) fun step t => .bind (.read _) fun _ t => .machine ?_
  refine .check fun hname => ?_
  refine .bind_of_exec (.modifyMachine ?_) fun _ t' hexec => ?_
  · exact ⟨.single (.set _ (array?_eq_none hname) start), rfl, rfl⟩
  obtain ⟨-, rfl⟩ := Prod.mk.inj hexec
  refine .machine (.bind (.onArena fun arena harena => ⟨.single ?_, rfl, rfl⟩) fun _ t => .pure _)
  exact .loop { t.machine with vars := t.machine.vars.set name start } (array?_eq_none hname) step
    terminal pc harena

theorem quiet_popFrames (n : Nat) : Via (Quiet .down) t (popFrames n : Exec σ Unit) :=
  .popFrames (fun _ => quiet_popFrame) n

theorem eq_of_isLoopOf {frames rest : List Frame} {name name' : Letter} {above : Nat}
    {step terminal : Int32} {resume : Pc} (habove : frames.findIdx? (isLoopOf name) = some above)
    (hdrop : frames.drop above = .loop name' step terminal resume :: rest) : name' = name := by
  obtain ⟨hlt, hloop, -⟩ := List.findIdx?_eq_some_iff_getElem.mp habove
  have hhead : frames[above] = .loop name' step terminal resume := by
    have := List.drop_eq_getElem_cons hlt
    rw [hdrop] at this
    exact (List.cons.inj this).1.symm
  rw [hhead] at hloop
  simpa [isLoopOf] using hloop

theorem quiet_nextLoop : Via (Quiet .down) t (nextLoop : Exec σ Flow) := by
  refine .bind (.read _) fun name t => .bind (.read _) fun _ t => .machine ?_
  split
  · exact .throw _
  next above habove =>
    refine .bind_of_exec (quiet_popFrames above) fun _ t' hexec => .machine ?_
    have hframes := frames_popFrames above t
    rw [hexec] at hframes
    split
    next name' step terminal resume frames h =>
      obtain rfl := eq_of_isLoopOf habove (hframes.symm.trans h)
      refine .machine (.bind (.modifyMachine ⟨.single (.advance _ h _), rfl, rfl⟩) fun _ t => ?_)
      exact .ite (fun _ => .pure _) fun _ => .bind (quiet_popFrames 1) fun _ t => .pure _
    next => exact .throw _

/-! ## Timers -/

theorem quiet_timer : Via (Quiet d) t (timer : Exec σ Flow) := by
  refine .bind (.eval _) fun id t => .bind (.read _) fun stops t => .ite (fun _ => ?_) fun _ => ?_
  · refine .bind (.read _) fun _ t => .check fun _ => .bind (quiet_tell _) fun _ t => .pure _
  · refine .check fun _ => .bind (.eval _) fun timeout t => .bind (.read _) fun repeats t => ?_
    refine .bind (.read _) fun _ t => .bind .evalLast fun line t => .check fun _ => ?_
    exact .bind (quiet_ask _) fun armed t => .check fun _ => .pure _

theorem quiet_delay (pc : Pc) : Via (Quiet d) t (delay pc : Exec σ Flow) := by
  refine .bind .evalLast fun timeout t => .check fun _ => .machine ?_
  split
  · split
    · exact .bind (quiet_ask _) fun _ t => .pure _
    · exact .pure _
  · exact .pure _

/-! ## Putting out -/

theorem quiet_list : Via (Quiet d) t (list : Exec σ Flow) := by
  refine .bind (.read _) fun _ t => .get (.either (.pure _) (.eval _) fun start t => ?_)
  exact .bind (.read _) fun _ t => .machine (.bind (quiet_tell _) fun _ t => .pure _)

theorem quiet_print : Via (Quiet d) t (print : Exec σ Flow) :=
  .get (.bind (via_printItems _ _) fun _ _ => .bind (quiet_tell _) fun _ _ => .pure _)

/-! ## Statements -/

theorem quiet_perform (pc : Pc) {s : Statement} (h : s.isQuiet = true) :
    Via (Quiet s.trend) t (perform pc s : Exec σ Flow) := by
  cases s with
  | list => exact quiet_list
  | mem =>
    refine .bind (.read _) fun _ t => .bind (.modifyMachine ?_) fun _ t => .pure _
    exact .host _ _
  | rem => exact .pure _
  | «let» => exact quiet_assign
  | «if» => exact via_branch pc
  | elif => exact via_leaveBlock pc
  | «else» => exact via_leaveBlock pc
  | «end» => exact .bind (.read _) fun _ t => .pure _
  | goto => exact via_goto
  | gosub => exact quiet_gosub pc
  | «return» => exact quiet_returnToCaller
  | «for» => exact quiet_startLoop pc
  | next => exact quiet_nextLoop
  | print => exact quiet_print
  | dim => exact quiet_dim
  | timer => exact quiet_timer
  | delay => exact quiet_delay pc
  | dload => exact quiet_dload
  | pin bank => exact quiet_setPin bank
  | reboot => exact .bind (.read _) fun _ t => .bind (quiet_tell _) fun _ t => .pure _
  | _ => cases h

theorem moves_perform (pc : Pc) (s : Statement) :
    Moves s.trend t (perform pc s : Exec σ Flow) := by
  cases hquiet : s.isQuiet with
  | true => exact (quiet_perform pc hquiet).path
  | false =>
    cases s with
    | new =>
      refine .bind (.read _) fun _ t => .bind (.modifyMachine ?_) fun _ t => .pure _
      exact .single (.clear _)
    | run =>
      refine .bind (.read _) fun _ t => .bind (.modifyMachine ?_) fun _ t => ?_
      · exact .single (.reset _)
      · exact .machine (.pure _)
    | autorun => exact moves_autorun
    | dsave => exact moves_dsave
    | «open» => exact moves_openFile
    | close => exact moves_close
    | read => exact moves_readFile
    | write => exact moves_writeFile
    | _ => cases hquiet

theorem moves_statement (pc : Pc) : ∃ d, Moves d t (statement pc : Exec σ Flow) := by
  cases h : (read Statement.decode : Exec σ Statement).exec t with
  | mk r t' =>
    cases r with
    | error e =>
      refine ⟨.up, .bind_of_exec (.read _) fun s t'' h' => ?_⟩
      rw [h] at h'
      cases h'
    | ok s =>
      refine ⟨s.trend, .bind_of_exec (.read _) fun s' t'' h' => ?_⟩
      rw [h] at h'
      cases h'
      exact .check fun _ => moves_perform pc s

end Exec

/-! ## Steps -/

namespace Machine

variable {σ : Type} [Host σ]

theorem path_fail {d : Trend} (m : Machine σ) (pc : Pc) (e : Error) : Path d m (m.fail pc e).2 :=
  .single (.host _ _)

theorem path_perform (m : Machine σ) (pc : Pc) (text : List UInt8) :
    ∃ d, Path d m (m.perform pc text).2 := by
  obtain ⟨d, hmoves⟩ := Exec.moves_statement (t := { machine := m, unread := text }) pc
  refine ⟨d, ?_⟩
  unfold Exec.Moves Exec.Via at hmoves
  unfold perform
  split
  next t h => simpa [h] using hmoves
  next t h => simpa [h] using hmoves
  next t h => simpa [h] using hmoves
  next e t h =>
    rw [h] at hmoves
    exact hmoves.trans (path_fail t.machine pc e)

theorem path_step (m : Machine σ) (pc : Pc) : ∃ d, Path d m (m.step pc).2 := by
  unfold step
  split
  · exact ⟨.up, .single (.host _ _)⟩
  · dsimp only
    split
    next host _ => exact ⟨.up, .head (.host m host) (path_fail _ pc _)⟩
    next host _ =>
      obtain ⟨d, hd⟩ := path_perform { m with host } pc (m.textAt pc)
      exact ⟨d, .head (.host m host) hd⟩

end Machine

end FlashBasic
