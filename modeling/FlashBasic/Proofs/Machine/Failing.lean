import FlashBasic.Proofs.Machine.Recording

/-!
Statements that end in an error. Apart from FOR and RETURN, a statement makes all its checks before
it changes anything, or takes back what it has done, so that nothing is left of one that fails
(`Machine.unchanged_of_failure`).

* `Exec.Stays` is said of the parts of a statement that only read. All they can change is the state
  of the random numbers of the host.
* `Exec.Safe` is said of what leaves the machine unchanged when it fails: reading, then something
  that cannot fail. What DIM and the writing of records do is looked at on its own.
-/

namespace FlashBasic

set_option autoImplicit false

/-! ## Expressions -/

namespace Expr

variable {α β : Type} {env : Letter → Binding}

/-- All that the action changes is the state of the random numbers. -/
def Reseeds (a : Action Recorder α) : Prop := ∀ r, ∃ seed, (a.exec r).2 = { r with seed }

namespace Reseeds

theorem pure (x : α) : Reseeds (pure x) := fun r => ⟨r.seed, rfl⟩

theorem throw (e : Error) : Reseeds (throw e : Action Recorder α) := fun r => ⟨r.seed, rfl⟩

theorem ofExcept (x : Except Error α) : Reseeds (.ofExcept x) := fun r => ⟨r.seed, rfl⟩

theorem update {f : Recorder → α × Recorder} (hf : ∀ r, (f r).2 = r) : Reseeds (.update f) :=
  fun r => ⟨r.seed, hf r⟩

theorem bind {a : Action Recorder α} {f : α → Action Recorder β} (ha : Reseeds a)
    (hf : ∀ x, Reseeds (f x)) : Reseeds (a >>= f) := by
  intro r
  obtain ⟨seed, hseed⟩ := ha r
  rw [Action.exec_bind]
  cases h : a.exec r with
  | mk result r' =>
    rw [h] at hseed
    dsimp only at hseed
    subst hseed
    cases result with
    | ok x => exact hf x _
    | error e => exact ⟨seed, rfl⟩

theorem ite {c : Prop} [Decidable c] {a b : Action Recorder α} (ha : Reseeds a) (hb : Reseeds b) :
    Reseeds (if c then a else b) := by
  split
  · exact ha
  · exact hb

theorem check {c : Prop} [Decidable c] {e : Error} {f : Unit → Action Recorder α}
    (hf : Reseeds (f ())) : Reseeds (if c then MonadExcept.throw e >>= f else f ()) :=
  .ite (.bind (.throw e) fun _ => hf) hf

end Reseeds

theorem reseeds_call (f : Builtin) (arg : Int32) : Reseeds (call f arg) := by
  cases f with
  | abs => exact .pure _
  | rnd => exact .check (.bind (fun r => ⟨_, rfl⟩) fun x => .pure _)
  | pin bank =>
    refine .check (.bind (.update fun r => rfl) fun level => ?_)
    cases level with
    | some level => exact .pure _
    | none => exact .throw _
  | btGet =>
    refine .check (.bind (.update fun r => rfl) fun value => ?_)
    cases value with
    | some value => exact .pure _
    | none => exact .throw _

theorem reseeds_apply (op : Op) (values : Stack Int32) : Reseeds (apply env op values) := by
  cases op with
  | binary o => exact .bind (.ofExcept _) fun x => .bind (.ofExcept _) fun y => .ofExcept _
  | negate => exact .bind (.ofExcept _) fun x => .ofExcept _
  | paren => exact .throw _
  | call f => exact .bind (.ofExcept _) fun x => .bind (reseeds_call f _) fun y => .ofExcept _
  | index name => exact .bind (.ofExcept _) fun x => .bind (.ofExcept _) fun y => .ofExcept _

theorem reseeds_reduceWhile (ready : Op → Bool) (ops : List Op) (values : Stack Int32) :
    Reseeds (reduceWhile env ready ops values) := by
  induction ops generalizing values with
  | nil => exact .pure _
  | cons op ops ih => exact .ite (.bind (reseeds_apply op values) fun values => ih values) (.pure _)

theorem reseeds_reduceToParen (p : Pending) : Reseeds (reduceToParen env p) :=
  .bind (reseeds_reduceWhile _ _ _) fun _ => .pure _

theorem reseeds_closeParen (p : Pending) (ops : List Op) : Reseeds (closeParen env p ops) := by
  unfold closeParen
  split
  · exact .bind (reseeds_apply _ _) fun _ => .pure _
  · exact .bind (reseeds_apply _ _) fun _ => .pure _
  · exact .pure _

theorem reseeds_punctuate (ends : Bool) {inside : Pending → List Op → Action Recorder Pending}
    (h : ∀ p ops, Reseeds (inside p ops)) (p : Pending) : Reseeds (punctuate env ends inside p) := by
  refine .bind (reseeds_reduceToParen p) fun p => ?_
  split
  · exact .bind (h _ _) fun _ => .pure _
  · exact .ite (.pure _) (.throw _)

theorem reseeds_absorbOperator (p : Pending) (o : Operator) : Reseeds (absorbOperator env p o) :=
  .check (.bind (reseeds_reduceWhile _ _ _) fun _ => .ofExcept _)

theorem reseeds_absorb (mode : Mode) (p : Pending) (x : Lexeme) : Reseeds (absorb env mode p x) := by
  cases x with
  | number v => exact .bind (.ofExcept _) fun _ => .pure _
  | name l =>
    unfold absorb
    dsimp only
    split
    · exact .bind (.ofExcept _) fun _ => .pure _
    · exact .bind (.ofExcept _) fun _ => .pure _
  | opening => exact .bind (.ofExcept _) fun _ => .pure _
  | closing => exact reseeds_punctuate _ reseeds_closeParen p
  | comma => exact reseeds_punctuate _ (fun p ops => .pure _) p
  | operator o =>
    refine .ite (.bind (.ofExcept _) fun _ => .pure _) ?_
    exact .bind (reseeds_absorbOperator p o) fun _ => .pure _
  | call f => exact .bind (.ofExcept _) fun _ => .pure _
  | millis => exact .bind (.update fun r => rfl) fun v => .bind (.ofExcept _) fun _ => .pure _
  | battery => exact .bind (.update fun r => rfl) fun v => .bind (.ofExcept _) fun _ => .pure _
  | length l =>
    unfold absorb
    dsimp only
    split
    · exact .bind (.ofExcept _) fun _ => .pure _
    · exact .throw _
  | malformed => exact .throw _

theorem reseeds_absorbAll (mode : Mode) (fuel : Nat) (p : Pending) (c : Cursor) :
    Reseeds (absorbAll env mode fuel p c) := by
  induction fuel generalizing p c with
  | zero => exact .pure _
  | succ fuel ih =>
    rw [absorbAll]
    split
    · exact .pure _
    · exact .bind (reseeds_absorb mode p _) fun _ => .ite (.pure _) (ih _ _)

theorem reseeds_finish (p : Pending) : Reseeds (finish env p) := by
  refine .bind (reseeds_reduceToParen p) fun p => ?_
  split
  · exact .pure _
  · exact .throw _

theorem reseeds_evaluate (mode : Mode) (c : Cursor) : Reseeds (evaluate env mode c) :=
  .bind (reseeds_absorbAll mode _ _ c) fun _ => .bind (reseeds_finish _) fun _ => .pure _

end Expr

/-! ## Machines -/

namespace Machine

/-- The machines differ at most in the state of the random numbers. -/
def Reseeded (m m' : Machine Recorder) : Prop := ∃ seed, m' = { m with host := { m.host with seed } }

theorem Reseeded.refl (m : Machine Recorder) : m.Reseeded m := ⟨m.host.seed, rfl⟩

theorem Reseeded.trans {m m' m'' : Machine Recorder} (h : m.Reseeded m') (h' : m'.Reseeded m'') :
    m.Reseeded m'' := by
  obtain ⟨seed, rfl⟩ := h
  obtain ⟨seed', rfl⟩ := h'
  exact ⟨seed', rfl⟩

/-- A program cannot tell the machines apart, and neither can the user or the hardware. -/
structure Unchanged (m m' : Machine Recorder) : Prop where
  vars : m'.vars = m.vars
  frames : m'.arena.frames = m.arena.frames
  arrays : ∀ b ∈ Arena.arrayBlocks m.arena.frames, m'.arena.bytes b = m.arena.bytes b
  free : m'.arena.free = m.arena.free
  files : m'.files = m.files
  lines : m'.store.lines = m.store.lines
  records : ∀ key, m'.store.record? key = m.store.record? key
  pins : m'.host.pins = m.host.pins
  timers : m'.host.timers = m.host.timers
  notified : m'.host.notified = m.host.notified
  output : m'.host.output = m.host.output

theorem Unchanged.trans {m m' m'' : Machine Recorder} (h : m.Unchanged m') (h' : m'.Unchanged m'') :
    m.Unchanged m'' where
  vars := h'.vars.trans h.vars
  frames := h'.frames.trans h.frames
  arrays b hb := (h'.arrays b (h.frames ▸ hb)).trans (h.arrays b hb)
  free := h'.free.trans h.free
  files := h'.files.trans h.files
  lines := h'.lines.trans h.lines
  records key := (h'.records key).trans (h.records key)
  pins := h'.pins.trans h.pins
  timers := h'.timers.trans h.timers
  notified := h'.notified.trans h.notified
  output := h'.output.trans h.output

theorem Reseeded.unchanged {m m' : Machine Recorder} (h : m.Reseeded m') : m.Unchanged m' := by
  obtain ⟨seed, rfl⟩ := h
  exact ⟨rfl, rfl, fun _ _ => rfl, rfl, rfl, rfl, fun _ => rfl, rfl, rfl, rfl, rfl⟩

theorem Reseeded.orderly {m m' : Machine Recorder} (h : m.Reseeded m') (hm : m.Orderly) :
    m'.Orderly := by
  obtain ⟨seed, rfl⟩ := h
  exact ⟨hm.ordered, hm.holds⟩

-- What is written to the free bytes of the arena goes unnoticed.
theorem Unchanged.scratch {m : Machine Recorder} (h : m.arena.Ordered) {store : Store}
    (hlines : store.lines = m.store.lines) (hrecords : ∀ key, store.record? key = m.store.record? key)
    (data : List UInt8) :
    m.Unchanged { m with store, arena := m.arena.write m.arena.heapTop data } := by
  refine ⟨rfl, rfl, fun b hb => ?_, rfl, rfl, hlines, hrecords, rfl, rfl, rfl, rfl⟩
  exact Arena.bytes_write_of_apart (.inl (h.occupied.within b (List.mem_append_left _ hb)).2)

end Machine

namespace Exec

variable {α β : Type} {t : Execution Recorder}

/-! ## Reading -/

instance : Steady Machine.Reseeded where
  refl := .refl
  trans := .trans
  evaluate m mode c := by
    obtain ⟨seed, hseed⟩ := @Expr.reseeds_evaluate m.binding mode c m.host
    exact ⟨seed, by rw [hseed]⟩

/-- Executing `a` changes the machine at most in the state of the random numbers. -/
abbrev Stays (t : Execution Recorder) (a : Exec Recorder α) : Prop := Via Machine.Reseeded t a

/-! ## What leaves nothing behind when it fails -/

def Safe (t : Execution Recorder) (a : Exec Recorder α) : Prop :=
  t.machine.Orderly → ∀ e t', a.exec t = (.error e, t') → t.machine.Unchanged t'.machine

namespace Safe

theorem of_stays {a : Exec Recorder α} (h : Stays t a) : Safe t a := by
  intro _ e t' hexec
  unfold Stays Via at h
  rw [hexec] at h
  exact h.unchanged

theorem of_sure {a : Exec Recorder α} (h : Sure t a) : Safe t a := by
  intro _ e t' hexec
  obtain ⟨x, u, hx⟩ := h
  rw [hexec] at hx
  cases hx

/-- Reading comes first. -/
theorem reading {a : Exec Recorder α} {f : α → Exec Recorder β} (ha : Stays t a)
    (hf : ∀ x t', Safe t' (f x)) : Safe t (a >>= f) := by
  intro hm e u hexec
  unfold Stays Via at ha
  rw [Action.exec_bind] at hexec
  cases h : a.exec t with
  | mk r t' =>
    rw [h] at ha hexec
    cases r with
    | ok x => exact ha.unchanged.trans (hf x t' (ha.orderly hm) e u hexec)
    | error e' =>
      cases hexec
      exact ha.unchanged

/-- What cannot fail comes last. -/
theorem ending {a : Exec Recorder α} {f : α → Exec Recorder β} (ha : Safe t a)
    (hf : ∀ x t', Sure t' (f x)) : Safe t (a >>= f) := by
  intro hm e u hexec
  rw [Action.exec_bind] at hexec
  cases h : a.exec t with
  | mk r t' =>
    rw [h] at hexec
    cases r with
    | ok x =>
      obtain ⟨y, v, hy⟩ := hf x t'
      dsimp only at hexec
      rw [hy] at hexec
      cases hexec
    | error e' =>
      cases hexec
      exact ha hm e _ h

theorem pure (x : α) : Safe t (pure x) := .of_stays (.pure x)

theorem throw (e : Error) : Safe t (throw e : Exec Recorder α) := .of_stays (.throw e)

theorem machine {f : Machine Recorder → Exec Recorder β} (hf : Safe t (f t.machine)) :
    Safe t (machine >>= f) :=
  hf

theorem get {f : Execution Recorder → Exec Recorder β} (hf : Safe t (f t)) : Safe t (get >>= f) :=
  hf

theorem ite {c : Prop} [Decidable c] {a b : Exec Recorder α} (ha : c → Safe t a)
    (hb : ¬ c → Safe t b) : Safe t (if c then a else b) := by
  by_cases h : c
  · rw [if_pos h]
    exact ha h
  · rw [if_neg h]
    exact hb h

theorem check {c : Prop} [Decidable c] {e : Error} {f : Unit → Exec Recorder α}
    (hf : ¬ c → Safe t (f ())) : Safe t (if c then MonadExcept.throw e >>= f else f ()) := by
  refine .ite (fun _ => ?_) hf
  intro _ e' t' hexec
  rw [Action.exec_bind] at hexec
  cases hexec
  exact (Machine.Reseeded.refl _).unchanged

theorem either {c : Prop} [Decidable c] {a b : Exec Recorder α} {f : α → Exec Recorder β}
    (ha : Stays t a) (hb : Stays t b) (hf : ∀ x t', Safe t' (f x)) :
    Safe t (if c then a >>= f else b >>= f) :=
  .ite (fun _ => .reading ha hf) fun _ => .reading hb hf

theorem onArena (f : Arena → Except Error Arena) : Safe t (onArena f) := by
  intro _ e t' hexec
  unfold Exec.onArena at hexec
  rw [Action.exec_bind, exec_machine] at hexec
  dsimp only at hexec
  rw [Action.exec_bind, Action.exec_ofExcept] at hexec
  cases h : f t.machine.arena with
  | ok arena =>
    rw [h] at hexec
    cases hexec
  | error e' =>
    rw [h] at hexec
    cases hexec
    exact (Machine.Reseeded.refl _).unchanged

end Safe

/-- The host is asked to do something, and refuses. -/
theorem safe_asking {f : Recorder → Bool × Recorder} (hf : ∀ r, (f r).1 = false → (f r).2 = r) (e : Error)
    (flow : Flow) : Safe t (do
      let done ← ask f
      if !done then throw e
      return flow) := by
  intro _ e' t' hexec
  rw [Action.exec_bind] at hexec
  cases hdone : (f t.machine.host).1 with
  | true =>
    simp only [ask, Action.exec_update, hdone] at hexec
    cases hexec
  | false =>
    simp only [ask, Action.exec_update, hdone, hf _ hdone] at hexec
    cases hexec
    exact (Machine.Reseeded.refl _).unchanged

/-! ## Statements that change data -/

theorem safe_setElement (name : Letter) (index value : Int32) : Safe t (setElement name index value) := by
  refine .machine ?_
  split
  · exact .throw _
  · refine .check fun _ => .of_sure ?_
    exact .bind (.modifyMachine _) fun _ t => sure_notify _

theorem safe_assign : Safe t assign := by
  refine .reading (.read _) fun name t => .reading (.read _) fun indexed t => ?_
  refine .either ?_ (.pure _) fun index t => ?_
  · rw [map_eq_pure_bind]
    exact .bind (.eval _) fun i t => .pure _
  refine .reading (.read _) fun _ t => .reading .evalLast fun value t => ?_
  cases index with
  | some index => exact .ending (safe_setElement name index value) fun _ t => .pure _
  | none =>
    refine .machine (.check fun _ => .of_sure ?_)
    exact .bind (.modifyMachine _) fun _ t => .pure _

-- The block that was allocated is given back, so that only its zeros remain, in free bytes.
theorem safe_dim : Safe t dim := by
  refine .reading (.read _) fun name t => .reading (.read _) fun _ t => ?_
  refine .reading (.eval _) fun size t => .reading (.read _) fun _ t => .check fun _ => .machine ?_
  intro hm e t' hexec
  rw [Action.exec_bind, Action.exec_ofExcept] at hexec
  cases halloc : t.machine.arena.alloc size.toInt.toNat with
  | error e' =>
    rw [halloc] at hexec
    cases hexec
    exact (Machine.Reseeded.refl _).unchanged
  | ok y =>
    rw [halloc] at hexec
    dsimp only at hexec
    split at hexec
    · cases hexec
    · rw [Action.exec_bind] at hexec
      cases hexec
      dsimp only
      rw [Arena.release_alloc halloc hm.ordered.trimmed]
      exact .scratch hm.ordered rfl (fun _ => rfl) _

theorem safe_setPin (bank : PinBank) : Safe t (setPin bank) := by
  refine .reading (.eval _) fun pin t => .reading (.read _) fun _ t => ?_
  refine .reading .evalLast fun value t => .check fun _ => safe_asking (fun r hrefused => ?_) _ _
  unfold Host.pinWrite at hrefused ⊢
  simp only [Recorder.instHost] at hrefused ⊢
  split at hrefused
  · cases hrefused
  next habsent => rw [if_neg habsent]

theorem safe_putRecord (key : RecordKey) (data : List UInt8) : Safe t (putRecord key data) := by
  unfold putRecord
  refine .check fun _ => .machine ?_
  intro hm e t' hexec
  obtain ⟨c, hc⟩ := hm.holds
  obtain ⟨_, -, hstoring⟩ | ⟨-, -, hstoring⟩ | ⟨-, m', hm', ⟨_, -, hstoring⟩ | ⟨-, hstoring⟩⟩ :=
    t.machine.storing_cases (Item.length (data.length + 4)) (·.putRecord? key data)
  all_goals rw [hstoring] at hexec
  · cases hexec
  · cases hexec
    exact (Machine.Reseeded.refl _).unchanged
  · cases hexec
  · -- The store was compacted in vain, with the free bytes of the arena as a work area.
    cases hexec
    have hcompact := hc.compact? (Machine.store_of_compact? hm').1
    obtain ⟨p, -, rfl⟩ := Option.map_eq_some_iff.mp hm'
    refine .scratch hm.ordered (hc.lines_eq hcompact.1) (fun key => ?_) _
    rw [hcompact.1.record?, hc.record?]

theorem safe_dsave : Safe t dsave := by
  refine .reading via_setting fun setting t => .machine ?_
  exact .ending (safe_putRecord _ _) fun _ t => .pure _

theorem safe_dload : Safe t dload := by
  refine .reading via_setting fun setting t => .machine ?_
  split
  · exact .throw _
  · exact .of_sure (.bind (sure_load _ _) fun _ t => .pure _)

theorem safe_autorun : Safe t autorun := by
  refine .reading .evalLast fun on t => .ite (fun _ => ?_) fun _ => ?_
  · exact .ending (safe_putRecord _ _) fun _ t => .pure _
  · exact .of_sure (.bind (.modifyMachine _) fun _ t => .pure _)

/-! ## Files -/

theorem safe_openFile : Safe t openFile := by
  refine .reading via_fileNumber fun h t => .reading (.read _) fun access t => ?_
  refine .reading (.read _) fun name t => .reading (.read _) fun _ t => .machine (.of_sure ?_)
  cases access with
  | read => exact .bind (sure_setFile h _) fun _ t => .pure _
  | write =>
    refine .bind (.modifyMachine _) fun _ t => ?_
    exact .bind (sure_setFile h _) fun _ t => .pure _
  | append => exact .bind (sure_setFile h _) fun _ t => .pure _

theorem safe_close : Safe t close := by
  refine .reading via_handle fun h t => .reading (.read _) fun _ t => .of_sure ?_
  exact .bind (sure_setFile h none) fun _ t => .pure _

theorem safe_readFile : Safe t readFile := by
  refine .reading via_handle fun h t => .reading (via_fileBehind h false) fun file t => ?_
  refine .machine ?_
  split
  · exact .throw _
  · refine .reading (.read _) fun names t => .reading (.read _) fun _ t => .of_sure ?_
    exact .bind (sure_loadAll names _) fun _ t => .bind (sure_setFile h _) fun _ t => .pure _

theorem safe_writeFile : Safe t writeFile := by
  refine .reading via_handle fun h t => .reading (via_fileBehind h true) fun file t => .get ?_
  refine .reading (via_writeItems _ []) fun data t => ?_
  exact .ending (safe_putRecord _ data) fun _ t => .bind (sure_setFile h _) fun _ t => .pure _

/-! ## Statements that direct the flow -/

theorem safe_gosub (pc : Pc) : Safe t (gosub pc) := by
  refine .reading .evalLast fun number t => .machine ?_
  exact .ending (.onArena _) fun _ t => .machine (.pure _)

-- The frame that was looked for is on top once those above it are gone.
theorem safe_nextLoop : Safe t nextLoop := by
  refine .reading (.read _) fun name t => .reading (.read _) fun _ t => .machine ?_
  split
  · exact .throw _
  next above habove =>
    refine .of_sure (.bind_of_exec (sure_popFrames above) fun _ t' hexec => .machine ?_)
    have hframes := frames_popFrames above t
    rw [hexec] at hframes
    obtain ⟨hlt, hloop, -⟩ := List.findIdx?_eq_some_iff_getElem.mp habove
    rw [List.drop_eq_getElem_cons hlt] at hframes
    split
    · refine .machine (.bind (.modifyMachine _) fun _ t => ?_)
      split
      · exact .pure _
      · exact .bind (sure_popFrames 1) fun _ t => .pure _
    next hne =>
      cases hframe : t.machine.arena.frames[above] with
      | loop name' step terminal resume => exact absurd (hframe ▸ hframes) (hne _ _ _ _ _)
      | _ => simp [hframe, isLoopOf] at hloop

theorem safe_timer : Safe t timer := by
  refine .reading (.eval _) fun id t => .reading (.read _) fun stops t => .ite (fun _ => ?_) fun _ => ?_
  · refine .reading (.read _) fun _ t => .check fun _ => .of_sure ?_
    exact .bind (.tell _) fun _ t => .pure _
  · refine .check fun hid => .reading (.eval _) fun timeout t => .reading (.read _) fun repeats t => ?_
    refine .reading (.read _) fun _ t => .reading .evalLast fun line t => .check fun _ => ?_
    refine safe_asking (fun r hrefused => ?_) _ _
    unfold Host.timerStart at hrefused ⊢
    simp only [Recorder.instHost] at hrefused ⊢
    split at hrefused
    · cases hrefused
    next hrange => rw [if_neg hrange]

theorem safe_delay (pc : Pc) : Safe t (delay pc) := by
  refine .reading .evalLast fun timeout t => .check fun _ => .machine (.of_sure ?_)
  split
  · split
    · exact .bind (.ask _) fun _ t => .pure _
    · exact .pure _
  · exact .pure _

/-! ## Statements that put something out -/

theorem safe_list : Safe t list := by
  refine .reading (.read _) fun _ t => .get (.either (.pure _) (.eval _) fun start t => ?_)
  refine .reading (.read _) fun _ t => .machine (.of_sure ?_)
  exact .bind (.tell _) fun _ t => .pure _

theorem safe_print : Safe t print := by
  refine .get (.reading (via_printItems _ _) fun text t => .of_sure ?_)
  exact .bind (.tell _) fun _ t => .pure _

/-! ## All statements -/

theorem safe_perform (pc : Pc) {s : Statement} (hfor : s ≠ .for) (hreturn : s ≠ .return) :
    Safe t (perform pc s) := by
  have hplain (f : Machine Recorder → Machine Recorder) (g : Unit → Exec Recorder Flow)
      (hg : ∀ t', Sure t' (g ())) :
      Safe t (read Cursor.expectEnd >>= fun _ => modifyMachine f >>= g) :=
    .reading (.read _) fun _ t => .of_sure (.bind (.modifyMachine f) fun _ t => hg t)
  cases s with
  | list => exact safe_list
  | new => exact hplain _ _ fun t => .pure _
  | run => exact hplain _ _ fun t => .machine (.pure _)
  | mem => exact hplain _ _ fun t => .pure _
  | rem => exact .pure _
  | «let» => exact safe_assign
  | «if» => exact .of_stays (via_branch pc)
  | elif => exact .of_stays (via_leaveBlock pc)
  | «else» => exact .of_stays (via_leaveBlock pc)
  | «end» => exact .reading (.read _) fun _ t => .pure _
  | goto => exact .of_stays via_goto
  | gosub => exact safe_gosub pc
  | «return» => exact absurd rfl hreturn
  | «for» => exact absurd rfl hfor
  | next => exact safe_nextLoop
  | print => exact safe_print
  | dim => exact safe_dim
  | timer => exact safe_timer
  | delay => exact safe_delay pc
  | autorun => exact safe_autorun
  | dsave => exact safe_dsave
  | dload => exact safe_dload
  | «open» => exact safe_openFile
  | close => exact safe_close
  | read => exact safe_readFile
  | write => exact safe_writeFile
  | pin bank => exact safe_setPin bank
  | reboot => exact hplain _ _ fun t => .pure _

theorem safe_statement (pc : Pc)
    (hkind : Statement.ofText? t.unread ≠ some .for ∧ Statement.ofText? t.unread ≠ some .return) :
    Safe t (statement pc) := by
  intro hm e t' hexec
  obtain ⟨m, text⟩ := t
  cases hdecode : Statement.decode.exec text with
  | mk r rest =>
    cases r with
    | error e' =>
      rw [statement, Action.exec_bind, exec_read] at hexec
      simp only [hdecode] at hexec
      cases hexec
      exact (Machine.Reseeded.refl _).unchanged
    | ok s =>
      rw [Machine.exec_statement_of_decode hdecode] at hexec
      simp only [Statement.ofText?, hdecode] at hkind
      split at hexec
      · cases hexec
        exact (Machine.Reseeded.refl _).unchanged
      · refine safe_perform (t := ⟨m, rest⟩) pc ?_ ?_ hm e t' hexec
        · rintro rfl
          exact hkind.1 rfl
        · rintro rfl
          exact hkind.2 rfl

end Exec

/-! ## Steps that end in an error -/

namespace Machine

variable {σ : Type} [Host σ]

/-- The error in which the execution of a statement ends, or with which the host breaks in, and the
machine as it is when that is reported. -/
def failure? (m : Machine σ) (pc : Pc) : Option (Error × Machine σ) :=
  if pc = .end then none
  else
    match Host.breakCheck m.host with
    | (true, host) => some (.break, { m with host })
    | (false, host) =>
      match (Exec.statement pc).exec { machine := { m with host }, unread := m.textAt pc } with
      | (.error e, t) => some (e, t.machine)
      | (.ok _, _) => none

theorem step_of_failure? {m m' : Machine σ} {pc : Pc} {e : Error}
    (h : m.failure? pc = some (e, m')) : m.step pc = halted (m'.fail pc e) := by
  unfold failure? at h
  split at h
  · cases h
  next hpc =>
    cases hcheck : Host.breakCheck m.host with
    | mk stop host =>
      rw [hcheck] at h
      cases stop with
      | true =>
        cases h
        rw [step_of_break hpc (by rw [hcheck]), hcheck]
      | false =>
        dsimp only at h
        split at h
        next e' t hexec =>
          cases h
          rw [step_eq_perform hpc (by rw [hcheck]), hcheck, perform_eq, hexec]
          rfl
        next => cases h

theorem unchanged_breakCheck (m : Machine Recorder) :
    m.Unchanged { m with host := (Host.breakCheck m.host).2 } := by
  have hcount : ∃ breakAfter, (Host.breakCheck m.host).2 = { m.host with breakAfter } := by
    unfold Host.breakCheck
    simp only [Recorder.instHost, Recorder.countDown]
    split
    · exact ⟨_, rfl⟩
    · split
      · exact ⟨_, rfl⟩
      · exact ⟨_, rfl⟩
  obtain ⟨breakAfter, hbreak⟩ := hcount
  rw [hbreak]
  exact ⟨rfl, rfl, fun _ _ => rfl, rfl, rfl, rfl, fun _ => rfl, rfl, rfl, rfl, rfl⟩

/-- Nothing is left of a statement that ends in an error, unless it is FOR or RETURN: the error is
reported by a machine that is as it was before the statement. -/
theorem unchanged_of_failure {config : Config} (hsize : Page.ageLength ≤ config.pageSize)
    {m₀ m m' : Machine Recorder} {status : Status} {pc : Pc} {e : Error} (h₀ : Reachable config m₀)
    (h : Course (.halt status, m₀) (.more pc, m))
    (hkind : Statement.ofText? (m.textAt pc) ≠ some .for ∧
      Statement.ofText? (m.textAt pc) ≠ some .return)
    (hfail : m.failure? pc = some (e, m')) :
    m.step pc = halted (m'.fail pc e) ∧ m.Unchanged m' := by
  refine ⟨step_of_failure? hfail, ?_⟩
  obtain ⟨hordered, hholds⟩ := orderly_of_course hsize h₀ h
  have hcheck := m.unchanged_breakCheck
  unfold failure? at hfail
  split at hfail
  · cases hfail
  · split at hfail
    next host hbreak =>
      cases hfail
      rwa [hbreak] at hcheck
    next host hbreak =>
      rw [hbreak] at hcheck
      split at hfail
      next e' u hexec =>
        have hsafe := Exec.safe_statement (t := { machine := { m with host }, unread := m.textAt pc })
          pc hkind ⟨hordered, hholds⟩ e' u hexec
        cases hfail
        exact hcheck.trans hsafe
      next => cases hfail

/-- A program runs out of memory when it has the bytes for its second array but not for the frame of
it. -/
theorem unchanged_of_failure_second_array :
    let config : Config := { pages := 1, pageSize := 128, arenaSize := 256 }
    let m₀ : Machine Recorder := .boot config (.blank config.flashSize) {}
    let s := session 3 (.halt .ready, m₀) ["10 DIM B(2)", "20 B(1)=7", "30 DIM A(130)", "RUN"]
    Page.ageLength ≤ config.pageSize ∧ Reachable config m₀ ∧
      Course (.halt .ready, m₀) (.more (.line 2), s.2) ∧
      (Statement.ofText? (s.2.textAt (.line 2)) ≠ some .for ∧
        Statement.ofText? (s.2.textAt (.line 2)) ≠ some .return) ∧
      ∃ m', s.2.failure? (.line 2) = some (.outOfMemory, m') ∧
        s.2.step (.line 2) = halted (m'.fail (.line 2) .outOfMemory) ∧ s.2.Unchanged m' := by
  intro config m₀ s
  have hcourse : Course (.halt .ready, m₀) s := course_session ..
  -- One evaluation of the session for all that is read off it.
  obtain ⟨hturn, hkind, hfail⟩ : s.1 = .more (.line 2) ∧
      (Statement.ofText? (s.2.textAt (.line 2)) ≠ some .for ∧
        Statement.ofText? (s.2.textAt (.line 2)) ≠ some .return) ∧
      (s.2.failure? (.line 2)).map (·.1) = some .outOfMemory := by
    decide +kernel
  have hsize : Page.ageLength ≤ config.pageSize := by decide
  have hreach : Reachable config m₀ := .boot _
  clear_value s
  have hmore : Course (.halt .ready, m₀) (.more (.line 2), s.2) := by
    rw [← hturn]
    exact hcourse
  obtain ⟨⟨e, m'⟩, hfailure, he⟩ := Option.map_eq_some_iff.mp hfail
  obtain rfl : e = .outOfMemory := he
  exact ⟨hsize, hreach, hmore, hkind, m', hfailure,
    unchanged_of_failure hsize hreach hmore hkind hfailure⟩

end Machine

end FlashBasic
