import FlashBasic.Proofs.Machine.Filing

/-!
Runs that use files. `Machine.FileRun` follows a machine from blank flash together with the files
that its statements lead to, as long as these stay within what can be kept (`Files.Within`). At
every moment of such a run the machine keeps its files (`Machine.FileRun.keeps`), so all that was
written to a file is read again in the same order: `Machine.files_of_run`.
-/

namespace FlashBasic

set_option autoImplicit false

namespace Machine

variable {σ : Type} [Host σ] {config : Config} {m m' : Machine σ} {pc : Pc} {fs : Files}
  {c : Contents}

/-! ## One statement -/

/-- The command of the statement at a place. -/
def command? (m : Machine σ) (pc : Pc) : Option FileCommand := m.reading? pc Exec.fileCommand

theorem command?_of_decode {s : Statement} {rest : Cursor}
    (h : Statement.decode.exec (m.textAt pc) = (.ok s, rest)) :
    m.command? pc = ((Exec.fileCommand s).exec
      { machine := { m with host := (Host.breakCheck m.host).2 }, unread := rest }).1.toOption := by
  rw [command?, reading?, h]

omit [Host σ] in
theorem Alike.sparesFiles (h : m.Alike m') : m.SparesFiles m' :=
  ⟨fun _ _ => by rw [h.store], h.files⟩

omit [Host σ] in
theorem SparesFiles.trans {m'' : Machine σ} (h : m.SparesFiles m') (h' : m'.SparesFiles m'') :
    m.SparesFiles m'' :=
  ⟨fun name r => (h'.records name r).trans (h.records name r), h'.files.trans h.files⟩

omit [Host σ] in
theorem Recorded.sparesFiles (h : m.Recorded c m') (hc : m.store.Holds c) : m.SparesFiles m' :=
  ⟨fun _ _ => (h.record? _).trans (hc.record? _).symm, h.files⟩

theorem Obeys.of_alike {m₁ : Machine σ} {command : FileCommand} (h : m.Alike m₁)
    (hobeys : m₁.Obeys m' command) : m.Obeys m' command := by
  cases command with
  | «open» | close | new | run =>
    obtain ⟨m₂, h₂, rfl⟩ := hobeys
    exact ⟨m₂, h.trans h₂, rfl⟩
  | read | write =>
    obtain ⟨host, rfl⟩ := h
    exact hobeys

theorem exists_outcome_eq_more (pc : Pc) {flow : Flow} (h : ∀ status, flow ≠ .yield status)
    (t : Execution σ) : ∃ pc', outcome pc (.ok flow, t) = (.more pc', t.machine) := by
  cases flow with
  | next => exact ⟨_, rfl⟩
  | jump target => exact ⟨_, rfl⟩
  | yield status => exact absurd rfl (h status)

/-- A statement on files is executed unless the host breaks in. -/
theorem step_of_command {command : FileCommand} (hcommand : m.command? pc = some command)
    (hbreak : (Host.breakCheck m.host).1 = false) :
    ∃ t : Execution σ, m.Alike t.machine ∧
      m.step pc = outcome pc ((Exec.perform pc command.statement).exec t) ∧
      ((Exec.fileCommand command.statement).exec t).1 = .ok command := by
  cases hdecode : Statement.decode.exec (m.textAt pc) with
  | mk r rest =>
    cases r with
    | error e =>
      rw [command?, reading?, hdecode] at hcommand
      cases hcommand
    | ok s =>
      rw [command?_of_decode hdecode] at hcommand
      have hexec := Error.eq_ok_of_toOption hcommand
      obtain rfl := Exec.ensures_fileCommand s _ _ (Prod.ext hexec rfl)
      refine ⟨⟨{ m with host := (Host.breakCheck m.host).2 }, rest⟩, ⟨_, rfl⟩, ?_, hexec⟩
      have hprogram : ¬ (pc = .direct ∧ command.statement.isProgramOnly) := by
        rintro ⟨-, honly⟩
        cases command <;> cases honly
      rw [step_eq_perform (ne_end_of_decode hdecode) hbreak, perform_eq,
        exec_statement_of_decode hdecode, if_neg hprogram]

/-- A statement that has to do with files does what its command says, or it fails and leaves every
record alone. -/
theorem step_of_isFiling {s : Statement} {rest : Cursor}
    (hdecode : Statement.decode.exec (m.textAt pc) = (.ok s, rest)) (hs : s.isFiling = true)
    (hc : m.store.Holds c) :
    (∃ pc' command, (m.step pc).1 = .more pc' ∧ m.command? pc = some command ∧
      m.Obeys (m.step pc).2 command) ∨
    (∃ status, (m.step pc).1 = .halt status ∧ m.Recorded c (m.step pc).2) := by
  have hcheck : m.Alike { m with host := (Host.breakCheck m.host).2 } := ⟨_, rfl⟩
  obtain ⟨e, hstep⟩ | hstep := step_of_decode hdecode
  · rw [hstep]
    exact .inr ⟨_, rfl, hcheck.recorded ((Recorded.of_holds hc).alike (alike_fail _ pc e))⟩
  rw [hstep, command?_of_decode hdecode]
  obtain ⟨flow, t', command, hexec, hflow, hcommand, hobeys⟩ | ⟨e, t', hexec, hrecorded⟩ :=
    Exec.carries_perform (t := ⟨{ m with host := (Host.breakCheck m.host).2 }, rest⟩) pc hs hc
  · obtain ⟨pc', hmore⟩ := exists_outcome_eq_more pc hflow t'
    rw [hexec, hmore, hcommand]
    exact .inl ⟨pc', command, rfl, rfl, .of_alike hcheck hobeys⟩
  · rw [hexec]
    exact .inr ⟨_, rfl, hcheck.recorded (hrecorded.alike (alike_fail _ pc e))⟩

/-- A step does what a command says, or it leaves the files alone. -/
theorem step_obeys_or_spares (m : Machine σ) (pc : Pc) (hc : m.store.Holds c) :
    (∃ pc' command, (m.step pc).1 = .more pc' ∧ m.command? pc = some command ∧
      m.Obeys (m.step pc).2 command) ∨
    (((∃ status, (m.step pc).1 = .halt status) ∨ m.command? pc = none) ∧
      m.SparesFiles (m.step pc).2) := by
  obtain ⟨status, m', hstep, halike⟩ | ⟨s, rest, hdecode, hstep⟩ := m.step_cases pc
  · rw [hstep]
    exact .inr ⟨.inl ⟨status, rfl⟩, halike.sparesFiles⟩
  cases hs : s.isFiling with
  | true =>
    obtain h | ⟨status, hhalt, hrecorded⟩ := step_of_isFiling hdecode hs hc
    · exact .inl h
    · exact .inr ⟨.inl ⟨status, hhalt⟩, hrecorded.sparesFiles hc⟩
  | false =>
    have hcheck : m.Alike { m with host := (Host.breakCheck m.host).2 } := ⟨_, rfl⟩
    have hspares := Exec.spares_perform
      (t := ⟨{ m with host := (Host.breakCheck m.host).2 }, rest⟩) pc hs hc
    refine .inr ⟨.inr ?_, ?_⟩
    · rw [command?_of_decode hdecode, Exec.exec_fileCommand_of_not_isFiling hs]
      rfl
    · rw [hstep]
      exact (hcheck.sparesFiles.trans hspares).trans (alike_outcome _ _).sparesFiles

end Machine

/-! ## Files along a run -/

namespace Files

variable {σ : Type} [Host σ] {m : Machine σ} {pc : Pc}

/-- What a step makes of the files. -/
def stepped (fs : Files) (m : Machine σ) (pc : Pc) : Files :=
  match (m.step pc).1, m.command? pc with
  | .more _, some command => fs.after command
  | _, _ => fs

theorem stepped_of_more {pc' : Pc} {command : FileCommand} (fs : Files)
    (hmore : (m.step pc).1 = .more pc') (hcommand : m.command? pc = some command) :
    fs.stepped m pc = fs.after command := by
  rw [stepped, hmore, hcommand]

/-- What a typed line makes of the files. A numbered line ends the use of all that are open. -/
def entered (fs : Files) (typed : String) : Files :=
  match Line.parse typed with
  | .ok line => if line.isDirect then fs else fs.closed
  | .error _ => fs

theorem Within.closed {fs : Files} (h : fs.Within) : fs.closed.Within :=
  ⟨h.few, by simp [Files.closed]⟩

theorem Within.entered {fs : Files} (h : fs.Within) (typed : String) : (fs.entered typed).Within := by
  unfold Files.entered
  split
  · split
    · exact h
    · exact h.closed
  · exact h

theorem Within.setHandle {fs : Files} (h : fs.Within) (number : Fin fileCount)
    {handle? : Option Handle} (hne : ∀ name, handle? ≠ some (.writing name)) :
    (fs.setHandle number handle?).Within := by
  have hother {other : Fin fileCount} {name : Letter}
      (hwriting : (fs.setHandle number handle?).handles other = some (.writing name)) :
      fs.handles other = some (.writing name) := by
    by_cases heq : other = number
    · subst heq
      exact absurd (by simpa [Files.setHandle] using hwriting) (hne name)
    · simpa [Files.setHandle, heq] using hwriting
  exact ⟨h.few, fun other other' name ho ho' => h.single _ _ name (hother ho) (hother ho')⟩

theorem within_empty : empty.Within := ⟨fun _ => Nat.zero_lt_succ _, by simp [empty]⟩

end Files

namespace Machine

variable {σ : Type} [Host σ] {config : Config} {m m' : Machine σ} {pc : Pc} {fs : Files}
  {c : Contents}

/-- The states of a machine that was started on blank flash, with the files that its statements lead
to. Power may fail at any time. -/
inductive FileRun (config : Config) : Moment σ → Files → Prop where
  | boot (host : σ) : FileRun config (started config (.blank config.flashSize) host) .empty
  | reboot {s : Moment σ} {fs : Files} (h : FileRun config s fs) (host : σ) :
      FileRun config (started config s.2.store.flash host) fs.closed
  | step {pc : Pc} {m : Machine σ} {fs : Files} (h : FileRun config (.more pc, m) fs)
      (hwithin : (fs.stepped m pc).Within) : FileRun config (m.step pc) (fs.stepped m pc)
  | enter {status : Status} {m : Machine σ} {fs : Files} (h : FileRun config (.halt status, m) fs)
      (typed : String) : FileRun config (m.entered typed) (fs.entered typed)
  | event {status : Status} {m : Machine σ} {fs : Files} (h : FileRun config (.halt status, m) fs)
      (line : UInt16) (canReturn : Bool) : FileRun config (m.raised line canReturn) fs
  | host {status : Status} {m : Machine σ} {fs : Files} (h : FileRun config (.halt status, m) fs)
      (host : σ) : FileRun config (.halt status, { m with host }) fs
  | setup {status : Status} {m : Machine σ} {fs : Files} (h : FileRun config (.halt status, m) fs) :
      FileRun config (.halt status, m.setup) fs
  | reset {status : Status} {m : Machine σ} {fs : Files} (h : FileRun config (.halt status, m) fs) :
      FileRun config (.halt status, m.reset) fs.closed
  | service {status : Status} {m m' : Machine σ} {fs : Files} {service : UInt16}
      (h : FileRun config (.halt status, m) fs) (hservice : m.registerService service = .ok m') :
      FileRun config (.halt status, m') fs
  | notifier {status : Status} {m m' : Machine σ} {fs : Files} {name : Letter} {notifier : UInt16}
      (h : FileRun config (.halt status, m) fs) (hnotifier : m.attachNotifier name notifier = .ok m') :
      FileRun config (.halt status, m') fs

theorem Invariant.fileRun {P : Machine σ → Prop} (h : Invariant config P) {s : Moment σ}
    (hrun : FileRun config s fs) : P s.2 := by
  induction hrun with
  | boot host => exact h.boot host
  | reboot _ host ih => exact h.reboot ih host
  | step _ _ ih => exact h.next ih (.step _ _)
  | enter _ typed ih => exact h.next ih (.enter _ _ typed)
  | event _ line canReturn ih => exact h.next ih (.event _ _ line canReturn)
  | host _ host ih => exact h.next ih (.host _ _ host)
  | setup _ ih => exact h.next ih (.setup _ _)
  | reset _ ih => exact h.next ih (.reset _ _)
  | service _ hservice ih => exact h.next ih (.service _ hservice)
  | notifier _ hnotifier ih => exact h.next ih (.notifier _ hnotifier)

theorem FileRun.within {s : Moment σ} (h : FileRun config s fs) : fs.Within := by
  induction h with
  | boot host => exact Files.within_empty
  | reboot _ host ih => exact ih.closed
  | step _ hwithin _ => exact hwithin
  | enter _ typed ih => exact ih.entered typed
  | reset _ ih => exact ih.closed
  | event _ _ _ ih => exact ih
  | host _ _ ih => exact ih
  | setup _ ih => exact ih
  | service _ _ ih => exact ih
  | notifier _ _ ih => exact ih

/-- The store has the records of `c` and some lines. -/
def HasRecords (c : Contents) (s : Store) : Prop :=
  ∃ c', s.Holds c' ∧ ∀ key, c' (.record key) = c (.record key)

/-- Lines and records do not get in each other's way. -/
theorem hasRecords_edit (hc : m.store.Holds c) {line : Line}
    (hnumber : 1 ≤ line.number ∧ line.number ≤ 0xFFFD) : HasRecords c (m.edit line).2.store := by
  have hstoring : HasRecords c (m.reset.storing (Item.length line.text.length)
      (·.putLine? line.number line.text)).2.store := by
    refine store_storing (m := m.reset) ⟨c, hc, fun _ => rfl⟩ ?_ ?_
    · rintro s s' ⟨c', hc', hsame⟩ hput
      refine ⟨_, hc'.putLine? hnumber hput, fun key => ?_⟩
      rw [Function.update_of_ne (by simp), hsame]
    · rintro s s' scratch ⟨c', hc', hsame⟩ hcompact
      exact ⟨c', (hc'.compact? hcompact).1, hsame⟩
  obtain ⟨e, heq⟩ | heq | ⟨m', hm', heq⟩ | ⟨m', hm', heq⟩ := m.edit_cases line
  · rw [heq]
    exact ⟨c, hc, fun _ => rfl⟩
  · rw [heq]
    refine ⟨_, hc.deleteLine line.number, fun key => ?_⟩
    rw [Function.update_of_ne (by simp)]
  · rw [heq]
    rwa [hm'] at hstoring
  · rw [heq]
    rwa [hm'] at hstoring

namespace Keeps

theorem stepped (h : m.Keeps fs) (hc : m.store.Holds c) (hfs : fs.Within)
    (hwithin : (fs.stepped m pc).Within) : (m.step pc).2.Keeps (fs.stepped m pc) := by
  unfold Files.stepped at hwithin ⊢
  obtain ⟨pc', command, hmore, hcommand, hobeys⟩ | ⟨⟨status, hhalt⟩ | hnone, hspares⟩ :=
    m.step_obeys_or_spares pc hc
  · rw [hmore, hcommand] at hwithin ⊢
    exact h.obey hc hfs hobeys hwithin
  · rw [hhalt]
    exact h.congr hspares
  · rw [hnone]
    cases (m.step pc).1 <;> exact h.congr hspares

theorem edit (h : m.Keeps fs) (hc : m.store.Holds c) {line : Line}
    (hnumber : 1 ≤ line.number ∧ line.number ≤ 0xFFFD) : (m.edit line).2.Keeps fs.closed := by
  obtain ⟨c', hc', hsame⟩ := hasRecords_edit hc hnumber
  refine h.closed (fun name r => ?_) ?_
  · rw [hc'.record?, hsame, hc.record?]
  · obtain ⟨host, store, data, heq | heq⟩ := m.eq_of_edit line
    · rw [heq]
      rfl
    · rw [heq]
      rfl

theorem entered (h : m.Keeps fs) (hc : m.store.Holds c) (typed : String) :
    (m.entered typed).2.Keeps (fs.entered typed) := by
  unfold Machine.entered Files.entered
  cases hparse : Line.parse typed with
  | error e => exact h.alike (alike_fail m .end e)
  | ok line =>
    dsimp only
    cases hdirect : line.isDirect with
    | false =>
      exact h.edit hc ⟨Line.one_le_of_not_isDirect hdirect, Line.number_le_of_parse hparse⟩
    | true =>
      simp only [Bool.not_true, Bool.false_eq_true, if_false, if_true]
      split
      · exact h
      · exact h.congr ⟨fun _ _ => rfl, rfl⟩

theorem raised (h : m.Keeps fs) (line : UInt16) (canReturn : Bool) :
    (m.raised line canReturn).2.Keeps fs := by
  unfold Machine.raised
  split
  · exact h
  · split
    · split
      · exact h.congr ⟨fun _ _ => rfl, rfl⟩
      · exact h.alike (alike_fail m .end _)
    · exact h

theorem setup (h : m.Keeps fs) : m.setup.Keeps fs := by
  have hhost {m : Machine σ} (hm : m.Keeps fs) (f : σ → σ) : (m.modifyHost f).Keeps fs :=
    hm.alike ⟨_, rfl⟩
  unfold Machine.setup
  dsimp only
  split
  · exact hhost (hhost (hhost h _) _) _
  · exact hhost (hhost h _) _

theorem reboot (h : m.Keeps fs) (hpage : m.store.pageSize = config.pageSize)
    (hc : m.store.Holds c) (host : σ) : (boot config m.store.flash host).Keeps fs.closed := by
  refine h.closed (fun name r => ?_) rfl
  rw [(holds_reboot hpage hc host).record?, hc.record?]

end Keeps

theorem FileRun.keeps (hsize : Page.ageLength ≤ config.pageSize) {s : Moment σ}
    (h : FileRun config s fs) : s.2.Keeps fs := by
  have hsound {s : Moment σ} {fs : Files} (hrun : FileRun config s fs) : Sound config s.2 :=
    (invariant_sound hsize).fileRun hrun
  induction h with
  | boot host =>
    have hc := Store.Holds.mount_blank (config.flashSize) hsize
    refine ⟨fun name r => ?_, fun number => ?_, by simp [Files.empty]⟩
    · refine (hc.record? _).trans ?_
      simp [Contents.empty, Files.empty, Files.record?]
    · exact Vector.getElem_replicate _
  | reboot hrun host ih =>
    obtain ⟨hpage, c, hc⟩ := hsound hrun
    exact ih.reboot hpage hc host
  | step hrun hwithin ih =>
    obtain ⟨-, c, hc⟩ := hsound hrun
    exact ih.stepped hc hrun.within hwithin
  | enter hrun typed ih =>
    obtain ⟨-, c, hc⟩ := hsound hrun
    exact ih.entered hc typed
  | event _ line canReturn ih => exact ih.raised line canReturn
  | host _ host ih => exact ih.alike ⟨host, rfl⟩
  | setup _ ih => exact ih.setup
  | reset _ ih => exact ih.closed (fun _ _ => rfl) rfl
  | service _ hservice ih =>
    obtain ⟨block, arena, -, rfl⟩ := eq_of_registerService hservice
    exact ih.congr ⟨fun _ _ => rfl, rfl⟩
  | notifier _ hnotifier ih =>
    obtain ⟨frames, -, rfl⟩ := eq_of_attachNotifier hnotifier
    exact ih.congr ⟨fun _ _ => rfl, rfl⟩

/-! ## Sessions -/

/-- Executes up to `n` statements, as long as the files stay within what can be kept. -/
def fileOnward : Nat → Moment σ × Files → Moment σ × Files
  | n + 1, ((.more pc, m), fs) =>
    if (fs.stepped m pc).Within then fileOnward n (m.step pc, fs.stepped m pc)
    else ((.more pc, m), fs)
  | _, s => s

/-- A line is typed, provided that the machine waits, and up to `n` statements are executed. -/
def fileTyping (n : Nat) (s : Moment σ × Files) (typed : String) : Moment σ × Files :=
  match s with
  | ((.halt _, m), fs) => fileOnward n (m.entered typed, fs.entered typed)
  | ((.more pc, m), fs) => ((.more pc, m), fs)

/-- Lines are typed one after the other. -/
def fileSession (n : Nat) (s : Moment σ × Files) (lines : List String) : Moment σ × Files :=
  lines.foldl (fileTyping n) s

namespace FileRun

theorem onward (n : Nat) {s : Moment σ × Files} (h : FileRun config s.1 s.2) :
    FileRun config (fileOnward n s).1 (fileOnward n s).2 := by
  induction n generalizing s with
  | zero => exact h
  | succ n ih =>
    obtain ⟨⟨turn, m⟩, fs⟩ := s
    cases turn with
    | halt status => exact h
    | more pc =>
      rw [fileOnward]
      split
      next hwithin => exact ih (h.step hwithin)
      next => exact h

theorem session {n : Nat} {s s' : Moment σ × Files} {lines : List String}
    (h : FileRun config s.1 s.2) (hs : fileSession n s lines = s') : FileRun config s'.1 s'.2 := by
  induction lines generalizing s with
  | nil => exact hs ▸ h
  | cons line lines ih =>
    refine ih (s := fileTyping n s line) ?_ hs
    obtain ⟨⟨turn, m⟩, fs⟩ := s
    cases turn with
    | halt status => exact (h.enter line).onward n (s := (_, _))
    | more pc => exact h

end FileRun

/-! ## Reading what was written -/

/-- What a run with the files `fs` may rely on when it executes the statement at a place. -/
structure Serves (config : Config) (pc : Pc) (m : Machine σ) (fs : Files) : Prop where
  /-- A file can be read from its start. -/
  opens : ∀ {h name}, m.command? pc = some (.open h .read name) →
    (Host.breakCheck m.host).1 = false →
    ∃ pc' m', m.step pc = (.more pc', m') ∧
      FileRun config (.more pc', m') (fs.setHandle h (some (.reading name 0)))
  /-- The next record is delivered, and what was written is restored. -/
  delivers : ∀ {h names name k values}, m.command? pc = some (.read h names) →
    (Host.breakCheck m.host).1 = false → fs.handles h = some (.reading name k) →
    (fs.records name)[k]? = some values →
    ∃ pc' m', m.step pc = (.more pc', m') ∧
      FileRun config (.more pc', m') (fs.setHandle h (some (.reading name (k + 1)))) ∧
      (names.map (fun name => (m.binding name).shape) = values.map Binding.shape →
        m'.binding = assigned m.binding names values)
  /-- After the last record comes the end of the file. -/
  ends : ∀ {h names name k}, m.command? pc = some (.read h names) →
    (Host.breakCheck m.host).1 = false → fs.handles h = some (.reading name k) →
    (fs.records name)[k]? = none →
    ∃ m', m.Alike m' ∧ m.step pc = halted (m'.fail pc .endOfFile)
  /-- A list of variables is written as what they stand for. -/
  collects : ∀ {h names}, Statement.ofText? (m.textAt pc) = some .write →
    m.reading? pc (fun _ => Exec.fileCommand .read) = some (.read h names) →
    m.command? pc = some (.write h (names.map m.binding))
  /-- Nothing changes but the file that the statement is about. -/
  isolates : ∀ {s}, Statement.ofText? (m.textAt pc) = some s →
    s = .open ∨ s = .close ∨ s = .read ∨ s = .write →
    (∀ name r, (m.command? pc).bind fs.subject? ≠ some name →
      (m.step pc).2.store.record? (.file name r) = m.store.record? (.file name r)) ∧
    (∀ n, (m.step pc).2.store.record? (.setting n) = m.store.record? (.setting n)) ∧
    (m.step pc).2.store.record? .autorun = m.store.record? .autorun

theorem FileRun.step_of_more {pc' : Pc} {command : FileCommand}
    (hrun : FileRun config (.more pc, m) fs) (hmore : m.step pc = (.more pc', m'))
    (hcommand : m.command? pc = some command) (hwithin : (fs.after command).Within) :
    FileRun config (.more pc', m') (fs.after command) := by
  have hafter := fs.stepped_of_more (congrArg Prod.fst hmore) hcommand
  have hnext := hrun.step (hafter ▸ hwithin)
  rwa [hmore, hafter] at hnext

theorem FileRun.opens (hrun : FileRun config (.more pc, m) fs) {h : Fin fileCount} {name : Letter}
    (hcommand : m.command? pc = some (.open h .read name))
    (hbreak : (Host.breakCheck m.host).1 = false) :
    ∃ pc' m', m.step pc = (.more pc', m') ∧
      FileRun config (.more pc', m') (fs.setHandle h (some (.reading name 0))) := by
  obtain ⟨t, -, hstep, hreads⟩ := step_of_command hcommand hbreak
  obtain ⟨t', hexec⟩ := Exec.exec_openFile hreads
  have hmore : m.step pc = (.more (t'.machine.next pc), t'.machine) := by
    rw [hstep, FileCommand.statement, Exec.perform, hexec]
    rfl
  exact ⟨_, _, hmore, hrun.step_of_more hmore hcommand (hrun.within.setHandle h (by simp))⟩

omit [Host σ] in
/-- The open file behind a handle that reads. -/
theorem Keeps.file_of_reading (h : m.Keeps fs) {number : Fin fileCount} {name : Letter} {k : Nat}
    (hhandle : fs.handles number = some (.reading name k)) :
    m.files.get number = some (fs.openFile (.reading name k)) ∧
      m.store.record? (.file name (.ofNat (k + 1))) =
        (fs.records name)[k]?.map (·.flatMap Binding.bytes) := by
  rw [h.files, hhandle, h.records, Files.record?_ofNat _ _ (h.delivered _ _ _ hhandle)]
  exact ⟨rfl, rfl⟩

theorem FileRun.delivers (hsize : Page.ageLength ≤ config.pageSize)
    (hrun : FileRun config (.more pc, m) fs) {h : Fin fileCount} {names : List Letter}
    {name : Letter} {k : Nat} {values : List Binding}
    (hcommand : m.command? pc = some (.read h names))
    (hbreak : (Host.breakCheck m.host).1 = false) (hhandle : fs.handles h = some (.reading name k))
    (hvalues : (fs.records name)[k]? = some values) :
    ∃ pc' m', m.step pc = (.more pc', m') ∧
      FileRun config (.more pc', m') (fs.setHandle h (some (.reading name (k + 1)))) ∧
      (names.map (fun name => (m.binding name).shape) = values.map Binding.shape →
        m'.binding = assigned m.binding names values) := by
  obtain ⟨t, halike, hstep, hreads⟩ := step_of_command hcommand hbreak
  have hordered : m.arena.Ordered := (invariant_ordered config).fileRun hrun
  obtain ⟨hfile, hrecord⟩ := (hrun.keeps hsize).file_of_reading hhandle
  rw [hvalues] at hrecord
  obtain ⟨t', hexec, hassigned⟩ := Exec.exec_readFile_of_record (t := t)
    (halike.arena ▸ hordered) hreads (halike.files ▸ hfile) rfl (halike.store ▸ hrecord)
  have hmore : m.step pc = (.more (t'.machine.next pc), t'.machine) := by
    rw [hstep, FileCommand.statement, Exec.perform, hexec]
    rfl
  have hafter : fs.after (.read h names) = fs.setHandle h (some (.reading name (k + 1))) := by
    rw [Files.after, hhandle]
    rfl
  have hnext := hrun.step_of_more hmore hcommand
    (by rw [hafter]; exact hrun.within.setHandle h (by simp))
  refine ⟨_, _, hmore, hafter ▸ hnext, fun hshapes => ?_⟩
  rw [halike.binding] at hassigned
  exact hassigned hshapes

theorem FileRun.ends (hsize : Page.ageLength ≤ config.pageSize)
    (hrun : FileRun config (.more pc, m) fs) {h : Fin fileCount} {names : List Letter}
    {name : Letter} {k : Nat} (hcommand : m.command? pc = some (.read h names))
    (hbreak : (Host.breakCheck m.host).1 = false) (hhandle : fs.handles h = some (.reading name k))
    (hend : (fs.records name)[k]? = none) :
    ∃ m', m.Alike m' ∧ m.step pc = halted (m'.fail pc .endOfFile) := by
  obtain ⟨t, halike, hstep, hreads⟩ := step_of_command hcommand hbreak
  obtain ⟨hfile, hrecord⟩ := (hrun.keeps hsize).file_of_reading hhandle
  rw [hend] at hrecord
  obtain ⟨t', halike', hexec⟩ := Exec.exec_readFile_of_end (t := t) hreads (halike.files ▸ hfile) rfl
    (halike.store ▸ hrecord)
  refine ⟨t'.machine, halike.trans halike', ?_⟩
  rw [hstep, FileCommand.statement, Exec.perform, hexec]
  rfl

theorem command?_of_letters {h : Fin fileCount} {names : List Letter}
    (hs : Statement.ofText? (m.textAt pc) = some .write)
    (hreads : m.reading? pc (fun _ => Exec.fileCommand .read) = some (.read h names)) :
    m.command? pc = some (.write h (names.map m.binding)) := by
  obtain ⟨rest, hdecode⟩ := Statement.exists_decode hs
  rw [reading?, hdecode] at hreads
  have hletters := Exec.fileCommand_write_of_letters (Error.eq_ok_of_toOption hreads)
  rw [command?_of_decode hdecode, hletters]
  rfl

theorem FileRun.isolates (hsize : Page.ageLength ≤ config.pageSize)
    (hrun : FileRun config (.more pc, m) fs) {s : Statement}
    (hs : Statement.ofText? (m.textAt pc) = some s)
    (hkind : s = .open ∨ s = .close ∨ s = .read ∨ s = .write) {key : RecordKey}
    (hkey : ∀ name r, (m.command? pc).bind fs.subject? = some name → key ≠ .file name r) :
    (m.step pc).2.store.record? key = m.store.record? key := by
  obtain ⟨-, c, hc⟩ := (invariant_sound hsize).fileRun hrun
  obtain ⟨rest, hdecode⟩ := Statement.exists_decode hs
  have hfiling : s.isFiling = true ∧ s ≠ .new := by
    obtain rfl | rfl | rfl | rfl := hkind <;> exact ⟨rfl, by simp⟩
  obtain ⟨pc', command, -, hcommand, hobeys⟩ | ⟨status, -, hrecorded⟩ :=
    step_of_isFiling hdecode hfiling.1 hc
  · have hnew : command ≠ .new := by
      rintro rfl
      rw [command?_of_decode hdecode] at hcommand
      exact hfiling.2 (Exec.ensures_fileCommand s _ _
        (Prod.ext (Error.eq_ok_of_toOption hcommand) rfl)).symm
    rw [hcommand] at hkey
    exact (hrun.keeps hsize).record?_of_obeys hc hrun.within hobeys hnew hkey
  · rw [hrecorded.record?, hc.record?]

/-- All along a run, the records of each file are those that were written to it since it was last
emptied, numbered from 1. They can be read again from the first to the last, and no statement on
another file changes them. -/
theorem files_of_run (hsize : Page.ageLength ≤ config.pageSize) {s : Moment σ}
    (h : FileRun config s fs) :
    (∀ name r, s.2.store.record? (.file name r) = fs.record? name r) ∧
      ∀ pc, s.1 = .more pc → Serves config pc s.2 fs := by
  refine ⟨(h.keeps hsize).records, fun pc hpc => ?_⟩
  obtain ⟨turn, m⟩ := s
  obtain rfl : turn = .more pc := hpc
  exact {
    opens := h.opens
    delivers := h.delivers hsize
    ends := h.ends hsize
    collects := command?_of_letters
    isolates := fun hs hkind => by
      refine ⟨fun name r hname => ?_, fun n => ?_, ?_⟩
      · refine h.isolates hsize hs hkind fun name' r' hsubject heq => hname ?_
        rw [hsubject, (RecordKey.file_inj.mp heq).1]
      · exact h.isolates hsize hs hkind fun name r _ => RecordKey.setting_ne_file n name r
      · exact h.isolates hsize hs hkind fun name r _ => RecordKey.autorun_ne_file name r }

/-- Two records are written, power fails, and the first is read again. -/
theorem files_of_run_after_reboot :
    let config : Config := { pages := 1, pageSize := 36, arenaSize := 128 }
    let blank : Moment Recorder := started config (.blank config.flashSize) {}
    let written := fileSession 2 (blank, .empty)
      ["DIM B(3)", "B(1)=7", "OPEN 0,WRITE \"F\"", "WRITE #0,0-2,B", "WRITE #0,5"]
    let rebooted : Moment Recorder := started config written.1.2.store.flash {}
    let opened := fileSession 2 (rebooted, written.2.closed)
      ["DIM D(3)", "OPEN 1,READ \"F\""]
    let s := fileSession 0 opened ["READ #1,C,D"]
    let number : Fin fileCount := ⟨1, by decide⟩
    Page.ageLength ≤ config.pageSize ∧ FileRun config s.1 s.2 ∧
      s.2.records ⟨5⟩ = [[.scalar (-2), .array [0, 7, 0]], [.scalar 5]] ∧
      (∀ name r, s.1.2.store.record? (.file name r) = s.2.record? name r) ∧
      ∃ pc' m', s.1.2.step .direct = (.more pc', m') ∧
        FileRun config (.more pc', m') (s.2.setHandle number (some (.reading ⟨5⟩ 1))) ∧
        m'.binding = assigned s.1.2.binding [⟨2⟩, ⟨3⟩] [.scalar (-2), .array [0, 7, 0]] := by
  intro config blank written rebooted opened s number
  have hwritten : FileRun config written.1 written.2 := .session (.boot _) rfl
  have hopened : FileRun config opened.1 opened.2 := .session (hwritten.reboot _) rfl
  have hrun : FileRun config s.1 s.2 := .session hopened rfl
  -- One evaluation of the session for all that is read off it.
  obtain ⟨hturn, hcommand, hrecords, hhandle, hbreak, hshapes⟩ : s.1.1 = .more .direct ∧
      s.1.2.command? .direct = some (.read number [⟨2⟩, ⟨3⟩]) ∧
      s.2.records ⟨5⟩ = [[.scalar (-2), .array [0, 7, 0]], [.scalar 5]] ∧
      s.2.handles number = some (.reading ⟨5⟩ 0) ∧ (Host.breakCheck s.1.2.host).1 = false ∧
      [⟨2⟩, ⟨3⟩].map (fun name => (s.1.2.binding name).shape) =
        [Binding.scalar (-2), .array [0, 7, 0]].map Binding.shape := by
    decide +kernel
  have hsize : Page.ageLength ≤ config.pageSize := by decide
  obtain ⟨hkept, hserves⟩ := files_of_run hsize hrun
  obtain ⟨pc', m', hstep, hnext, hassigned⟩ := (hserves .direct hturn).delivers hcommand hbreak hhandle
    (by rw [hrecords]; rfl)
  exact ⟨hsize, hrun, hrecords, hkept, pc', m', hstep, hnext, hassigned hshapes⟩

end Machine

end FlashBasic
