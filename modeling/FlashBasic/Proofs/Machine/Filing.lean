import FlashBasic.Proofs.Machine.Files

/-!
Statements on files. `Exec.fileCommand` reads the command out of a statement. A statement that
succeeds does what its command says, and one that fails leaves every record alone
(`Exec.carries_perform`); all other statements have nothing to do with files
(`Exec.spares_perform`).

READ ends with an error when all records have been delivered (`Exec.exec_readFile_of_end`), and
otherwise fills its variables with what was written (`Exec.exec_readFile_of_record`).
-/

namespace FlashBasic

set_option autoImplicit false

/-- The statement has to do with files. -/
def Statement.isFiling : Statement → Bool
  | .open | .close | .read | .write | .new | .run => true
  | _ => false

/-- The statement that a command comes from. -/
def FileCommand.statement : FileCommand → Statement
  | .open .. => .open
  | .close _ => .close
  | .read .. => .read
  | .write .. => .write
  | .new => .new
  | .run => .run

namespace Exec

open Machine (Alike Quiet Recorded SparesFiles)

variable {σ α : Type} [Host σ] {t t' : Execution σ} {c : Contents}

/-! ## Reading commands -/

def opening : Exec σ (Fin fileCount × Access × Letter) := do
  let h ← fileNumber
  let access ← read access
  let name ← read fileName
  read Cursor.expectEnd
  return (h, access, name)

def closing : Exec σ (Fin fileCount) := do
  let h ← handle
  read Cursor.expectEnd
  return h

/-- The command that a statement stands for. -/
def fileCommand : Statement → Exec σ FileCommand
  | .open => (fun (h, access, name) => .open h access name) <$> opening
  | .close => .close <$> closing
  | .read => do
    let h ← handle
    let names ← read letters
    read Cursor.expectEnd
    return .read h names
  | .write => do
    let h ← handle
    let values ← itemValues ((← get).unread.length + 1)
    return .write h values
  | .new => (fun _ => .new) <$> read Cursor.expectEnd
  | .run => (fun _ => .run) <$> read Cursor.expectEnd
  | _ => throw .general

/-- The statement succeeds and the machine obeys the command, or it fails and the store goes on
holding what it held. -/
def Carries (t : Execution σ) (c : Contents) (s : Statement) (a : Exec σ Flow) : Prop :=
  (∃ flow t' command, a.exec t = (.ok flow, t') ∧ (∀ status, flow ≠ .yield status) ∧
    ((fileCommand s).exec t).1 = .ok command ∧ t.machine.Obeys t'.machine command) ∨
  (∃ e t', a.exec t = (.error e, t') ∧ t.machine.Recorded c t'.machine)

/-! ## Statements that read and then change the machine -/

def changeAfter (a : Exec σ α) (f : α → Machine σ → Machine σ) : Exec σ α := do
  let x ← a
  modifyMachine (f x)
  return x

theorem carries_of_change {s : Statement} (h : t.machine.store.Holds c) {a : Exec σ α}
    (ha : Via Alike t a) (f : α → Machine σ → Machine σ) (command : α → FileCommand)
    (hcommand : fileCommand s = command <$> a)
    (hobeys : ∀ x m₁, t.machine.Alike m₁ → t.machine.Obeys (f x m₁) (command x))
    {g : Exec σ Flow} (hg : ∀ t, ∃ flow, g.exec t = (.ok flow, t) ∧ ∀ status, flow ≠ .yield status) :
    Carries t c s (changeAfter a f >>= fun _ => g) := by
  unfold Carries
  unfold Via at ha
  rw [hcommand, Action.exec_map, changeAfter, bind_assoc, Action.exec_bind]
  cases hexec : a.exec t with
  | mk r t₁ =>
    rw [hexec] at ha
    cases r with
    | error e => exact .inr ⟨e, t₁, rfl, ha.recorded (.of_holds (ha.store ▸ h))⟩
    | ok x =>
      obtain ⟨flow, hflow, hyield⟩ := hg { t₁ with machine := f x t₁.machine }
      exact .inl ⟨flow, _, command x, hflow, hyield, rfl, hobeys x t₁.machine ha⟩

theorem openFile_eq : (openFile : Exec σ Flow) =
    changeAfter opening (fun x m => m.opened x.1 x.2.1 x.2.2) >>= fun _ => pure .next := by
  unfold openFile changeAfter opening
  simp only [bind_assoc, pure_bind]
  refine bind_congr fun h => bind_congr fun access => bind_congr fun name => bind_congr fun _ => ?_
  cases access <;> rfl

theorem exec_openFile {h : Fin fileCount} {access : Access} {name : Letter}
    (hcommand : ((fileCommand .open).exec t).1 = .ok (.open h access name)) :
    ∃ t', openFile.exec t = (.ok .next, t') := by
  rw [fileCommand, Action.exec_map] at hcommand
  rw [openFile_eq, changeAfter, bind_assoc, Action.exec_bind]
  cases hexec : (opening : Exec σ _).exec t with
  | mk r t₁ =>
    rw [hexec] at hcommand
    cases r with
    | error e => cases hcommand
    | ok x => exact ⟨_, rfl⟩

theorem carries_open (h : t.machine.store.Holds c) : Carries t c .open openFile := by
  have hvia : Via Alike t (opening : Exec σ _) :=
    .bind via_fileNumber fun _ _ => .bind (.read _) fun _ _ => .bind (.read _) fun _ _ =>
      .bind (.read _) fun _ _ => .pure _
  rw [openFile_eq]
  refine carries_of_change h hvia _ (fun x => .open x.1 x.2.1 x.2.2) rfl (fun x m₁ hm₁ => ?_) fun t =>
    ⟨.next, rfl, by simp⟩
  exact ⟨m₁, hm₁, rfl⟩

theorem carries_close (h : t.machine.store.Holds c) : Carries t c .close close := by
  have heq : (close : Exec σ Flow) =
      changeAfter closing (fun h m => { m with files := m.files.set h none h.isLt }) >>=
        fun _ => pure .next := by
    unfold close changeAfter closing setFile
    simp only [bind_assoc, pure_bind]
  have hvia : Via Alike t (closing : Exec σ _) :=
    .bind via_handle fun _ _ => .bind (.read _) fun _ _ => .pure _
  rw [heq]
  refine carries_of_change h hvia _ .close rfl (fun x m₁ hm₁ => ?_) fun t =>
    ⟨.next, rfl, by simp⟩
  exact ⟨m₁, hm₁, rfl⟩

theorem carries_new (pc : Pc) (h : t.machine.store.Holds c) : Carries t c .new (perform pc .new) := by
  have heq : (perform pc .new : Exec σ Flow) =
      changeAfter (read Cursor.expectEnd) (fun _ m => { m with store := m.store.clear }.reset) >>=
        fun _ => pure (.jump .end) := by
    unfold perform changeAfter
    simp only [bind_assoc, pure_bind]
  rw [heq]
  refine carries_of_change h (.read _) _ (fun _ => .new) rfl (fun x m₁ hm₁ => ?_) fun t =>
    ⟨.jump .end, rfl, by simp⟩
  exact ⟨m₁, hm₁, rfl⟩

theorem carries_run (pc : Pc) (h : t.machine.store.Holds c) : Carries t c .run (perform pc .run) := by
  have heq : (perform pc .run : Exec σ Flow) =
      changeAfter (read Cursor.expectEnd) (fun _ m => m.reset) >>=
        fun _ => do return .jump (← machine).first := by
    unfold perform changeAfter
    simp only [bind_assoc, pure_bind]
  rw [heq]
  refine carries_of_change h (.read _) _ (fun _ => .run) rfl (fun x m₁ hm₁ => ?_) fun t =>
    ⟨.jump t.machine.first, rfl, by simp⟩
  exact ⟨m₁, hm₁, rfl⟩

/-! ## READ -/

omit [Host σ] in
theorem exec_fileBehind_eq_ok {h : Fin fileCount} {writing : Bool} {file : OpenFile} :
    (fileBehind h writing).exec t = (.ok file, t') ↔
      t' = t ∧ t.machine.files.get h = some file ∧ file.writing = writing := by
  unfold fileBehind
  have hget : t.machine.files[h] = t.machine.files.get h := rfl
  rw [Action.exec_bind, exec_machine]
  dsimp only
  rw [hget]
  cases hfile : t.machine.files.get h with
  | none => simp
  | some file' =>
    dsimp only
    split
    next hwriting =>
      simp only [Action.exec_pure, Prod.mk.injEq, Except.ok.injEq, Option.some.injEq]
      constructor
      · rintro ⟨rfl, rfl⟩
        exact ⟨rfl, rfl, hwriting⟩
      · rintro ⟨rfl, rfl, -⟩
        exact ⟨rfl, rfl⟩
    next hwriting =>
      simp only [Action.exec_throw, Prod.mk.injEq, reduceCtorEq, false_and, Option.some.injEq,
        false_iff, not_and]
      rintro - rfl
      exact hwriting

theorem exec_fileCommand_read_eq_ok {h : Fin fileCount} {names : List Letter} :
    (fileCommand .read).exec t = (.ok (.read h names), t') ↔
      ∃ t₁ t₂, handle.exec t = (.ok h, t₁) ∧ (read letters).exec t₁ = (.ok names, t₂) ∧
        (read Cursor.expectEnd).exec t₂ = (.ok (), t') := by
  constructor
  · intro hexec
    obtain ⟨h, t₁, hhandle, hlist⟩ := Action.exec_bind_eq_ok.mp hexec
    obtain ⟨names, t₂, hnames, hrest⟩ := Action.exec_bind_eq_ok.mp hlist
    obtain ⟨_, t₃, hend, hpure⟩ := Action.exec_bind_eq_ok.mp hrest
    cases hpure
    exact ⟨t₁, t₂, hhandle, hnames, hend⟩
  · rintro ⟨t₁, t₂, hhandle, hnames, hend⟩
    refine Action.exec_bind_eq_ok.mpr ⟨_, _, hhandle, Action.exec_bind_eq_ok.mpr ?_⟩
    exact ⟨_, _, hnames, Action.exec_bind_eq_ok.mpr ⟨_, _, hend, rfl⟩⟩

/-- What READ reads: a file and its next record, and the variables to fill. -/
def fetching : Exec σ (Fin fileCount × OpenFile × List UInt8 × List Letter) := do
  let h ← handle
  let file ← fileBehind h false
  match (← machine).store.record? (.file file.name file.record) with
  | none => throw .endOfFile
  | some data =>
    let names ← read letters
    read Cursor.expectEnd
    return (h, file, data, names)

theorem readFile_eq :
    (readFile : Exec σ Flow) = (do
      let (h, file, data, names) ← fetching
      loadAll names data
      setFile h (some { file with record := file.record + 1 })
      return .next) := by
  unfold readFile fetching
  simp only [bind_assoc]
  refine bind_congr fun h => bind_congr fun file => bind_congr fun m => ?_
  cases m.store.record? (.file file.name file.record) with
  | none => rfl
  | some data => simp only [bind_assoc, pure_bind]

theorem via_fetching : Via Alike t (fetching : Exec σ _) := by
  refine .bind via_handle fun h t => .bind (via_fileBehind h false) fun file t => .machine ?_
  split
  · exact .throw _
  · exact .bind (.read _) fun names t => .bind (.read _) fun _ t => .pure _

theorem exec_fetching_eq_ok {h : Fin fileCount} {file : OpenFile} {data : List UInt8}
    {names : List Letter} :
    fetching.exec t = (.ok (h, file, data, names), t') ↔
      (fileCommand .read).exec t = (.ok (.read h names), t') ∧ t.machine.files.get h = some file ∧
        file.writing = false ∧ t.machine.store.record? (.file file.name file.record) = some data := by
  constructor
  · intro hexec
    obtain ⟨h, t₁, hhandle, hlocate⟩ := Action.exec_bind_eq_ok.mp hexec
    obtain ⟨file, t₂, hbehind, hfetch⟩ := Action.exec_bind_eq_ok.mp hlocate
    obtain ⟨rfl, hfile, hreading⟩ := exec_fileBehind_eq_ok.mp hbehind
    have halike := (via_handle (R := Alike)).exec hhandle
    rw [Action.exec_bind, exec_machine] at hfetch
    dsimp only at hfetch
    cases hrecord : t₂.machine.store.record? (.file file.name file.record) with
    | none =>
      rw [hrecord] at hfetch
      cases hfetch
    | some data =>
      rw [hrecord] at hfetch
      obtain ⟨names, t₃, hnames, hrest⟩ := Action.exec_bind_eq_ok.mp hfetch
      obtain ⟨_, t₄, hend, hpure⟩ := Action.exec_bind_eq_ok.mp hrest
      cases hpure
      exact ⟨exec_fileCommand_read_eq_ok.mpr ⟨_, _, hhandle, hnames, hend⟩, halike.files ▸ hfile,
        hreading, halike.store ▸ hrecord⟩
  · rintro ⟨hexec, hfile, hreading, hrecord⟩
    obtain ⟨t₁, t₂, hhandle, hnames, hend⟩ := exec_fileCommand_read_eq_ok.mp hexec
    have halike := (via_handle (R := Alike)).exec hhandle
    rw [← halike.files] at hfile
    rw [← halike.store] at hrecord
    refine Action.exec_bind_eq_ok.mpr ⟨_, _, hhandle, Action.exec_bind_eq_ok.mpr ?_⟩
    refine ⟨_, _, exec_fileBehind_eq_ok.mpr ⟨rfl, hfile, hreading⟩, ?_⟩
    rw [Action.exec_bind, exec_machine]
    dsimp only
    rw [hrecord]
    refine Action.exec_bind_eq_ok.mpr ⟨_, _, hnames, Action.exec_bind_eq_ok.mpr ?_⟩
    exact ⟨_, _, hend, rfl⟩

/-- All records have been delivered. -/
theorem exec_readFile_of_end {h : Fin fileCount} {names : List Letter} {file : OpenFile}
    (hcommand : ((fileCommand .read).exec t).1 = .ok (.read h names))
    (hfile : t.machine.files.get h = some file) (hreading : file.writing = false)
    (hrecord : t.machine.store.record? (.file file.name file.record) = none) :
    ∃ t', t.machine.Alike t'.machine ∧ readFile.exec t = (.error .endOfFile, t') := by
  obtain ⟨t₁, -, hhandle, -⟩ := exec_fileCommand_read_eq_ok.mp (Prod.ext hcommand rfl)
  have halike := (via_handle (R := Alike)).exec hhandle
  rw [← halike.files] at hfile
  rw [← halike.store] at hrecord
  refine ⟨t₁, halike, ?_⟩
  rw [readFile, Action.exec_bind, hhandle]
  dsimp only
  rw [Action.exec_bind, exec_fileBehind_eq_ok.mpr ⟨rfl, hfile, hreading⟩]
  dsimp only
  rw [Action.exec_bind, exec_machine]
  dsimp only
  rw [hrecord]
  rfl

/-- The next record goes into the variables. -/
theorem exec_readFile_of_record {h : Fin fileCount} {names : List Letter} {file : OpenFile}
    {values : List Binding} (hordered : t.machine.arena.Ordered)
    (hcommand : ((fileCommand .read).exec t).1 = .ok (.read h names))
    (hfile : t.machine.files.get h = some file) (hreading : file.writing = false)
    (hrecord : t.machine.store.record? (.file file.name file.record) =
      some (values.flatMap Binding.bytes)) :
    ∃ t', readFile.exec t = (.ok .next, t') ∧
      (names.map (fun name => (t.machine.binding name).shape) = values.map Binding.shape →
        t'.machine.binding = assigned t.machine.binding names values) := by
  obtain ⟨t₁, hexec⟩ : ∃ t₁, (fileCommand .read).exec t = (.ok (.read h names), t₁) :=
    ⟨_, Prod.ext hcommand rfl⟩
  have hfetch := exec_fetching_eq_ok.mpr ⟨hexec, hfile, hreading, hrecord⟩
  obtain ⟨host, hm₁⟩ := via_fetching.exec hfetch
  obtain ⟨_, t₂, hload⟩ := sure_loadAll (t := t₁) names (values.flatMap Binding.bytes)
  refine ⟨{ t₂ with machine := t₂.machine.advanced h file }, ?_, fun hshapes => ?_⟩
  · rw [readFile_eq, Action.exec_bind, hfetch]
    exact Action.exec_bind_eq_ok.mpr ⟨_, _, hload, rfl⟩
  · have hbinding : t₁.machine.binding = t.machine.binding := by rw [hm₁]; rfl
    have hordered₁ : t₁.machine.arena.Ordered := by rw [hm₁]; exact hordered
    rw [← hbinding] at hshapes
    obtain ⟨m', hloaded, hassigned⟩ := exec_loadAll hordered₁ hshapes
    rw [hload] at hloaded
    obtain rfl := (Prod.mk.inj hloaded).2
    rw [← hbinding]
    exact hassigned

theorem carries_read (h : t.machine.store.Holds c) : Carries t c .read readFile := by
  unfold Carries
  rw [readFile_eq, Action.exec_bind]
  cases hexec : fetching.exec t with
  | mk r t₁ =>
    have halike := via_fetching.exec hexec
    cases r with
    | error e => exact .inr ⟨e, t₁, rfl, halike.recorded (.of_holds (halike.store ▸ h))⟩
    | ok x =>
      obtain ⟨number, file, data, names⟩ := x
      obtain ⟨hcommand, hfile, hreading, hrecord⟩ := exec_fetching_eq_ok.mp hexec
      obtain ⟨_, t₂, hload⟩ := sure_loadAll (t := t₁) names data
      have hquiet := (quiet_loadAll (d := .up) names data).exec hload
      refine .inl ⟨.next, { t₂ with machine := t₂.machine.advanced number file },
        .read number names, Action.exec_bind_eq_ok.mpr ⟨_, _, hload, rfl⟩, by simp, ?_, ?_⟩
      · rw [hcommand]
      · exact ⟨file, t₂.machine, hfile, hreading, by rw [hrecord]; rfl,
          hquiet.store.trans halike.store, hquiet.files.trans halike.files, rfl⟩

/-! ## WRITE -/

theorem fileCommand_of_writing {h : Fin fileCount} {file : OpenFile} {values : List Binding}
    (hwriting : (writing.exec t).1 = .ok (h, file, values)) :
    ((fileCommand .write).exec t).1 = .ok (.write h values) ∧ t.machine.files.get h = some file ∧
      file.writing = true := by
  obtain ⟨u, hexec⟩ : ∃ u, writing.exec t = (.ok (h, file, values), u) := ⟨_, Prod.ext hwriting rfl⟩
  obtain ⟨h, t₁, hhandle, hlocate⟩ := Action.exec_bind_eq_ok.mp hexec
  obtain ⟨file, t₂, hbehind, hitems⟩ := Action.exec_bind_eq_ok.mp hlocate
  obtain ⟨rfl, hfile, hopen⟩ := exec_fileBehind_eq_ok.mp hbehind
  obtain ⟨_, t₃, hget, hitems⟩ := Action.exec_bind_eq_ok.mp hitems
  cases hget
  obtain ⟨values, t₄, hvalues, hpure⟩ := Action.exec_bind_eq_ok.mp hitems
  cases hpure
  have halike := (via_handle (R := Alike)).exec hhandle
  have hcommand : (fileCommand .write).exec t = (.ok (.write h values), u) := by
    refine Action.exec_bind_eq_ok.mpr ⟨_, _, hhandle, Action.exec_bind_eq_ok.mpr ?_⟩
    exact ⟨_, _, rfl, Action.exec_bind_eq_ok.mpr ⟨_, _, hvalues, rfl⟩⟩
  exact ⟨by rw [hcommand], halike.files ▸ hfile, hopen⟩

theorem carries_write (h : t.machine.store.Holds c) : Carries t c .write writeFile := by
  unfold Carries
  rw [writeFile_eq, Action.exec_bind]
  obtain ⟨⟨number, file, values⟩, t₁, hexec, hwriting, hrecorded⟩ | ⟨e, t₁, hexec, hrecorded⟩ :=
    storeAfter_cases via_writing written h
  · obtain ⟨hcommand, hfile, hopen⟩ := fileCommand_of_writing hwriting
    rw [hexec]
    refine .inl ⟨.next, _, .write number values, rfl, by simp, hcommand, ?_⟩
    refine ⟨file, t₁.machine, hfile, hopen, fun key => ?_, hrecorded.files, rfl⟩
    rw [hrecorded.record?, h.record?]
    simp only [written, Function.update_apply, Name.record.injEq]
  · rw [hexec]
    exact .inr ⟨e, t₁, rfl, hrecorded⟩

/-- A list of letters is written as what the letters stand for. -/
theorem fileCommand_write_of_letters {h : Fin fileCount} {names : List Letter}
    (hread : ((fileCommand .read).exec t).1 = .ok (.read h names)) :
    ((fileCommand .write).exec t).1 = .ok (.write h (names.map t.machine.binding)) := by
  obtain ⟨t₁, t₂, hhandle, hnames, hend⟩ := exec_fileCommand_read_eq_ok.mp (Prod.ext hread rfl)
  have halike := (via_handle (R := Alike)).exec hhandle
  rw [exec_read] at hnames hend
  obtain ⟨hlist, rfl⟩ := Prod.mk.inj hnames
  have hletters : Cursor.LetterList t₁.unread names :=
    Cursor.letterList_of_letters (Prod.ext hlist rfl) (Prod.ext (Prod.mk.inj hend).1 rfl)
  obtain ⟨rest, hvalues⟩ := exec_itemValues hletters (Nat.le_succ_of_le hletters.length_le)
  have hcommand : (fileCommand .write).exec t =
      (.ok (.write h (names.map t.machine.binding)), { t₁ with unread := rest }) := by
    refine Action.exec_bind_eq_ok.mpr ⟨_, _, hhandle, Action.exec_bind_eq_ok.mpr ?_⟩
    refine ⟨_, _, rfl, Action.exec_bind_eq_ok.mpr ⟨_, _, hvalues, ?_⟩⟩
    rw [halike.binding]
    rfl
  rw [hcommand]

/-! ## All statements -/

theorem carries_perform (pc : Pc) {s : Statement} (hs : s.isFiling = true)
    (h : t.machine.store.Holds c) : Carries t c s (perform pc s) := by
  cases s with
  | «open» => exact carries_open h
  | close => exact carries_close h
  | read => exact carries_read h
  | write => exact carries_write h
  | new => exact carries_new pc h
  | run => exact carries_run pc h
  | _ => cases hs

theorem exec_fileCommand_of_not_isFiling {s : Statement} (hs : s.isFiling = false) :
    (fileCommand s).exec t = (.error .general, t) := by
  cases s with
  | «open» | close | read | write | new | run => cases hs
  | _ => rfl

theorem ensures_fileCommand (s : Statement) :
    Ensures t (fileCommand s) fun command _ => command.statement = s := by
  have hmap {α : Type} {f : α → FileCommand} {a : Exec σ α} (hf : ∀ x, (f x).statement = s) :
      Ensures t (f <$> a) fun command _ => command.statement = s := by
    rw [map_eq_pure_bind]
    exact .skip fun x _ => .pure (hf x)
  cases s with
  | «open» | close | new | run => exact hmap fun _ => rfl
  | read => exact .skip fun _ _ => .skip fun _ _ => .skip fun _ _ => .pure rfl
  | write => exact .skip fun _ _ => .get (.skip fun _ _ => .pure rfl)
  | _ => exact .throw _

/-- DSAVE and AUTORUN store records, but none of a file. -/
theorem ensures_recording {s : Statement} (hs : s = .dsave ∨ s = .autorun) :
    Ensures t (recording s) fun x _ => ∀ name r, x.1 ≠ .file name r := by
  obtain rfl | rfl := hs
  · have hsetting : Ensures t (setting : Exec σ _) fun x _ => ∀ name r, x.1 ≠ .file name r :=
      .skip fun n _ => .skip fun _ _ => .skip fun _ _ =>
        .check fun _ => .pure (RecordKey.setting_ne_file _)
    exact .bind hsetting fun x t hx => .machine (.pure hx)
  · exact .skip fun on t => .pure RecordKey.autorun_ne_file

theorem spares_recording {s : Statement} (hs : s = .dsave ∨ s = .autorun)
    (h : t.machine.store.Holds c) :
    Via SparesFiles t (storeAfter (recording s) id >>= fun _ => pure Flow.next) := by
  unfold Via
  rw [Action.exec_bind]
  obtain ⟨⟨key, data?⟩, t', hexec, hrecord, hrecorded⟩ | ⟨e, t', hexec, hrecorded⟩ :=
    storeAfter_cases (via_recording s) id h
  · rw [hexec]
    refine ⟨fun name r => ?_, hrecorded.files⟩
    have hne := ensures_recording hs _ _ (Prod.ext hrecord rfl) name r
    refine (hrecorded.record? _).trans ?_
    rw [Function.update_of_ne (by simpa using hne.symm), h.record?]
  · rw [hexec]
    exact ⟨fun name r => (hrecorded.record? _).trans (h.record? _).symm, hrecorded.files⟩

theorem spares_perform (pc : Pc) {s : Statement} (hs : s.isFiling = false)
    (h : t.machine.store.Holds c) : Via SparesFiles t (perform pc s) := by
  cases hquiet : s.isQuiet with
  | true =>
    have hvia := quiet_perform (t := t) pc hquiet
    exact ⟨fun name r => by rw [hvia.store], hvia.files⟩
  | false =>
    cases s with
    | dsave =>
      rw [perform, dsave_eq]
      exact spares_recording (.inl rfl) h
    | autorun =>
      rw [perform, autorun_eq]
      exact spares_recording (.inr rfl) h
    | «open» | close | read | write | new | run => cases hs
    | _ => cases hquiet

end Exec

end FlashBasic
