import FlashBasic.Host.Recorder
import FlashBasic.Proofs.Machine.Partition
import FlashBasic.Proofs.Machine.Reachable

/-!
Statements that store a record: DSAVE, WRITE and AUTORUN. Each reads its text, and then makes one
request to the store, for which the store may have to be compacted with the free bytes of the arena
as a work area. `Machine.recording?` is what the statement at a place reads: a key, and the data to
store under it.

Whether the request is granted or not, nothing that belongs to the program changes: variables,
stack, arrays, services and lines stay the same, and so does every record with another key
(`Machine.undisturbed_of_recording`).
-/

namespace FlashBasic

set_option autoImplicit false

/-- The bytes that a value takes in a record. -/
def Binding.bytes : Binding → List UInt8
  | .scalar value => LittleEndian.ofInt32 value
  | .array bytes => bytes

namespace Exec

variable {σ α β : Type} [Host σ] {t : Execution σ}

/-! ## The values of WRITE -/

/-- The value of one item of WRITE. -/
def itemValue : Exec σ Binding := do
  read (modify Cursor.skipBlanks)
  let c := (← get).unread
  let m ← machine
  match aloneArray? m c with
  | some a =>
    turnTo c.advance
    let _ ← read (Cursor.accept (Ascii.code ','))
    return .array (m.arena.bytes a.block)
  | none => return .scalar (← eval .comma)

/-- The values of the items of WRITE. -/
def itemValues : (fuel : Nat) → Exec σ (List Binding)
  | 0 => throw .general
  | fuel + 1 => do
    let value ← itemValue
    read (modify Cursor.skipBlanks)
    if (← get).unread.atEnd then return [value] else return value :: (← itemValues fuel)

theorem writeItem_eq : (writeItem : Exec σ _) = Binding.bytes <$> itemValue := by
  unfold writeItem itemValue
  simp only [map_bind]
  refine bind_congr fun _ => bind_congr fun t => bind_congr fun m => ?_
  cases aloneArray? m t.unread with
  | some a =>
    simp only [map_bind, map_pure]
    rfl
  | none =>
    simp only [map_bind, map_pure]
    rfl

theorem writeItems_eq (fuel : Nat) (data : List UInt8) :
    (writeItems fuel data : Exec σ _) =
      (fun values => data ++ values.flatMap Binding.bytes) <$> itemValues fuel := by
  induction fuel generalizing data with
  | zero => rfl
  | succ fuel ih =>
    rw [writeItems, itemValues, writeItem_eq]
    simp only [map_bind, bind_map_left]
    refine bind_congr fun value => bind_congr fun _ => bind_congr fun t => ?_
    split
    · simp
    · rw [ih]
      simp

/-- What WRITE reads: a handle, the file behind it, and the values to write. -/
def writing : Exec σ (Fin fileCount × OpenFile × List Binding) := do
  let h ← handle
  let file ← fileBehind h true
  let values ← itemValues ((← get).unread.length + 1)
  return (h, file, values)

/-! ## The record that is stored -/

/-- The record that WRITE makes of what it reads. -/
def written : Fin fileCount × OpenFile × List Binding → RecordKey × Option (List UInt8)
  | (_, file, values) => (.file file.name file.record, some (values.flatMap Binding.bytes))

/-- What a statement reads that stores a record: the key and the data, or none to delete it. -/
def recording : Statement → Exec σ (RecordKey × Option (List UInt8))
  | .dsave => do
    let (key, name) ← setting
    return (key, some (contents (← machine) name))
  | .write => written <$> writing
  | .autorun => do
    let on ← evalLast
    return (.autorun, if on ≠ 0 then some [] else none)
  | _ => throw .general

/-- Stores a record, or deletes it. -/
def keep (key : RecordKey) : Option (List UInt8) → Exec σ Unit
  | some data => putRecord key data
  | none => modifyMachine fun m => { m with store := (m.store.deleteRecord? key).getD m.store }

/-- Reads, and then stores the record made of what was read. -/
def storeAfter (a : Exec σ α) (record : α → RecordKey × Option (List UInt8)) : Exec σ α := do
  let x ← a
  keep (record x).1 (record x).2
  return x

theorem dsave_eq :
    (dsave : Exec σ Flow) = storeAfter (recording .dsave) id >>= fun _ => pure .next := by
  unfold dsave storeAfter recording keep
  simp only [bind_assoc, pure_bind, id_eq]

theorem autorun_eq :
    (autorun : Exec σ Flow) = storeAfter (recording .autorun) id >>= fun _ => pure .next := by
  unfold autorun storeAfter recording
  simp only [bind_assoc, pure_bind, id_eq]
  refine bind_congr fun on => ?_
  split
  · rfl
  · rfl

theorem writeFile_eq :
    (writeFile : Exec σ Flow) = (do
      let (h, file, _) ← storeAfter writing written
      setFile h (some { file with record := file.record + 1 })
      return .next) := by
  unfold writeFile storeAfter writing
  simp only [writeItems_eq, bind_assoc, bind_map_left, pure_bind, List.nil_append]
  rfl

/-! ## What storing changes -/

variable {R : Machine σ → Machine σ → Prop} [Steady R]

theorem via_itemValues (fuel : Nat) : Via R t (itemValues fuel : Exec σ _) := by
  have hitems := via_writeItems (R := R) (t := t) fuel []
  rw [writeItems_eq] at hitems
  exact hitems.of_map

theorem via_writing : Via R t (writing : Exec σ _) := by
  refine .bind via_handle fun h t => .bind (via_fileBehind h true) fun file t => .get ?_
  exact .bind (via_itemValues _) fun values t => .pure _

theorem via_recording (s : Statement) : Via R t (recording s : Exec σ _) := by
  cases s with
  | dsave => exact .bind via_setting fun setting t => .machine (.pure _)
  | write => exact .map _ via_writing
  | autorun => exact .bind .evalLast fun on t => .pure _
  | _ => exact .throw _

end Exec

namespace Machine

variable {σ : Type} {m m' m'' : Machine σ}

/-- The store has been asked for something, after which it holds `c`. It may have been compacted on
the way, with the free bytes of the arena as work area. -/
def Recorded (c : Contents) (m m' : Machine σ) : Prop :=
  ∃ host store scratch,
    m' = { m with host, store, arena := m.arena.writeScratch scratch } ∧ store.Holds c

theorem Recorded.of_holds {c : Contents} (h : m.store.Holds c) : m.Recorded c m :=
  ⟨m.host, m.store, [], rfl, h⟩

theorem Alike.recorded {c : Contents} (h : m.Alike m') (h' : m'.Recorded c m'') :
    m.Recorded c m'' := by
  obtain ⟨host, rfl⟩ := h
  exact h'

theorem Recorded.alike {c : Contents} (h : m.Recorded c m') (h' : m'.Alike m'') :
    m.Recorded c m'' := by
  obtain ⟨host, store, scratch, rfl, hc⟩ := h
  obtain ⟨host', rfl⟩ := h'
  exact ⟨host', store, scratch, rfl, hc⟩

end Machine

namespace Exec

open Machine (Alike Recorded)

variable {σ α β : Type} [Host σ] {t : Execution σ} {c : Contents}

omit [Host σ] in
theorem putRecord_cases (h : t.machine.store.Holds c) (key : RecordKey) (data : List UInt8) :
    (∃ t', (putRecord key data).exec t = (.ok (), t') ∧
      t.machine.Recorded (Function.update c (.record key) (some data)) t'.machine) ∨
    (∃ e t', (putRecord key data).exec t = (.error e, t') ∧ t.machine.Recorded c t'.machine) := by
  unfold putRecord
  dsimp only
  by_cases hlong : Item.maxLength < Item.length (data.length + 4)
  · rw [if_pos hlong]
    exact .inr ⟨_, t, rfl, .of_holds h⟩
  rw [if_neg hlong, Action.exec_bind, exec_machine]
  dsimp only
  obtain ⟨store, hput, hstoring⟩ | ⟨-, -, hstoring⟩ | ⟨-, m', hm', hagain⟩ :=
    t.machine.storing_cases (Item.length (data.length + 4)) (·.putRecord? key data)
  · rw [hstoring]
    exact .inl ⟨_, rfl, t.machine.host, store, [], rfl, h.putRecord? hput⟩
  · rw [hstoring]
    exact .inr ⟨_, _, rfl, .of_holds h⟩
  · have hcompact := (h.compact? (Machine.store_of_compact? hm').1).1
    obtain ⟨p, -, rfl⟩ := Option.map_eq_some_iff.mp hm'
    obtain ⟨store, hput, hstoring⟩ | ⟨-, hstoring⟩ := hagain
    · rw [hstoring]
      exact .inl ⟨_, rfl, t.machine.host, store, _, rfl, hcompact.putRecord? hput⟩
    · rw [hstoring]
      exact .inr ⟨_, _, rfl, t.machine.host, _, _, rfl, hcompact⟩

omit [Host σ] in
theorem keep_cases (h : t.machine.store.Holds c) (key : RecordKey) (data? : Option (List UInt8)) :
    (∃ t', (keep key data?).exec t = (.ok (), t') ∧
      t.machine.Recorded (Function.update c (.record key) data?) t'.machine) ∨
    (∃ e t', (keep key data?).exec t = (.error e, t') ∧ t.machine.Recorded c t'.machine) := by
  cases data? with
  | some data => exact putRecord_cases h key data
  | none =>
    refine .inl ⟨_, rfl, t.machine.host, _, [], rfl, ?_⟩
    exact h.perform (r := .deleteRecord key) trivial

omit [Host σ] in
/-- Either what was read is stored, or the store goes on holding what it held. -/
theorem storeAfter_cases {a : Exec σ α} (ha : Via Alike t a)
    (record : α → RecordKey × Option (List UInt8)) (h : t.machine.store.Holds c) :
    (∃ x t', (storeAfter a record).exec t = (.ok x, t') ∧ (a.exec t).1 = .ok x ∧
      t.machine.Recorded (Function.update c (.record (record x).1) (record x).2) t'.machine) ∨
    (∃ e t', (storeAfter a record).exec t = (.error e, t') ∧ t.machine.Recorded c t'.machine) := by
  unfold Via at ha
  rw [storeAfter, Action.exec_bind]
  cases hexec : a.exec t with
  | mk r t₁ =>
    rw [hexec] at ha
    have h₁ : t₁.machine.store.Holds c := by
      obtain ⟨host, hhost⟩ := ha
      rw [hhost]
      exact h
    cases r with
    | error e => exact .inr ⟨e, t₁, rfl, ha.recorded (.of_holds h₁)⟩
    | ok x =>
      dsimp only
      rw [Action.exec_bind]
      obtain ⟨t', hkeep, hrecorded⟩ | ⟨e, t', hkeep, hrecorded⟩ :=
        keep_cases h₁ (record x).1 (record x).2
      · rw [hkeep]
        exact .inl ⟨x, t', rfl, rfl, ha.recorded hrecorded⟩
      · rw [hkeep]
        exact .inr ⟨e, t', rfl, ha.recorded hrecorded⟩

/-- Either the record is stored that the statement reads, or the store goes on holding what it held.
Only the open files may change besides. -/
def Stores (t : Execution σ) (c : Contents) (s : Statement) (a : Exec σ Flow) : Prop :=
  (∃ key data? m' files t', a.exec t = (.ok .next, t') ∧
    ((recording s).exec t).1 = .ok (key, data?) ∧ t'.machine = { m' with files } ∧
    t.machine.Recorded (Function.update c (.record key) data?) m') ∨
  (∃ e t', a.exec t = (.error e, t') ∧ t.machine.Recorded c t'.machine)

theorem stores_recording (s : Statement) (h : t.machine.store.Holds c) :
    Stores t c s (storeAfter (recording s) id >>= fun _ => pure .next) := by
  unfold Stores
  rw [Action.exec_bind]
  obtain ⟨⟨key, data?⟩, t', hexec, hrecord, hrecorded⟩ | ⟨e, t', hexec, hrecorded⟩ :=
    storeAfter_cases (via_recording s) id h
  · rw [hexec]
    exact .inl ⟨key, data?, t'.machine, t'.machine.files, t', rfl, hrecord, rfl, hrecorded⟩
  · rw [hexec]
    exact .inr ⟨e, t', rfl, hrecorded⟩

theorem stores_writeFile (h : t.machine.store.Holds c) : Stores t c .write writeFile := by
  unfold Stores
  rw [writeFile_eq, Action.exec_bind]
  obtain ⟨⟨number, file, values⟩, t', hexec, hrecord, hrecorded⟩ | ⟨e, t', hexec, hrecorded⟩ :=
    storeAfter_cases via_writing written h
  · rw [hexec, recording, Action.exec_map, hrecord]
    exact .inl ⟨_, _, t'.machine, _, _, rfl, rfl, rfl, hrecorded⟩
  · rw [hexec]
    exact .inr ⟨e, t', rfl, hrecorded⟩

theorem stores_perform (pc : Pc) {s : Statement} (hs : s = .dsave ∨ s = .write ∨ s = .autorun)
    (h : t.machine.store.Holds c) : Stores t c s (perform pc s) := by
  obtain rfl | rfl | rfl := hs
  · rw [perform, dsave_eq]
    exact stores_recording .dsave h
  · exact stores_writeFile h
  · rw [perform, autorun_eq]
    exact stores_recording .autorun h

end Exec

/-! ## What is left undisturbed -/

namespace Machine

variable {σ : Type} {m m' m'' : Machine σ}

/-- Variables, stack, arrays, services and lines are the same. -/
structure Undisturbed (m m' : Machine σ) : Prop where
  vars : m'.vars = m.vars
  frames : m'.arena.frames = m.arena.frames
  arrays : ∀ b ∈ Arena.arrayBlocks m.arena.frames, m'.arena.bytes b = m.arena.bytes b
  services : m'.arena.services = m.arena.services
  lines : m'.store.lines = m.store.lines

theorem Recorded.undisturbed {c c' : Contents} (h : m.Recorded c' m') (hordered : m.arena.Ordered)
    (hc : m.store.Holds c) (hlines : ∀ n, c' (.line n) = c (.line n))
    (files : Vector (Option OpenFile) fileCount) : m.Undisturbed { m' with files } := by
  obtain ⟨host, store, scratch, rfl, hc'⟩ := h
  refine ⟨rfl, rfl, fun b hb => ?_, rfl, hc.lines_congr hc' hlines⟩
  exact Arena.bytes_write_of_apart (.inl (hordered.occupied.within b (List.mem_append_left _ hb)).2)

theorem Recorded.files {c : Contents} (h : m.Recorded c m') : m'.files = m.files := by
  obtain ⟨host, store, scratch, rfl, -⟩ := h
  rfl

theorem Recorded.record? {c : Contents} (h : m.Recorded c m') (key : RecordKey) :
    m'.store.record? key = c (.record key) := by
  obtain ⟨host, store, scratch, rfl, hc⟩ := h
  exact hc.record? key

/-- What is known of a machine whenever it executes a statement. -/
structure Orderly (m : Machine σ) : Prop where
  ordered : m.arena.Ordered
  holds : ∃ c, m.store.Holds c

variable [Host σ]

theorem invariant_ordered (config : Config) : Invariant config fun m : Machine σ => m.arena.Ordered :=
  { kept_ordered with
    boot := fun _ => (Arena.Ordered.ofSize _).reset.setFloor rfl rfl rfl _
    reboot := fun _ _ => (Arena.Ordered.ofSize _).reset.setFloor rfl rfl rfl _ }

theorem orderly_of_course {config : Config} {m₀ m : Machine σ} {status : Status} {turn : Turn}
    (hsize : Page.ageLength ≤ config.pageSize) (h₀ : Reachable config m₀)
    (h : Course (.halt status, m₀) (turn, m)) : m.Orderly := by
  have hordered := invariant_ordered (σ := σ) config
  have hsound := invariant_sound (σ := σ) hsize
  constructor
  · exact hordered.course (s := (.halt status, m₀)) (hordered.reachable h₀) h
  · exact (hsound.course (s := (.halt status, m₀)) (hsound.reachable h₀) h).holds

/-- What `a` reads of the statement at a place. -/
def reading? {α : Type} (m : Machine σ) (pc : Pc) (a : Statement → Exec σ α) : Option α :=
  match Statement.decode.exec (m.textAt pc) with
  | (.ok s, rest) =>
    ((a s).exec { machine := { m with host := (Host.breakCheck m.host).2 }, unread := rest }).1.toOption
  | (.error _, _) => none

/-- The record that the statement at a place stores: its key and its data, or none to delete it. -/
def recording? (m : Machine σ) (pc : Pc) : Option (RecordKey × Option (List UInt8)) :=
  m.reading? pc Exec.recording

/-- DSAVE, WRITE and AUTORUN leave the program and its data alone, whether they succeed or not. When
one succeeds it changes no record but the one it stores; when it fails it changes none. -/
theorem undisturbed_of_recording {config : Config} (hsize : Page.ageLength ≤ config.pageSize)
    {m₀ m : Machine σ} {status : Status} {pc : Pc} {s : Statement} (h₀ : Reachable config m₀)
    (h : Course (.halt status, m₀) (.more pc, m)) (hs : Statement.ofText? (m.textAt pc) = some s)
    (hkind : s = .dsave ∨ s = .write ∨ s = .autorun) :
    m.Undisturbed (m.step pc).2 ∧
      ((∃ pc' key data?, (m.step pc).1 = .more pc' ∧ m.recording? pc = some (key, data?) ∧
          ∀ k, (m.step pc).2.store.record? k = if k = key then data? else m.store.record? k) ∨
        (∃ status', (m.step pc).1 = .halt status' ∧
          ∀ k, (m.step pc).2.store.record? k = m.store.record? k)) := by
  obtain ⟨hordered, c, hc⟩ := orderly_of_course hsize h₀ h
  obtain ⟨rest, hdecode⟩ := Statement.exists_decode hs
  have hcheck : m.Alike { m with host := (Host.breakCheck m.host).2 } := ⟨_, rfl⟩
  -- A statement that fails, or that is not even begun, has the store hold what it held.
  have hfail {m' : Machine σ} (e : Error) (hm' : m.Recorded c m') :
      m.Undisturbed (m'.fail pc e).2 ∧
        ∀ k, (m'.fail pc e).2.store.record? k = m.store.record? k := by
    have hrecorded := hm'.alike (alike_fail m' pc e)
    refine ⟨hrecorded.undisturbed hordered hc (fun _ => rfl) _, fun k => ?_⟩
    rw [hrecorded.record?, hc.record?]
  obtain ⟨e, hstep⟩ | hstep := step_of_decode hdecode
  · obtain ⟨hundisturbed, hrecords⟩ := hfail e (hcheck.recorded (.of_holds hc))
    rw [hstep]
    exact ⟨hundisturbed, .inr ⟨_, rfl, hrecords⟩⟩
  obtain ⟨key, data?, m', files, t', hexec, hreads, hmachine, hm'⟩ | ⟨e, t', hexec, hm'⟩ :=
    Exec.stores_perform (t := ⟨{ m with host := (Host.breakCheck m.host).2 }, rest⟩) pc hkind hc
  · have hrecorded := hcheck.recorded hm'
    have houtcome : m.step pc = (.more (m'.next pc), { m' with files }) := by
      rw [hstep, hexec, outcome, hmachine]
      rfl
    rw [houtcome]
    refine ⟨hrecorded.undisturbed hordered hc (fun n => ?_) files, .inl ⟨_, key, data?, rfl, ?_, ?_⟩⟩
    · exact Function.update_of_ne (by simp) _ _
    · rw [recording?, reading?, hdecode]
      dsimp only
      rw [hreads]
      rfl
    · intro k
      rw [hrecorded.record?, hc.record?]
      simp only [Function.update_apply, Name.record.injEq]
  · obtain ⟨hundisturbed, hrecords⟩ := hfail e (hcheck.recorded hm')
    rw [hstep, hexec]
    exact ⟨hundisturbed, .inr ⟨_, rfl, hrecords⟩⟩

/-- An array is saved for the third time, for which the only page of flash has to be compacted. -/
theorem undisturbed_of_recording_compacting :
    let config : Config := { pages := 1, pageSize := 36, arenaSize := 160 }
    let m₀ : Machine Recorder := .boot config (.blank config.flashSize) {}
    let saved := session 2 (.halt .ready, m₀) ["10 RUN", "DIM B(3)", "B(1)=7", "DSAVE 1,B", "DSAVE 1,B"]
    let s := session 0 saved ["DSAVE 1,B"]
    Page.ageLength ≤ config.pageSize ∧ Reachable config m₀ ∧
      Course (.halt .ready, m₀) (.more .direct, s.2) ∧
      Statement.ofText? (s.2.textAt .direct) = some .dsave ∧ s.2.arena.depth = 1 ∧
      s.2.store.putRecord? (.setting 1) [0, 7, 0] = none ∧ (s.2.step .direct).1 = .more .end ∧
      s.2.Undisturbed (s.2.step .direct).2 ∧
      ∀ k, (s.2.step .direct).2.store.record? k =
        if k = .setting 1 then some [0, 7, 0] else s.2.store.record? k := by
  intro config m₀ saved s
  have hsaved : Course (.halt .ready, m₀) saved := course_session ..
  have hcourse : Course (.halt .ready, m₀) s := hsaved.trans (course_session ..)
  -- One evaluation of the session for all that is read off it.
  obtain ⟨hturn, hs, hdepth, hfull, hmore, hreads⟩ : s.1 = .more .direct ∧
      Statement.ofText? (s.2.textAt .direct) = some .dsave ∧ s.2.arena.depth = 1 ∧
      s.2.store.putRecord? (.setting 1) [0, 7, 0] = none ∧ (s.2.step .direct).1 = .more .end ∧
      s.2.recording? .direct = some (.setting 1, some [0, 7, 0]) := by
    decide +kernel
  have hsize : Page.ageLength ≤ config.pageSize := by decide
  have hreach : Reachable config m₀ := .boot _
  clear_value s
  have hdsave : Course (.halt .ready, m₀) (.more .direct, s.2) := by
    rw [← hturn]
    exact hcourse
  obtain ⟨hundisturbed, ⟨pc', key, data?, -, hkey, hrecords⟩ | ⟨status, hhalt, -⟩⟩ :=
    undisturbed_of_recording hsize hreach hdsave hs (.inl rfl)
  · rw [hreads] at hkey
    obtain ⟨rfl, rfl⟩ := Prod.mk.inj (Option.some.inj hkey)
    exact ⟨hsize, hreach, hdsave, hs, hdepth, hfull, hmore, hundisturbed, hrecords⟩
  · rw [hmore] at hhalt
    cases hhalt

end Machine

end FlashBasic
