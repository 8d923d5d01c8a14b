import FlashBasic.Proofs.Machine.Transfer

/-!
The files of a machine. `Files` is what a user knows of them: the records of each file and what has
been done with the open ones. A file is stored as records with keys of their own, and there is
nothing else on flash to tell how many they are. `Machine.Keeps m fs` says that the machine `m` has
them all, numbered from 1 without gaps, and that its open files are at the right places.

`FileCommand` is a statement that has to do with files, `Files.after` is what it means and
`Machine.Obeys` is what a machine does on it. The two agree (`Machine.Keeps.obey`), provided that no
file is written in two places at once and that numbers suffice for its records (`Files.Within`).
-/

namespace FlashBasic

set_option autoImplicit false

/-! ## Keys -/

namespace RecordKey

theorem toNat_file (name : Letter) (record : UInt16) :
    (file name record).toNat = (16 + name.slot.val) * 2 ^ 16 + record.toNat := by
  have hslot := name.slot.isLt
  have hrecord := record.toNat_lt
  have hhigh : (0x100000 + name.slot.val.toUInt32 * 0x10000 : UInt32).toNat =
      (16 + name.slot.val) <<< 16 := by
    simp [UInt32.toNat_add, UInt32.toNat_mul, Nat.shiftLeft_eq]
    omega
  rw [file, UInt32.toNat_or, hhigh, UInt16.toNat_toUInt32, ← Nat.shiftLeft_add_eq_or_of_lt hrecord,
    Nat.shiftLeft_eq]

theorem toNat_setting (n : UInt8) : (setting n).toNat = 0x100 + n.toNat := by
  have hn := n.toNat_lt
  simp [setting, UInt32.toNat_add]
  omega

theorem file_inj {name name' : Letter} {record record' : UInt16} :
    file name record = file name' record' ↔ name = name' ∧ record = record' := by
  constructor
  · intro h
    have hnat := congrArg UInt32.toNat h
    rw [toNat_file, toNat_file] at hnat
    have hrecord := record.toNat_lt
    have hrecord' := record'.toNat_lt
    have hslot : name.slot.val = name'.slot.val := by omega
    cases name
    cases name'
    exact ⟨congrArg _ (Fin.ext hslot), UInt16.toNat_inj.mp (by omega)⟩
  · rintro ⟨rfl, rfl⟩
    rfl

theorem setting_ne_file (n : UInt8) (name : Letter) (record : UInt16) :
    setting n ≠ file name record := by
  intro h
  have hnat := congrArg UInt32.toNat h
  rw [toNat_setting, toNat_file] at hnat
  have hn := n.toNat_lt
  omega

theorem autorun_ne_file (name : Letter) (record : UInt16) : autorun ≠ file name record := by
  intro h
  have hnat := congrArg UInt32.toNat h
  rw [toNat_file] at hnat
  have hautorun : autorun.toNat = 1 := rfl
  omega

end RecordKey

/-! ## Files as their user knows them -/

inductive Handle where
  /-- Open for reading; so many records have been delivered. -/
  | reading (name : Letter) (delivered : Nat)
  | writing (name : Letter)
deriving DecidableEq, Repr

namespace Handle

def name : Handle → Letter
  | .reading name _ => name
  | .writing name => name

/-- The file that is written. -/
def written? : Handle → Option Letter
  | .reading .. => none
  | .writing name => some name

/-- One more record has been delivered. -/
def next : Handle → Handle
  | .reading name delivered => .reading name (delivered + 1)
  | .writing name => .writing name

end Handle

structure Files where
  records : Letter → List (List Binding)
  handles : Fin fileCount → Option Handle

/-- A statement that has to do with files, with all that it says. -/
inductive FileCommand where
  | «open» (h : Fin fileCount) (access : Exec.Access) (name : Letter)
  | close (h : Fin fileCount)
  | read (h : Fin fileCount) (names : List Letter)
  | write (h : Fin fileCount) (values : List Binding)
  | new
  | run
deriving DecidableEq

namespace Files

def empty : Files := ⟨fun _ => [], fun _ => none⟩

/-- All open files are forgotten. -/
def closed (fs : Files) : Files := { fs with handles := fun _ => none }

def setHandle (fs : Files) (h : Fin fileCount) (handle? : Option Handle) : Files :=
  { fs with handles := Function.update fs.handles h handle? }

def setRecords (fs : Files) (name : Letter) (records : List (List Binding)) : Files :=
  { fs with records := Function.update fs.records name records }

/-- What a command means. -/
def after (fs : Files) : FileCommand → Files
  | .open h .read name => fs.setHandle h (some (.reading name 0))
  | .open h .write name => (fs.setRecords name []).setHandle h (some (.writing name))
  | .open h .append name => fs.setHandle h (some (.writing name))
  | .close h => fs.setHandle h none
  | .read h _ => fs.setHandle h ((fs.handles h).map Handle.next)
  | .write h values =>
    match fs.handles h with
    | some (.writing name) => fs.setRecords name (fs.records name ++ [values])
    | _ => fs
  | .new => empty
  | .run => fs.closed

/-- The file that a command is about. -/
def subject? (fs : Files) : FileCommand → Option Letter
  | .open _ _ name => some name
  | .close h | .read h _ | .write h _ => (fs.handles h).map Handle.name
  | .new | .run => none

/-- No file is open for writing twice, and none has more records than there are numbers. -/
structure Within (fs : Files) : Prop where
  few : ∀ name, (fs.records name).length < Exec.maxRecords
  single : ∀ h h' name, fs.handles h = some (.writing name) → fs.handles h' = some (.writing name) →
    h = h'

theorem within_iff {fs : Files} :
    fs.Within ↔ (∀ slot, (fs.records ⟨slot⟩).length < Exec.maxRecords) ∧
      ∀ h, ∀ name ∈ (fs.handles h).bind Handle.written?, ∀ h',
        fs.handles h' = some (.writing name) → h = h' := by
  have hwritten {h : Fin fileCount} {name : Letter} :
      name ∈ (fs.handles h).bind Handle.written? ↔ fs.handles h = some (.writing name) := by
    cases fs.handles h with
    | none => simp
    | some handle => cases handle <;> simp [Handle.written?]
  simp only [hwritten]
  exact ⟨fun h => ⟨fun slot => h.few ⟨slot⟩, fun n name hn n' => h.single n n' name hn⟩,
    fun h => ⟨fun name => h.1 name.slot, fun n n' name hn => h.2 n name hn n'⟩⟩

instance (fs : Files) : Decidable fs.Within := decidable_of_iff _ within_iff.symm

/-! ## Files as a machine keeps them -/

/-- The data of a record. The first has the number 1. -/
def record? (fs : Files) (name : Letter) (record : UInt16) : Option (List UInt8) :=
  if record = 0 then none
  else (fs.records name)[record.toNat - 1]?.map (·.flatMap Binding.bytes)

/-- An open file, with the number of the record that is next. -/
def openFile (fs : Files) : Handle → OpenFile
  | .reading name delivered => { name, record := .ofNat (delivered + 1), writing := false }
  | .writing name => { name, record := .ofNat ((fs.records name).length + 1), writing := true }

theorem record?_ofNat (fs : Files) (name : Letter) {k : Nat} (hk : k < Exec.maxRecords) :
    fs.record? name (.ofNat (k + 1)) = (fs.records name)[k]?.map (·.flatMap Binding.bytes) := by
  have htoNat : (UInt16.ofNat (k + 1)).toNat = k + 1 := by
    rw [UInt16.toNat_ofNat']
    exact Nat.mod_eq_of_lt (Nat.succ_lt_succ hk)
  have hne : UInt16.ofNat (k + 1) ≠ 0 := by
    intro h
    rw [h] at htoNat
    cases htoNat
  rw [record?, if_neg hne, htoNat, Nat.add_sub_cancel]

theorem isSome_record? (fs : Files) (name : Letter) (record : UInt16) :
    (fs.record? name record).isSome ↔
      0 < record.toNat ∧ record.toNat ≤ (fs.records name).length := by
  unfold record?
  split
  next h => simp [h]
  next h =>
    have hpos : 0 < record.toNat := Nat.pos_of_ne_zero fun hzero => h (UInt16.toNat_inj.mp hzero)
    have hisSome : (fs.records name)[record.toNat - 1]?.isSome ↔
        record.toNat - 1 < (fs.records name).length := by simp
    rw [Option.isSome_map, hisSome]
    omega

theorem handles_setHandle (fs : Files) (h : Fin fileCount) (handle? : Option Handle) :
    (fs.setHandle h handle?).handles = Function.update fs.handles h handle? := rfl

@[simp] theorem openFile_setHandle (fs : Files) (h : Fin fileCount) (handle? : Option Handle) :
    (fs.setHandle h handle?).openFile = fs.openFile := by
  funext handle
  cases handle <;> rfl

theorem record?_setRecords_of_ne (fs : Files) {name name' : Letter} (h : name' ≠ name)
    (records : List (List Binding)) :
    (fs.setRecords name records).record? name' = fs.record? name' := by
  funext r
  simp only [record?, setRecords, Function.update_of_ne h]

theorem record?_setRecords_nil (fs : Files) (name : Letter) (r : UInt16) :
    (fs.setRecords name []).record? name r = none := by
  simp [record?, setRecords]

theorem record?_setRecords_append (fs : Files) (name : Letter) (values : List Binding) (r : UInt16)
    (h : (fs.records name).length < Exec.maxRecords) :
    (fs.setRecords name (fs.records name ++ [values])).record? name r =
      if r = .ofNat ((fs.records name).length + 1) then some (values.flatMap Binding.bytes)
      else fs.record? name r := by
  split
  next heq =>
    rw [heq, record?_ofNat _ _ h]
    simp [setRecords]
  next hne =>
    unfold record?
    split
    next => rfl
    next hzero =>
      have hpos : r.toNat ≠ 0 := fun heq => hzero (UInt16.toNat_inj.mp heq)
      have hlast : r.toNat ≠ (fs.records name).length + 1 :=
        fun heq => hne (by rw [← heq, UInt16.ofNat_toNat])
      simp only [setRecords, Function.update_self, List.getElem?_append]
      split
      next => rfl
      next hge =>
        rw [List.getElem?_eq_none (by simp; omega), List.getElem?_eq_none (by omega)]

end Files

/-! ## Finding the records of a file -/

theorem toNat_recordNumber {k : Nat} (hk : k ≤ Exec.maxRecords) : (UInt16.ofNat k).toNat = k := by
  rw [UInt16.toNat_ofNat']
  exact Nat.mod_eq_of_lt (Nat.lt_succ_of_le hk)

namespace Exec

variable {name : Letter} {j n fuel : Nat}

/-- Opening a file for writing removes all its records, if they are numbered without gaps. Those up
to `j` are gone already. -/
theorem holds_deleteRecords {s : Store} {c : Contents} (hs : s.Holds c) (hn : n < maxRecords)
    (hj : j ≤ n) (hfuel : n - j < fuel)
    (hc : ∀ r, (c (.record (.file name r))).isSome ↔ j < r.toNat ∧ r.toNat ≤ n) :
    ∃ c', (deleteRecords name fuel (.ofNat (j + 1)) s).Holds c' ∧
      (∀ r, c' (.record (.file name r)) = none) ∧
      ∀ x, (∀ r, x ≠ .record (.file name r)) → c' x = c x := by
  induction fuel generalizing s c j with
  | zero => cases hfuel
  | succ fuel ih =>
    have htoNat := toNat_recordNumber (Nat.succ_le_of_lt (Nat.lt_of_le_of_lt hj hn))
    have hnext := hc (.ofNat (j + 1))
    rw [htoNat] at hnext
    rw [deleteRecords]
    cases hdelete : s.deleteRecord? (.file name (.ofNat (j + 1))) with
    | none =>
      refine ⟨c, hs, fun r => ?_, fun _ _ => rfl⟩
      rw [hs.deleteRecord?_eq_none_iff.mp hdelete] at hnext
      rw [← Option.not_isSome_iff_eq_none, hc]
      simp only [Option.isSome_none, Bool.false_eq_true, false_iff, not_and] at hnext
      omega
    | some s' =>
      have hsome : j + 1 ≤ n := by
        have hisSome : (c (.record (.file name (.ofNat (j + 1))))).isSome := by
          rw [Option.isSome_iff_ne_none]
          intro hnone
          rw [hs.deleteRecord?_eq_none_iff.mpr hnone] at hdelete
          cases hdelete
        exact (hnext.mp hisSome).2
      obtain ⟨c', hs', hnone, hother⟩ := ih (hs.deleteRecord? hdelete) hsome (by omega) (j := j + 1)
        (fun r => by
          by_cases hr : r = .ofNat (j + 1)
          · rw [hr, Function.update_self, htoNat]
            simp
          · have hkey : (Name.record (.file name r)) ≠ .record (.file name (.ofNat (j + 1))) := by
              simpa [RecordKey.file_inj] using hr
            have hne : r.toNat ≠ j + 1 := fun heq => hr (UInt16.toNat_inj.mp (heq.trans htoNat.symm))
            rw [Function.update_of_ne hkey, hc]
            omega)
      rw [UInt16.ofNat_add (j + 1) 1] at hs'
      refine ⟨c', hs', hnone, fun x hx => ?_⟩
      rw [hother x hx, Function.update_of_ne (hx _)]

/-- A file is continued after its last record. -/
theorem missingRecord_eq {s : Store} (hn : n < maxRecords) (hj : j ≤ n) (hfuel : n - j < fuel)
    (hs : ∀ r, (s.record? (.file name r)).isSome ↔ 0 < r.toNat ∧ r.toNat ≤ n) :
    missingRecord name s fuel (.ofNat (j + 1)) = .ofNat (n + 1) := by
  induction fuel generalizing j with
  | zero => cases hfuel
  | succ fuel ih =>
    have htoNat := toNat_recordNumber (Nat.succ_le_of_lt (Nat.lt_of_le_of_lt hj hn))
    have hnext := hs (.ofNat (j + 1))
    rw [htoNat] at hnext
    rw [missingRecord]
    by_cases hlast : j = n
    · rw [if_neg (by rw [hnext]; omega), hlast]
    · rw [if_pos (hnext.mpr (by omega))]
      have hmore := ih (j := j + 1) (by omega) (by omega)
      rwa [UInt16.ofNat_add (j + 1) 1] at hmore

end Exec

namespace Machine

variable {σ : Type} {m m' m'' : Machine σ} {fs : Files}

theorem get_set (files : Vector (Option OpenFile) fileCount) (number : Fin fileCount)
    (file? : Option OpenFile) :
    (files.set number file? number.isLt).get = Function.update files.get number file? := by
  funext other
  by_cases hother : other = number
  · subst hother
    rw [Function.update_self]
    exact Vector.getElem_set_self _
  · have hne : number.val ≠ other.val := fun heq => hother (Fin.ext heq.symm)
    rw [Function.update_of_ne hother]
    exact Vector.getElem_set_ne _ _ hne

/-- The machine keeps the files `fs`. -/
structure Keeps (m : Machine σ) (fs : Files) : Prop where
  records : ∀ name r, m.store.record? (.file name r) = fs.record? name r
  files : ∀ h : Fin fileCount, m.files.get h = (fs.handles h).map fs.openFile
  delivered : ∀ h name k, fs.handles h = some (.reading name k) → k < Exec.maxRecords

/-- All files are the same. -/
structure SparesFiles (m m' : Machine σ) : Prop where
  records : ∀ name r, m'.store.record? (.file name r) = m.store.record? (.file name r)
  files : m'.files = m.files

namespace Keeps

theorem congr (h : m.Keeps fs) (hspares : m.SparesFiles m') : m'.Keeps fs :=
  ⟨fun name r => (hspares.records name r).trans (h.records name r), hspares.files ▸ h.files,
    h.delivered⟩

theorem closed (h : m.Keeps fs)
    (hrecords : ∀ name r, m'.store.record? (.file name r) = m.store.record? (.file name r))
    (hfiles : m'.files = Vector.replicate fileCount none) : m'.Keeps fs.closed where
  records name r := (hrecords name r).trans (h.records name r)
  files number := by
    rw [hfiles]
    exact Vector.getElem_replicate _
  delivered number name k hk := by cases hk

theorem setHandle (h : m.Keeps fs) (number : Fin fileCount) (handle? : Option Handle)
    (hdelivered : ∀ name k, handle? = some (.reading name k) → k < Exec.maxRecords) :
    Keeps { m with files := m.files.set number (handle?.map fs.openFile) number.isLt }
      (fs.setHandle number handle?) where
  records := h.records
  files other := by
    rw [Files.openFile_setHandle, get_set, Files.handles_setHandle]
    by_cases hother : other = number
    · subst hother
      rw [Function.update_self, Function.update_self]
    · rw [Function.update_of_ne hother, Function.update_of_ne hother]
      exact h.files other
  delivered other name k hk := by
    by_cases hother : other = number
    · subst hother
      exact hdelivered name k (by simpa [Files.setHandle] using hk)
    · exact h.delivered other name k (by simpa [Files.setHandle, hother] using hk)

/-- A file gets other records, and is open for writing at the end of them. -/
theorem setRecords (h : m.Keeps fs) {number : Fin fileCount} {name : Letter}
    {records : List (List Binding)}
    (hsingle : ∀ other, fs.handles other = some (.writing name) → other = number)
    (hrecords : ∀ name' r, m'.store.record? (.file name' r) =
      (fs.setRecords name records).record? name' r)
    (hfiles : m'.files = m.files.set number
      (some { name, record := .ofNat (records.length + 1), writing := true }) number.isLt) :
    m'.Keeps ((fs.setRecords name records).setHandle number (some (.writing name))) where
  records := hrecords
  files other := by
    rw [hfiles, Files.openFile_setHandle, get_set, Files.handles_setHandle]
    by_cases hother : other = number
    · subst hother
      simp [Files.setRecords, Files.openFile]
    · rw [Function.update_of_ne hother, Function.update_of_ne hother, h.files other]
      cases hhandle : fs.handles other with
      | none => simp [Files.setRecords, hhandle]
      | some handle =>
        cases handle with
        | reading name' k => simp [Files.setRecords, hhandle, Files.openFile]
        | writing name' =>
          have hname : name' ≠ name := fun heq => hother (hsingle other (heq ▸ hhandle))
          simp [Files.setRecords, hhandle, Files.openFile, hname]
  delivered other name' k hk := by
    by_cases hother : other = number
    · subst hother
      simp [Files.setHandle] at hk
    · exact h.delivered other name' k (by
        simpa [Files.setHandle, Files.setRecords, hother] using hk)

end Keeps

/-! ## Obeying commands -/

/-- What opening a file does. -/
def opened (m : Machine σ) (h : Fin fileCount) (access : Exec.Access) (name : Letter) : Machine σ :=
  match access with
  | .read =>
    { m with files := m.files.set h (some { name, record := 1, writing := false }) h.isLt }
  | .write =>
    { m with
      store := Exec.deleteRecords name Exec.maxRecords 1 m.store
      files := m.files.set h (some { name, record := 1, writing := true }) h.isLt }
  | .append =>
    let record := Exec.missingRecord name m.store Exec.maxRecords 1
    { m with files := m.files.set h (some { name, record, writing := true }) h.isLt }

/-- An open file has moved on to its next record. -/
def advanced (m : Machine σ) (h : Fin fileCount) (file : OpenFile) : Machine σ :=
  { m with files := m.files.set h (some { file with record := file.record + 1 }) h.isLt }

variable [Host σ]

/-- What a machine does on a command, as far as files are concerned. -/
def Obeys (m m' : Machine σ) : FileCommand → Prop
  | .open h access name => ∃ m₁, m.Alike m₁ ∧ m' = m₁.opened h access name
  | .close h => ∃ m₁, m.Alike m₁ ∧ m' = { m₁ with files := m₁.files.set h none h.isLt }
  | .read h _ => ∃ (file : OpenFile) (m₁ : Machine σ), m.files.get h = some file ∧
      file.writing = false ∧
      (m.store.record? (.file file.name file.record)).isSome ∧ m₁.store = m.store ∧
      m₁.files = m.files ∧ m' = m₁.advanced h file
  | .write h values => ∃ (file : OpenFile) (m₁ : Machine σ), m.files.get h = some file ∧
      file.writing = true ∧
      (∀ key, m₁.store.record? key =
        if key = .file file.name file.record then some (values.flatMap Binding.bytes)
        else m.store.record? key) ∧
      m₁.files = m.files ∧ m' = m₁.advanced h file
  | .new => ∃ m₁, m.Alike m₁ ∧ m' = { m₁ with store := m₁.store.clear }.reset
  | .run => ∃ m₁, m.Alike m₁ ∧ m' = m₁.reset

omit [Host σ] in
theorem Keeps.isSome_record? (h : m.Keeps fs) (name : Letter) (r : UInt16) :
    (m.store.record? (.file name r)).isSome ↔ 0 < r.toNat ∧ r.toNat ≤ (fs.records name).length := by
  rw [h.records, Files.isSome_record?]

omit [Host σ] in
theorem Keeps.handle_of_writing (h : m.Keeps fs) {number : Fin fileCount} {file : OpenFile}
    (hfile : m.files.get number = some file) (hwriting : file.writing = true) :
    ∃ name, fs.handles number = some (.writing name) ∧ file = fs.openFile (.writing name) := by
  rw [h.files] at hfile
  obtain ⟨handle, hhandle, rfl⟩ := Option.map_eq_some_iff.mp hfile
  cases handle with
  | reading name k => cases hwriting
  | writing name => exact ⟨name, hhandle, rfl⟩

omit [Host σ] in
theorem Keeps.handle_of_reading (h : m.Keeps fs) {number : Fin fileCount} {file : OpenFile}
    (hfile : m.files.get number = some file) (hreading : file.writing = false) :
    ∃ name k, fs.handles number = some (.reading name k) ∧ file = fs.openFile (.reading name k) := by
  rw [h.files] at hfile
  obtain ⟨handle, hhandle, rfl⟩ := Option.map_eq_some_iff.mp hfile
  cases handle with
  | reading name k => exact ⟨name, k, hhandle, rfl⟩
  | writing name => cases hreading

namespace Keeps

omit [Host σ] in
theorem alike (h : m.Keeps fs) (halike : m.Alike m') : m'.Keeps fs := by
  obtain ⟨host, rfl⟩ := halike
  exact h.congr ⟨fun _ _ => rfl, rfl⟩

omit [Host σ] in
theorem record?_deleteRecords (h : m.Keeps fs) {c : Contents} (hc : m.store.Holds c)
    {name : Letter} (hfew : (fs.records name).length < Exec.maxRecords) :
    (∀ r, (Exec.deleteRecords name Exec.maxRecords 1 m.store).record? (.file name r) = none) ∧
      ∀ key, (∀ r, key ≠ .file name r) →
        (Exec.deleteRecords name Exec.maxRecords 1 m.store).record? key = m.store.record? key := by
  have hrecords (r : UInt16) : (c (.record (.file name r))).isSome ↔
      0 < r.toNat ∧ r.toNat ≤ (fs.records name).length := by
    rw [← hc.record?, h.isSome_record?]
  obtain ⟨c', hc', hnone, hother⟩ :=
    Exec.holds_deleteRecords hc hfew (Nat.zero_le _) hfew hrecords
  refine ⟨fun r => (hc'.record? _).trans (hnone r), fun key hkey => (hc'.record? _).trans ?_⟩
  rw [hother _ (by simpa using hkey), hc.record?]

omit [Host σ] in
theorem opened_write (h : m.Keeps fs) {c : Contents} (hc : m.store.Holds c)
    {number : Fin fileCount} {name : Letter} (hfew : (fs.records name).length < Exec.maxRecords)
    (hwithin : (fs.after (.open number .write name)).Within) :
    (m.opened number .write name).Keeps (fs.after (.open number .write name)) := by
  obtain ⟨hnone, hother⟩ := h.record?_deleteRecords hc hfew
  refine h.setRecords (fun other hhandle => ?_) (fun name' r => ?_) rfl
  · by_contra hne
    refine hne (hwithin.single other number name ?_ ?_)
    · simpa [Files.after, Files.setHandle, Files.setRecords, hne] using hhandle
    · simp [Files.after, Files.setHandle]
  · by_cases hname : name' = name
    · subst hname
      rw [Files.record?_setRecords_nil]
      exact hnone r
    · rw [Files.record?_setRecords_of_ne _ hname, ← h.records]
      exact hother _ fun r' => by simp [RecordKey.file_inj, hname]

omit [Host σ] in
theorem opened_append (h : m.Keeps fs) (number : Fin fileCount) {name : Letter}
    (hfew : (fs.records name).length < Exec.maxRecords) :
    (m.opened number .append name).Keeps (fs.after (.open number .append name)) := by
  have hmissing : Exec.missingRecord name m.store Exec.maxRecords 1 =
      .ofNat ((fs.records name).length + 1) :=
    Exec.missingRecord_eq (j := 0) hfew (Nat.zero_le _) hfew (h.isSome_record? name)
  have hkeeps := h.setHandle number (some (.writing name)) (by simp)
  rw [opened, hmissing]
  exact hkeeps

theorem advanced_reading (h : m.Keeps fs) (hfs : fs.Within) {number : Fin fileCount} {names : List Letter}
    (hobeys : m.Obeys m' (.read number names)) : m'.Keeps (fs.after (.read number names)) := by
  obtain ⟨file, m₁, hfile, hreading, hsome, hstore, hfiles, rfl⟩ := hobeys
  obtain ⟨name, k, hhandle, rfl⟩ := h.handle_of_reading hfile hreading
  have hk : k + 1 < Exec.maxRecords := by
    have hle := ((h.isSome_record? _ _).mp hsome).2
    dsimp only [Files.openFile] at hle
    rw [toNat_recordNumber (Nat.succ_le_of_lt (h.delivered _ _ _ hhandle))] at hle
    exact Nat.lt_of_le_of_lt hle (hfs.few name)
  have h₁ : m₁.Keeps fs := h.congr ⟨fun _ _ => by rw [hstore], hfiles⟩
  have hkeeps := h₁.setHandle number (some (.reading name (k + 1))) (by
    rintro _ _ heq
    cases heq
    exact hk)
  have hnext : m₁.advanced number (fs.openFile (.reading name k)) =
      { m₁ with files :=
          m₁.files.set number (some (fs.openFile (.reading name (k + 1)))) number.isLt } := by
    dsimp only [advanced, Files.openFile]
    rw [UInt16.ofNat_add (k + 1) 1]
    rfl
  rw [Files.after, hhandle, hnext]
  exact hkeeps

theorem advanced_writing (h : m.Keeps fs) (hfs : fs.Within) {number : Fin fileCount}
    {values : List Binding}
    (hobeys : m.Obeys m' (.write number values)) : m'.Keeps (fs.after (.write number values)) := by
  obtain ⟨file, m₁, hfile, hwriting, hrecords, hfiles, rfl⟩ := hobeys
  obtain ⟨name, hhandle, rfl⟩ := h.handle_of_writing hfile hwriting
  have hafter : fs.after (.write number values) =
      (fs.setRecords name (fs.records name ++ [values])).setHandle number (some (.writing name)) := by
    simp only [Files.after, hhandle, Files.setHandle, Files.setRecords]
    rw [← hhandle, Function.update_eq_self]
  rw [hafter]
  refine h.setRecords (fun other hother => hfs.single other number name hother hhandle)
    (fun name' r => ?_) ?_
  · have hwritten : m₁.store.record? (.file name' r) =
        if RecordKey.file name' r = .file name (.ofNat ((fs.records name).length + 1)) then
          some (values.flatMap Binding.bytes)
        else m.store.record? (.file name' r) := hrecords _
    refine hwritten.trans ?_
    by_cases hname : name' = name
    · subst hname
      simp only [RecordKey.file_inj, true_and]
      rw [Files.record?_setRecords_append _ _ _ _ (hfs.few name'), h.records]
    · rw [if_neg (by simp [RecordKey.file_inj, hname]), h.records,
        Files.record?_setRecords_of_ne _ hname]
  · dsimp only [advanced, Files.openFile]
    rw [hfiles, List.length_append, List.length_singleton,
      UInt16.ofNat_add ((fs.records name).length + 1) 1]
    rfl

/-- A machine that obeys a command keeps the files that the command leads to. -/
theorem obey (h : m.Keeps fs) {c : Contents} (hc : m.store.Holds c) (hfs : fs.Within)
    {command : FileCommand} (hobeys : m.Obeys m' command) (hwithin : (fs.after command).Within) :
    m'.Keeps (fs.after command) := by
  cases command with
  | «open» number access name =>
    obtain ⟨m₁, halike, rfl⟩ := hobeys
    have h₁ := h.alike halike
    cases access with
    | read => exact h₁.setHandle number (some (.reading name 0)) (by
        rintro _ _ heq
        cases heq
        decide)
    | write =>
      obtain ⟨host, rfl⟩ := halike
      exact h₁.opened_write hc (hfs.few name) hwithin
    | append => exact h₁.opened_append number (hfs.few name)
  | close number =>
    obtain ⟨m₁, halike, rfl⟩ := hobeys
    exact (h.alike halike).setHandle number none (by simp)
  | read number names => exact h.advanced_reading hfs hobeys
  | write number values => exact h.advanced_writing hfs hobeys
  | new =>
    obtain ⟨m₁, ⟨host, rfl⟩, rfl⟩ := hobeys
    refine ⟨fun name r => ?_, fun number => ?_, by simp [Files.after, Files.empty]⟩
    · refine (hc.clear.record? _).trans ?_
      simp [Contents.empty, Files.after, Files.empty, Files.record?]
    · exact Vector.getElem_replicate _
  | run =>
    obtain ⟨m₁, halike, rfl⟩ := hobeys
    exact (h.alike halike).closed (fun _ _ => rfl) rfl

/-- A command changes no record but those of the file that it is about. -/
theorem record?_of_obeys (h : m.Keeps fs) {c : Contents} (hc : m.store.Holds c) (hfs : fs.Within)
    {command : FileCommand} (hobeys : m.Obeys m' command) (hnew : command ≠ .new) {key : RecordKey}
    (hkey : ∀ name r, fs.subject? command = some name → key ≠ .file name r) :
    m'.store.record? key = m.store.record? key := by
  cases command with
  | «open» number access name =>
    obtain ⟨m₁, ⟨host, rfl⟩, rfl⟩ := hobeys
    cases access with
    | read => rfl
    | write => exact (h.record?_deleteRecords hc (hfs.few name)).2 key fun r => hkey name r rfl
    | append => rfl
  | close number =>
    obtain ⟨m₁, ⟨host, rfl⟩, rfl⟩ := hobeys
    rfl
  | read number names =>
    obtain ⟨file, m₁, -, -, -, hstore, -, rfl⟩ := hobeys
    exact congrArg (Store.record? · key) hstore
  | write number values =>
    obtain ⟨file, m₁, hfile, hwriting, hrecords, -, rfl⟩ := hobeys
    obtain ⟨name, hhandle, rfl⟩ := h.handle_of_writing hfile hwriting
    refine (hrecords key).trans (if_neg (hkey name _ ?_))
    rw [Files.subject?, hhandle]
    rfl
  | new => exact absurd rfl hnew
  | run =>
    obtain ⟨m₁, ⟨host, rfl⟩, rfl⟩ := hobeys
    rfl

end Keeps

end Machine

end FlashBasic
