import FlashBasic.Machine.Exec

/-!
Statements that move data: assignment, arrays, pins, settings and files.
-/

namespace FlashBasic

set_option autoImplicit false

namespace Exec

variable {σ : Type} [Host σ]

/-! ## Variables and arrays -/

/-- Tells the host that an array has changed, if it wants to know. -/
def notify (a : ArrayFrame) : Exec σ Unit :=
  match a.notifier with
  | some n => tell (Host.notify n)
  | none => return

def setElement (name : Letter) (index value : Int32) : Exec σ Unit := do
  match (← machine).array? name with
  | none => throw .expression
  | some a =>
    if index < 0 ∨ (a.block.size : Int) ≤ index.toInt then throw .expression
    modifyMachine fun m =>
      { m with arena := m.arena.setByte a.block index.toInt.toNat value.toUInt32.toUInt8 }
    notify a

def assign : Exec σ Flow := do
  let name ← read Cursor.letter
  let index ← if ← read (Cursor.accept (Ascii.code '(')) then some <$> eval .braces else pure none
  read (Cursor.expectToken (.op .eq))
  let value ← evalLast
  match index with
  | some index => setElement name index value
  | none =>
    if (← machine).vars.isShadowed name then throw .general
    modifyMachine fun m => { m with vars := m.vars.set name value }
  return .next

/-- Makes an array of zeros that hides the scalar of its name. -/
def dim : Exec σ Flow := do
  let name ← read Cursor.letter
  read (Cursor.expect (Ascii.code '('))
  let size ← eval .braces
  read Cursor.expectEnd
  if size < 0 then throw .general
  let m ← machine
  let (block, arena) ← .ofExcept (m.arena.alloc size.toInt.toNat)
  match arena.push (.array { name, block, prior := m.vars.isShadowed name }) with
  | .ok arena =>
    modifyMachine fun m => { m with arena, vars := m.vars.setShadowed name true }
    return .next
  | .error e =>
    modifyMachine fun m => { m with arena := arena.release block }
    throw e

/-! ## Pins -/

def setPin (bank : PinBank) : Exec σ Flow := do
  let pin ← eval .braces
  read (Cursor.expectToken (.op .eq))
  let value ← evalLast
  if pin < 0 ∨ 8 ≤ pin then throw .badPin
  let present ← ask (Host.pinWrite bank.val.toUInt8 pin.toInt.toNat.toUInt8 (value ≠ 0))
  if !present then throw .badPin
  return .next

/-! ## Settings -/

/-- Writes a record, compacting the store if need be. -/
def putRecord (key : RecordKey) (data : List UInt8) : Exec σ Unit := do
  let length := Item.length (data.length + 4)
  if Item.maxLength < length then throw .tooBig
  let (stored, m) := (← machine).storing length (·.putRecord? key data)
  modifyMachine fun _ => m
  if !stored then throw .outOfMemory

/-- The bytes of a variable. -/
def contents (m : Machine σ) (name : Letter) : List UInt8 :=
  match m.binding name with
  | .scalar value => LittleEndian.ofInt32 value
  | .array bytes => bytes

/-- Fills a variable from the start of `data`, and gives the rest of it. -/
def load (name : Letter) (data : List UInt8) : Exec σ (List UInt8) := do
  match (← machine).array? name with
  | some a =>
    modifyMachine fun m => { m with arena := m.arena.write a.block.start (data.take a.block.size) }
    notify a
    return data.drop a.block.size
  | none =>
    modifyMachine fun m =>
      { m with vars := m.vars.set name (LittleEndian.toInt32 (data.take 4)) }
    return data.drop 4

/-- Fills the variables one after the other. -/
def loadAll : List Letter → (data : List UInt8) → Exec σ Unit
  | [], _ => return
  | name :: names, data => do loadAll names (← load name data)

/-- Reads the number of a setting and a variable. -/
def setting : Exec σ (RecordKey × Letter) := do
  let n ← eval .comma
  let name ← read Cursor.letter
  read Cursor.expectEnd
  if n < 1 ∨ 255 < n then throw .general
  return (.setting n.toInt.toNat.toUInt8, name)

def dsave : Exec σ Flow := do
  let (key, name) ← setting
  putRecord key (contents (← machine) name)
  return .next

def dload : Exec σ Flow := do
  let (key, name) ← setting
  match (← machine).store.record? key with
  | none => throw .endOfFile
  | some data =>
    let _ ← load name data
    return .next

def autorun : Exec σ Flow := do
  let on ← evalLast
  if on ≠ 0 then putRecord .autorun []
  else modifyMachine fun m =>
    { m with store := (m.store.deleteRecord? .autorun).getD m.store }
  return .next

/-! ## Files -/

/-- The number of an open file, which must be in range. -/
def fileNumber : Exec σ (Fin fileCount) := do
  let n ← eval .comma
  if h : 0 ≤ n ∧ n.toInt.toNat < fileCount then return ⟨n.toInt.toNat, h.2⟩
  throw .general

/-- The same with a number sign before it. -/
def handle : Exec σ (Fin fileCount) := do
  read (Cursor.expect (Ascii.code '#'))
  fileNumber

def setFile (h : Fin fileCount) (file : Option OpenFile) : Exec σ Unit :=
  modifyMachine fun m => { m with files := m.files.set h file }

/-- The file behind a handle, which must be open in the right direction. -/
def fileBehind (h : Fin fileCount) (writing : Bool) : Exec σ OpenFile := do
  match (← machine).files[h] with
  | some file => if file.writing = writing then return file else throw .general
  | none => throw .general

/-- How a file is opened. -/
inductive Access where
  | read
  | write
  | append
deriving DecidableEq, Repr

def access : Action Cursor Access := do
  if ← Cursor.acceptToken .read then return .read
  if ← Cursor.acceptToken .write then return .write
  if ← Cursor.acceptToken .append then return .append
  throw .general

/-- A file name: one letter of either case in double quotes. -/
def fileName : Action Cursor Letter := do
  Cursor.expect (Ascii.code '"')
  match Letter.ofByte? (Ascii.toUpper (← Cursor.next)) with
  | none => throw .general
  | some name =>
    Cursor.expect (Ascii.code '"')
    return name

/-- Record numbers go from 1 up to here. -/
def maxRecords : Nat := 0xFFFF

/-- Deletes the records of a file from `record` up to the first that is missing. -/
def deleteRecords (name : Letter) : (fuel : Nat) → (record : UInt16) → Store → Store
  | 0, _, s => s
  | fuel + 1, record, s =>
    match s.deleteRecord? (.file name record) with
    | some s => deleteRecords name fuel (record + 1) s
    | none => s

/-- The first record of a file, from `record` on, that is missing. -/
def missingRecord (name : Letter) (s : Store) : (fuel : Nat) → (record : UInt16) → UInt16
  | 0, record => record
  | fuel + 1, record =>
    if (s.record? (.file name record)).isSome then missingRecord name s fuel (record + 1)
    else record

def openFile : Exec σ Flow := do
  let h ← fileNumber
  let access ← read access
  let name ← read fileName
  read Cursor.expectEnd
  let store := (← machine).store
  match access with
  | .read => setFile h (some { name, record := 1, writing := false })
  | .write =>
    modifyMachine fun m => { m with store := deleteRecords name maxRecords 1 store }
    setFile h (some { name, record := 1, writing := true })
  | .append =>
    setFile h (some { name, record := missingRecord name store maxRecords 1, writing := true })
  return .next

def close : Exec σ Flow := do
  let h ← handle
  read Cursor.expectEnd
  setFile h none
  return .next

/-- The letters of a list separated by commas, the first of which has been read. -/
def moreLetters : (fuel : Nat) → Action Cursor (List Letter)
  | 0 => return []
  | fuel + 1 => do
    if ← Cursor.accept (Ascii.code ',') then
      let name ← Cursor.letter
      return name :: (← moreLetters fuel)
    else return []

def letters : Action Cursor (List Letter) := do
  let name ← Cursor.letter
  return name :: (← moreLetters (← get).length)

def readFile : Exec σ Flow := do
  let h ← handle
  let file ← fileBehind h false
  match (← machine).store.record? (.file file.name file.record) with
  | none => throw .endOfFile
  | some data =>
    let names ← read letters
    read Cursor.expectEnd
    loadAll names data
    setFile h (some { file with record := file.record + 1 })
    return .next

/-- The array that stands alone as an item of WRITE. -/
def aloneArray? (m : Machine σ) (c : Cursor) : Option ArrayFrame :=
  let rest := c.advance.skipBlanks
  if rest.peek = Ascii.code ',' ∨ rest.atEnd then (Letter.ofByte? c.peek).bind m.array? else none

/-- The bytes of one item of WRITE: those of an array, or of the value of an expression. A comma
after it is read. -/
def writeItem : Exec σ (List UInt8) := do
  read (modify Cursor.skipBlanks)
  let c := (← get).unread
  let m ← machine
  match aloneArray? m c with
  | some a =>
    turnTo c.advance
    let _ ← read (Cursor.accept (Ascii.code ','))
    return m.arena.bytes a.block
  | none => return LittleEndian.ofInt32 (← eval .comma)

/-- Reads the items of WRITE. Each takes at least one byte, so one more than the length of the text
is enough `fuel`. -/
def writeItems : (fuel : Nat) → (data : List UInt8) → Exec σ (List UInt8)
  | 0, _ => throw .general
  | fuel + 1, data => do
    let data := data ++ (← writeItem)
    read (modify Cursor.skipBlanks)
    if (← get).unread.atEnd then return data else writeItems fuel data

def writeFile : Exec σ Flow := do
  let h ← handle
  let file ← fileBehind h true
  let data ← writeItems ((← get).unread.length + 1) []
  putRecord (.file file.name file.record) data
  setFile h (some { file with record := file.record + 1 })
  return .next

end Exec

end FlashBasic
