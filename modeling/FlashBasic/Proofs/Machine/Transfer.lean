import FlashBasic.Proofs.Expr.Evaluation
import FlashBasic.Proofs.Expr.Lexing
import FlashBasic.Proofs.Machine.Recording
import FlashBasic.Proofs.Machine.Shadowing
import Mathlib.Data.List.DropRight
import Mathlib.Data.List.Pairwise
import Mathlib.Data.List.TakeWhile

/-!
Values on their way between variables and records. A record is the bytes of its values one after
the other, without lengths or kinds, so what is read of it depends on the variables that it is read
into. Into variables of the same shapes as the values, `Exec.loadAll` gives the values back
(`Exec.exec_loadAll`), and the values of a plain list of letters are those that the letters stand for
(`Exec.exec_itemValues`).
-/

namespace FlashBasic

set_option autoImplicit false

/-- The number of elements of an array; a scalar has none. -/
def Binding.shape : Binding → Option Nat
  | .scalar _ => none
  | .array bytes => some bytes.length

/-- What letters stand for once values have been given to some of them, one after the other. -/
def assigned (env : Letter → Binding) (names : List Letter) (values : List Binding) :
    Letter → Binding :=
  (names.zip values).foldl (fun env x => Function.update env x.1 x.2) env

/-! ## Blocks of arrays -/

namespace Arena

variable {arena : Arena} {name : Letter} {a b : ArrayFrame}

theorem mem_of_array? (h : arena.array? name = some a) : .array a ∈ arena.frames ∧ a.name = name := by
  obtain ⟨above, below, hframes, hname, -⟩ := innermost_of_array? h
  exact ⟨by simp [hframes], hname⟩

theorem mem_arrayBlocks {frames : List Frame} (h : .array a ∈ frames) :
    a.block ∈ arrayBlocks frames :=
  List.mem_filterMap.mpr ⟨_, h, rfl⟩

namespace Ordered

theorem block_le (h : arena.Ordered) (ha : .array a ∈ arena.frames) :
    a.block.start + a.block.size ≤ arena.mem.size := by
  have hwithin := (h.occupied.within _ (List.mem_append_left _ (mem_arrayBlocks ha))).2
  have htop := h.heapTop_le
  have hstack := h.stack
  have hfits := h.fits
  omega

theorem length_bytes (h : arena.Ordered) (ha : .array a ∈ arena.frames) :
    (arena.bytes a.block).length = a.block.size :=
  Memory.length_slice _ _ _ (h.block_le ha)

theorem bytes_write (h : arena.Ordered) (ha : .array a ∈ arena.frames) {data : List UInt8}
    (hdata : data.length = a.block.size) :
    (arena.write a.block.start data).bytes a.block = data := by
  have hle := h.block_le ha
  apply List.ext_getElem?
  intro k
  rw [bytes, Memory.getElem?_slice, Arena.write, Memory.overwrite, Memory.getElem?_combine]
  by_cases hk : k < a.block.size
  · rw [if_pos hk, if_pos (by omega), Array.getElem?_eq_getElem (by omega), Nat.add_sub_cancel_left,
      Option.map_some, List.getD_eq_getElem _ _ (by omega), List.getElem?_eq_getElem (by omega)]
  · rw [if_neg hk, List.getElem?_eq_none (by omega)]

theorem apart (h : arena.Ordered) (ha : .array a ∈ arena.frames) (hb : .array b ∈ arena.frames)
    (hne : a ≠ b) : a.block.Apart b.block := by
  have hblocks := (List.pairwise_append.mp h.occupied.apart).1
  rw [arrayBlocks, List.pairwise_filterMap] at hblocks
  have hsymm : Std.Symm fun f g : Frame =>
      ∀ c, f.block? = some c → ∀ d, g.block? = some d → c.Apart d :=
    ⟨fun f g hfg d hd c hc => (hfg c hc d hd).symm⟩
  exact hblocks.forall ha hb (by simpa using hne) _ rfl _ rfl

end Ordered

end Arena

/-! ## Loading -/

namespace Machine

variable {σ : Type} {m m' : Machine σ} {name : Letter}

theorem binding_of_array? {a : ArrayFrame} (h : m.array? name = some a) :
    m.binding name = .array (m.arena.bytes a.block) := by
  unfold array? at h
  simp only [binding, Variables.binding, h]

theorem binding_of_array?_eq_none (h : m.array? name = none) :
    m.binding name = .scalar (m.vars.get name) := by
  unfold array? at h
  simp only [binding, Variables.binding, h]

theorem Alike.binding (h : m.Alike m') : m'.binding = m.binding := by
  obtain ⟨host, rfl⟩ := h
  rfl

theorem mem_of_array? {a : ArrayFrame} (h : m.array? name = some a) :
    .array a ∈ m.arena.frames ∧ a.name = name := by
  unfold array? Variables.array? at h
  split at h
  · exact Arena.mem_of_array? h
  · cases h

theorem binding_write (h : m.arena.Ordered) {a : ArrayFrame} (ha : m.array? name = some a)
    {data : List UInt8} (hdata : data.length = a.block.size) :
    binding { m with arena := m.arena.write a.block.start data } =
      Function.update m.binding name (.array data) := by
  obtain ⟨hmem, hname⟩ := mem_of_array? ha
  have harray (other : Letter) :
      array? { m with arena := m.arena.write a.block.start data } other = m.array? other := rfl
  funext other
  by_cases hother : other = name
  · subst hother
    rw [Function.update_self, binding_of_array? ((harray _).trans ha), h.bytes_write hmem hdata]
  rw [Function.update_of_ne hother]
  cases hb : m.array? other with
  | none => rw [binding_of_array?_eq_none ((harray _).trans hb), binding_of_array?_eq_none hb]
  | some b =>
    obtain ⟨hmem', hname'⟩ := mem_of_array? hb
    have hapart := h.apart hmem' hmem fun hab => hother (by rw [← hname', ← hname, hab])
    rw [binding_of_array? ((harray _).trans hb), binding_of_array? hb, Arena.bytes_write_of_apart]
    rwa [hdata]

theorem binding_set (h : m.array? name = none) (value : Int32) :
    binding { m with vars := m.vars.set name value } =
      Function.update m.binding name (.scalar value) := by
  have harray (other : Letter) :
      array? { m with vars := m.vars.set name value } other = m.array? other := rfl
  funext other
  by_cases hother : other = name
  · subst hother
    rw [Function.update_self, binding_of_array?_eq_none ((harray _).trans h)]
    simp [Variables.get, Variables.set]
  rw [Function.update_of_ne hother]
  have hslot : name.slot.val ≠ other.slot.val := fun hslot => hother (by
    cases name
    cases other
    exact congrArg _ (Fin.ext hslot.symm))
  cases hb : m.array? other with
  | none =>
    rw [binding_of_array?_eq_none ((harray _).trans hb), binding_of_array?_eq_none hb]
    simp [Variables.get, Variables.set, hslot]
  | some b => rw [binding_of_array? ((harray _).trans hb), binding_of_array? hb]

end Machine

namespace Exec

open Machine (Alike)

variable {σ : Type} [Host σ] {t : Execution σ}

theorem exec_notify (a : ArrayFrame) (t : Execution σ) :
    ∃ host, (notify a).exec t = (.ok (), { t with machine := { t.machine with host } }) := by
  unfold notify
  split
  · exact ⟨_, rfl⟩
  · exact ⟨_, rfl⟩

theorem exec_load (h : t.machine.arena.Ordered) {name : Letter} {value : Binding}
    (hshape : (t.machine.binding name).shape = value.shape) (rest : List UInt8) :
    ∃ m', (load name (value.bytes ++ rest)).exec t = (.ok rest, { t with machine := m' }) ∧
      m'.arena.Ordered ∧ m'.binding = Function.update t.machine.binding name value := by
  rw [load, Action.exec_bind, exec_machine]
  dsimp only
  cases ha : t.machine.array? name with
  | some a =>
    rw [Machine.binding_of_array? ha] at hshape
    cases value with
    | scalar v => cases hshape
    | array bytes =>
      have hlength : bytes.length = a.block.size := by
        rw [← h.length_bytes (Machine.mem_of_array? ha).1]
        exact (Option.some.inj hshape).symm
      have htake : (bytes ++ rest).take a.block.size = bytes := List.take_left' hlength
      have hdrop : (bytes ++ rest).drop a.block.size = rest := List.drop_left' hlength
      simp only [Binding.bytes, htake, hdrop, Action.exec_bind, exec_modifyMachine]
      obtain ⟨host, hnotify⟩ := exec_notify a
        { t with machine := { t.machine with arena := t.machine.arena.write a.block.start bytes } }
      rw [hnotify]
      exact ⟨_, rfl, h.write _ _, Machine.binding_write h ha hlength⟩
  | none =>
    rw [Machine.binding_of_array?_eq_none ha] at hshape
    cases value with
    | array bytes => cases hshape
    | scalar v =>
      have htake : (LittleEndian.ofInt32 v ++ rest).take 4 = LittleEndian.ofInt32 v := rfl
      have hvalue : LittleEndian.toInt32 (LittleEndian.ofInt32 v) = v := by
        have hround := LittleEndian.toUInt32_ofUInt32 v.toUInt32 []
        rw [List.append_nil] at hround
        rw [LittleEndian.toInt32, LittleEndian.ofInt32, hround]
        rfl
      refine ⟨_, rfl, h, ?_⟩
      dsimp only [Binding.bytes]
      rw [htake, hvalue]
      exact Machine.binding_set ha v

theorem exec_loadAll (h : t.machine.arena.Ordered) {names : List Letter} {values : List Binding}
    (hshapes : names.map (fun name => (t.machine.binding name).shape) = values.map Binding.shape) :
    ∃ m', (loadAll names (values.flatMap Binding.bytes)).exec t =
        (.ok (), { t with machine := m' }) ∧
      m'.binding = assigned t.machine.binding names values := by
  induction names generalizing t values with
  | nil => exact ⟨t.machine, rfl, rfl⟩
  | cons name names ih =>
    cases values with
    | nil => cases hshapes
    | cons value values =>
      obtain ⟨hshape, hrest⟩ := List.cons.inj hshapes
      obtain ⟨m₁, hload, hordered, hbinding⟩ :=
        exec_load h hshape (values.flatMap Binding.bytes)
      -- The variable keeps its shape, so the shapes of the others still fit.
      have hshapes₁ (other : Letter) :
          (m₁.binding other).shape = (t.machine.binding other).shape := by
        rw [hbinding, Function.update_apply]
        split
        next heq =>
          rw [heq]
          exact hshape.symm
        next => rfl
      have hrest₁ : names.map (fun name => (m₁.binding name).shape) = values.map Binding.shape := by
        simpa only [hshapes₁] using hrest
      obtain ⟨m', hloads, hassigned⟩ := ih (t := { t with machine := m₁ }) hordered hrest₁
      refine ⟨m', ?_, ?_⟩
      · rw [loadAll, Action.exec_bind, List.flatMap_cons, hload]
        exact hloads
      · rw [hassigned, hbinding]
        rfl

end Exec

/-! ## Lists of letters -/

theorem Expr.evaluate_letter {σ : Type} [Sensors σ] {env : Letter → Binding} {name : Letter}
    {v : Int32} (h : env name = .scalar v) {mode : Mode} {c rest : Cursor} (hends : Ends mode c rest) :
    (evaluate env mode (name.byte :: c) : Action σ _) = pure (v, rest) := by
  show (complete env mode {} (name.byte :: c) : Action σ _) = _
  rw [complete_of_next (next_letter name c)]
  simp only [absorb, h]
  exact complete_ends hends v rfl

namespace Cursor

/-- An item of a list ends at a comma or with the line, and `after` is left. -/
inductive ItemEnds : (rest after : Cursor) → Prop where
  | comma {rest after : Cursor} (h : rest.skipBlanks = Ascii.code ',' :: after) : ItemEnds rest after
  | last {rest : Cursor} (h : rest.skipBlanks.atEnd = true) : ItemEnds rest rest.skipBlanks

/-- The text consists of letters with commas between them. -/
inductive LetterList : Cursor → List Letter → Prop where
  | last {c rest : Cursor} {name : Letter} (hname : c.skipBlanks = name.byte :: rest)
      (hend : rest.skipBlanks.atEnd = true) : LetterList c [name]
  | cons {c rest after : Cursor} {name : Letter} {names : List Letter}
      (hname : c.skipBlanks = name.byte :: rest)
      (hcomma : rest.skipBlanks = Ascii.code ',' :: after) (h : LetterList after names) :
      LetterList c (name :: names)

theorem skipBlanks_skipBlanks (c : Cursor) : c.skipBlanks.skipBlanks = c.skipBlanks :=
  List.dropWhile_idempotent _ _

theorem ItemEnds.ends {rest after : Cursor} (h : ItemEnds rest after) :
    Expr.Ends .comma rest after := by
  have hgap : rest = rest.takeWhile Ascii.isBlank ++ rest.skipBlanks :=
    (List.takeWhile_append_dropWhile ..).symm
  have hblank : ∀ b ∈ rest.takeWhile Ascii.isBlank, Ascii.isBlank b = true :=
    fun b hb => List.mem_takeWhile_imp hb
  cases h with
  | comma h =>
    rw [hgap, h]
    exact .comma ⟨_, hblank⟩ after
  | last h =>
    have hstops : Expr.Stops rest.skipBlanks := by
      cases hrest : rest.skipBlanks with
      | nil => trivial
      | cons b bs =>
        rw [hrest] at h
        exact .inl (by simpa [atEnd, peek] using h)
    nth_rewrite 1 [hgap]
    exact .stop .comma ⟨_, hblank⟩ hstops

theorem LetterList.skipBlanks {c : Cursor} {names : List Letter} (h : LetterList c names) :
    LetterList c.skipBlanks names := by
  cases h with
  | last hname hend => exact .last (by rwa [skipBlanks_skipBlanks]) hend
  | cons hname hcomma h => exact .cons (by rwa [skipBlanks_skipBlanks]) hcomma h

theorem LetterList.not_atEnd {c : Cursor} {names : List Letter} (h : LetterList c names) :
    c.skipBlanks.atEnd = false := by
  have hbyte (name : Letter) : (name.byte == Ascii.newline) = false := by
    obtain ⟨slot⟩ := name
    revert slot
    decide
  cases h with
  | last hname _ =>
    rw [hname]
    exact hbyte _
  | cons hname _ _ =>
    rw [hname]
    exact hbyte _

theorem LetterList.length_le {c : Cursor} {names : List Letter} (h : LetterList c names) :
    names.length ≤ c.length := by
  induction h with
  | @last c _ _ hname _ =>
    have hskip := c.length_dropWhile_le Ascii.isBlank
    rw [show c.dropWhile Ascii.isBlank = _ from hname] at hskip
    simp only [List.length_cons, List.length_nil] at hskip ⊢
    omega
  | @cons c rest after _ _ hname hcomma _ ih =>
    have hskip := c.length_dropWhile_le Ascii.isBlank
    have hskip' := rest.length_dropWhile_le Ascii.isBlank
    rw [show c.dropWhile Ascii.isBlank = _ from hname] at hskip
    rw [show rest.dropWhile Ascii.isBlank = _ from hcomma] at hskip'
    simp only [List.length_cons] at hskip hskip' ⊢
    omega

end Cursor

namespace Exec

variable {σ : Type} [Host σ] {t : Execution σ}

theorem exec_itemValue {name : Letter} {rest after : Cursor}
    (hname : t.unread.skipBlanks = name.byte :: rest) (hends : Cursor.ItemEnds rest after) :
    itemValue.exec t = (.ok (t.machine.binding name), { t with unread := after }) := by
  have halone : aloneArray? t.machine (name.byte :: rest) = t.machine.array? name := by
    have hends' : rest.skipBlanks.peek = Ascii.code ',' ∨ rest.skipBlanks.atEnd = true := by
      cases hends with
      | comma h => exact .inl (by rw [h]; rfl)
      | last h => exact .inr h
    unfold aloneArray?
    dsimp only [Cursor.advance, List.tail_cons]
    rw [if_pos hends']
    simp [Cursor.peek, (Expr.letter_facts name).2.2.1]
  have haccept : ((Cursor.accept (Ascii.code ',')).exec rest).2 = after := by
    cases hends with
    | comma h => simp [Cursor.accept, h, Cursor.peek, Cursor.advance]
    | last h =>
      have hne : rest.skipBlanks.peek ≠ Ascii.code ',' := by
        rw [show rest.skipBlanks.peek = _ from eq_of_beq h]
        decide
      simp [Cursor.accept, hne]
  unfold itemValue
  simp only [Action.exec_bind, exec_read, Action.exec_modify, Action.exec_get, exec_machine, hname,
    halone]
  cases ha : t.machine.array? name with
  | some a =>
    simp only [Action.exec_bind, exec_turnTo, exec_read, Cursor.advance, List.tail_cons]
    rw [Machine.binding_of_array? ha, haccept]
    rfl
  | none =>
    have hscalar := Machine.binding_of_array?_eq_none ha
    have heval := Expr.evaluate_letter (σ := σ) hscalar hends.ends
    simp only [Action.exec_bind, eval, Action.exec_get, Action.exec_zoom, heval, Action.exec_pure,
      exec_turnTo, hscalar]

/-- The values of a list of letters are what the letters stand for. -/
theorem exec_itemValues {names : List Letter} (h : Cursor.LetterList t.unread names) {fuel : Nat}
    (hfuel : names.length ≤ fuel) :
    ∃ rest, (itemValues fuel).exec t = (.ok (names.map t.machine.binding), { t with unread := rest }) := by
  induction names generalizing t fuel with
  | nil => cases h
  | cons name names ih =>
    obtain _ | fuel := fuel
    · cases hfuel
    cases h with
    | @last _ rest _ hname hend =>
      rw [itemValues, Action.exec_bind, exec_itemValue hname (.last hend)]
      simp only [Action.exec_bind, exec_read, Action.exec_modify, Action.exec_get,
        Cursor.skipBlanks_skipBlanks, hend]
      exact ⟨_, rfl⟩
    | @cons _ rest after _ _ hname hcomma hlist =>
      obtain ⟨last, hlast⟩ := ih (t := { t with unread := after.skipBlanks }) hlist.skipBlanks
        (Nat.le_of_succ_le_succ hfuel)
      rw [itemValues, Action.exec_bind, exec_itemValue hname (.comma hcomma)]
      simp only [Action.exec_bind, exec_read, Action.exec_modify, Action.exec_get, hlist.not_atEnd]
      rw [if_neg (by decide), Action.exec_bind, hlast]
      exact ⟨last, rfl⟩

end Exec

namespace Cursor

theorem eq_cons_of_letter {c c' : Cursor} {name : Letter} (h : letter.exec c = (.ok name, c')) :
    c.skipBlanks = name.byte :: c' := by
  simp only [letter, Action.exec_bind, Action.exec_modify, Action.exec_get] at h
  cases hname : Letter.ofByte? c.skipBlanks.peek with
  | none =>
    rw [hname] at h
    cases h
  | some name' =>
    rw [hname] at h
    cases h
    have hpeek := Letter.eq_byte_of_ofByte? hname
    cases hskip : c.skipBlanks with
    | nil =>
      rw [hskip] at hname
      cases hname
    | cons b rest =>
      rw [hskip] at hpeek
      rw [show b = name.byte from hpeek]
      rfl

theorem atEnd_of_expectEnd {c c' : Cursor} (h : expectEnd.exec c = (.ok (), c')) :
    c.skipBlanks.atEnd = true := by
  simp only [expectEnd, Action.exec_bind, Action.exec_modify, Action.exec_get] at h
  by_contra hnot
  rw [if_neg hnot] at h
  cases h

theorem letterList_of_moreLetters {fuel : Nat} {c c' c₀ : Cursor} {name : Letter}
    {names : List Letter} (h : (Exec.moreLetters fuel).exec c = (.ok names, c'))
    (hend : c'.skipBlanks.atEnd = true) (hname : c₀.skipBlanks = name.byte :: c) :
    LetterList c₀ (name :: names) := by
  induction fuel generalizing c c₀ name names with
  | zero =>
    cases h
    exact .last hname hend
  | succ fuel ih =>
    rw [Exec.moreLetters, Action.exec_bind] at h
    simp only [accept, Action.exec_update] at h
    by_cases hcomma : c.skipBlanks.peek = Ascii.code ','
    · simp only [if_pos hcomma] at h
      obtain ⟨name', c₁, hletter, hmore⟩ := Action.exec_bind_eq_ok.mp h
      obtain ⟨names', c₂, hmore, hpure⟩ := Action.exec_bind_eq_ok.mp hmore
      cases hpure
      have hlist := ih hmore (eq_cons_of_letter hletter)
      cases hskip : c.skipBlanks with
      | nil =>
        rw [hskip] at hcomma
        cases hcomma
      | cons b rest =>
        rw [hskip] at hcomma hlist
        obtain rfl : b = Ascii.code ',' := hcomma
        exact .cons hname hskip hlist
    · simp only [if_neg hcomma] at h
      cases h
      rw [skipBlanks_skipBlanks] at hend
      exact .last hname hend

theorem letterList_of_letters {c c' c'' : Cursor} {names : List Letter}
    (h : Exec.letters.exec c = (.ok names, c')) (hend : expectEnd.exec c' = (.ok (), c'')) :
    LetterList c names := by
  obtain ⟨name, c₁, hletter, hmore⟩ := Action.exec_bind_eq_ok.mp h
  obtain ⟨fuel, c₂, hget, hmore⟩ := Action.exec_bind_eq_ok.mp hmore
  cases hget
  obtain ⟨names', c₃, hmore, hpure⟩ := Action.exec_bind_eq_ok.mp hmore
  cases hpure
  exact letterList_of_moreLetters hmore (atEnd_of_expectEnd hend) (eq_cons_of_letter hletter)

end Cursor

end FlashBasic
