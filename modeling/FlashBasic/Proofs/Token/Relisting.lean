import FlashBasic.Proofs.Text
import FlashBasic.Proofs.Token.Listing

/-!
Reading a listing. `Cut text tokens` says how a prepared text falls into words, literals, blanks and
plain text, and what tokens these give.

* `fuses` finds the places where a listing runs parts of the text together: two symbols, or plain
  text and the word after it.
* `Cut.source`: what a listing starts with stands in the text, or it goes on in a word.
* `Cut.code_listed`: a listing gives back its tokens exactly where it runs nothing together.
-/

namespace FlashBasic

set_option autoImplicit false

open Ascii (newline isBlank isQuote isUpper isLower)

namespace Lexer

/-! ## Words that run together -/

/-- Two symbols of which the first reads as something else when the second follows it. -/
def clashes (t u : Token) : Bool :=
  t ≠ .constant && u ≠ .constant &&
    (Spelling.ofToken t).isSymbol && (Spelling.ofToken u).isSymbol &&
    longest? (Ascii.bytes t.word ++ Ascii.bytes u.word) ≠ some (.ofToken t)

/-- Plain text and a word after it that read as another word when nothing stands between them. -/
def runOns : List (String × String) :=
  [("!", "="), ("!", "=="),
    ("LIM_DISC_ADV_INT_", "MIN_CONN_INTERVAL"), ("LIM_DISC_ADV_INT_", "MAX_CONN_INTERVAL"),
    ("GEN_DISC_ADV_INT_", "MIN_CONN_INTERVAL"), ("GEN_DISC_ADV_INT_", "MAX_CONN_INTERVAL")]

def runsOn (tokens : List UInt8) : Bool :=
  runOns.any fun (stem, word) =>
    (longest? (Ascii.bytes word)).any fun s => (Ascii.bytes stem ++ s.coded).isPrefixOf tokens

/-- What a byte of token text is part of. -/
inductive Spot where
  /-- Tokens and plain text; `inRun` says that the byte before was a capital letter. -/
  | plain (inRun : Bool)
  | quoted (quote : UInt8)
  /-- The number of a constant. -/
  | payload

def Spot.after : Spot → UInt8 → Spot
  | .plain _, b =>
    if isQuote b then .quoted b
    else if b = Token.constant.byte then .payload
    else .plain (isUpper b)
  | .quoted quote, b => if b = quote then .plain false else .quoted quote
  | .payload, _ => .plain false

/-- The text starts with something that the listing runs together. -/
def fusesAt : Spot → List UInt8 → Bool
  | .plain inRun, b :: rest =>
    (Token.ofByte? b).any (fun t => (rest.head?.bind Token.ofByte?).any (clashes t)) ||
      (!(inRun && isUpper b) && runsOn (b :: rest))
  | _, _ => false

/-- The listing runs some part of the text together. -/
def fuses : Spot → List UInt8 → Bool
  | _, [] => false
  | spot, b :: rest => fusesAt spot (b :: rest) || fuses (spot.after b) rest

/-! ## Cutting up a line -/

/-- The plain bytes that are read in one step: all the capital letters before the rest, or one byte
of another kind. -/
def Together (b : UInt8) (run rest : List UInt8) : Prop :=
  (isUpper b = false ∧ run = []) ∨
    ((∀ a ∈ b :: run, isUpper a = true) ∧ ∀ a ∈ rest.head?, isUpper a = false)

/-- The pieces of a prepared text, and the tokens that they give. -/
inductive Cut : List UInt8 → List UInt8 → Prop
  | nil : Cut [] []
  | unclosed {quote : UInt8} {body : List UInt8} (hquote : isQuote quote = true)
      (hbody : quote ∉ body) (hplain : ∀ a ∈ body, Quotable a) : Cut (quote :: body) (quote :: body)
  | closed {quote : UInt8} {body rest tokens : List UInt8} (hquote : isQuote quote = true)
      (hbody : quote ∉ body) (hplain : ∀ a ∈ body, Quotable a) (h : Cut rest tokens) :
      Cut (quote :: (body ++ quote :: rest)) (quote :: (body ++ quote :: tokens))
  /-- A word, with the blanks before it and after it. -/
  | word {blanks rest tokens : List UInt8} {s : Spelling} (hblanks : ∀ a ∈ blanks, isBlank a = true)
      (hlongest : longest? (s.word ++ rest) = some s) (h : Cut (rest.dropWhile isBlank) tokens) :
      Cut (blanks ++ (s.word ++ rest)) (s.coded ++ tokens)
  /-- Blanks that are not next to a word. -/
  | blank {b : UInt8} {rest tokens : List UInt8} (hb : isBlank b = true)
      (hnone : longest? (rest.dropWhile isBlank) = none) (h : Cut (rest.dropWhile isBlank) tokens) :
      Cut (b :: rest) (Ascii.code ' ' :: tokens)
  /-- Plain text. -/
  | run {b : UInt8} {run rest tokens : List UInt8} (hsolid : ∀ a ∈ b :: run, solid a = true)
      (hrun : Together b run rest) (hnone : longest? (b :: run ++ rest) = none) (h : Cut rest tokens) :
      Cut (b :: run ++ rest) (b :: run ++ tokens)

theorem folded_dropWhile {p : UInt8 → Bool} (hp : ∀ b, p b = true → isQuote b = false)
    {text : List UInt8} (h : Folded none text) : Folded none (text.dropWhile p) := by
  rw [← List.takeWhile_append_dropWhile (p := p) (l := text)] at h
  exact ((folded_plain_append fun a ha => hp a (List.mem_takeWhile_imp ha)).mp h).2

theorem solid_of_plain {b : UInt8} (hblank : isBlank b = false) (hquote : isQuote b = false)
    (h : b < 0x80 ∧ b ≠ newline ∧ b ≠ Ascii.code '\r' ∧ isLower b = false) : solid b = true := by
  simp [solid, hblank, hquote, h]

/-- A text that starts with a word gives a word after any blanks. -/
theorem Cut.after_blanks {blanks text tokens : List UInt8} (h : Cut text tokens)
    (hword : (longest? text).isSome = true) (hblanks : ∀ a ∈ blanks, isBlank a = true) :
    Cut (blanks ++ text) tokens := by
  cases h with
  | nil => cases hword
  | unclosed hquote | closed hquote =>
    rw [longest?_eq_none_of_not_solid (by simp [solid, hquote])] at hword
    cases hword
  | word hblanks' hlongest h =>
    rw [← List.append_assoc]
    refine .word (fun a ha => ?_) hlongest h
    exact (List.mem_append.mp ha).elim (hblanks a) (hblanks' a)
  | blank hb =>
    rw [longest?_eq_none_of_not_solid (by simp [solid, hb])] at hword
    cases hword
  | run _ _ hnone =>
    rw [hnone] at hword
    cases hword

theorem cut_code {text : List UInt8} (h : Folded none text) : Cut text (code text) := by
  fun_induction code text with
  | case1 => exact .nil
  | case2 b rest hquote ih =>
    rw [folded_open hquote] at h
    obtain ⟨body, tail, hbody, rfl, hliteral⟩ | ⟨hrest, hliteral⟩ := literal_cases b rest
    · obtain ⟨hplain, h⟩ := (folded_inside hbody).mp h
      rw [hliteral] at ih ⊢
      simpa using Cut.closed hquote hbody hplain (ih ((folded_close hquote).mp h))
    · rw [← List.append_nil rest] at h
      obtain ⟨hplain, -⟩ := (folded_inside hrest).mp h
      rw [hliteral]
      simpa using Cut.unclosed hquote hrest hplain
  | case3 b rest hquote s hs ih =>
    obtain ⟨hmem, ⟨tail, htail⟩, -⟩ := longest?_eq_some.mp hs
    have hdrop : (b :: rest).drop s.word.length = tail := by simp [← htail]
    have hword : ∀ a ∈ s.word, isQuote a = false := fun a ha =>
      (solid_facts (List.all_eq_true.mp (spelling_facts s hmem).2.1 a ha)).2.2.1
    rw [hdrop] at ih ⊢
    rw [← htail] at h hs ⊢
    have hblank := fun a (ha : isBlank a = true) => (facts_of_isBlank ha).1
    have hcut := ih (folded_dropWhile hblank ((folded_plain_append hword).mp h).2)
    exact .word (List.forall_mem_nil _) hs hcut
  | case4 b rest hquote hnone hupper ih =>
    obtain ⟨hb, h⟩ := (folded_plain (by simpa using hquote)).mp h
    have hcapitals : ∀ a ∈ b :: rest.takeWhile isUpper, isUpper a = true :=
      List.forall_mem_cons.mpr ⟨hupper, fun a ha => List.mem_takeWhile_imp ha⟩
    have hcut := ih (folded_dropWhile (fun a => not_isQuote_of_isUpper) h)
    have htext := List.takeWhile_append_dropWhile (p := isUpper) (l := rest)
    rw [List.takeWhile_cons_of_pos hupper]
    nth_rewrite 1 [← htext] at hnone ⊢
    exact .run (fun a ha => solid_of_isUpper (hcapitals a ha))
      (.inr ⟨hcapitals, head_dropWhile isUpper rest⟩) hnone hcut
  | case5 b rest hquote hnone hupper hblank hsome ih =>
    have hcut := ih (folded_dropWhile (fun a ha => (facts_of_isBlank ha).1)
      ((folded_plain (by simpa using hquote)).mp h).2)
    have hblanks : ∀ a ∈ b :: rest.takeWhile isBlank, isBlank a = true :=
      List.forall_mem_cons.mpr ⟨hblank, fun a ha => List.mem_takeWhile_imp ha⟩
    simpa using hcut.after_blanks hsome hblanks
  | case6 b rest hquote hnone hupper hblank hnone' ih =>
    have hcut := ih (folded_dropWhile (fun a ha => (facts_of_isBlank ha).1)
      ((folded_plain (by simpa using hquote)).mp h).2)
    exact .blank hblank (by simpa using hnone') hcut
  | case7 b rest hquote hnone hupper hblank ih =>
    obtain ⟨hb, h⟩ := (folded_plain (by simpa using hquote)).mp h
    have hsolid := solid_of_plain (by simpa using hblank) (by simpa using hquote) hb
    exact .run (List.forall_mem_singleton.mpr hsolid) (.inl ⟨by simpa using hupper, rfl⟩) hnone (ih h)

/-! ## What a listing starts with -/

theorem high_of_coded {s : Spelling} (hs : s ∈ spellings) {tokens : List UInt8}
    (h : s.coded <+: tokens) : ∃ a ∈ tokens.head?, ¬ a < 0x80 := by
  obtain ⟨-, -, hne, hhigh, -⟩ := spelling_facts s hs
  obtain ⟨rest, rfl⟩ := h
  obtain ⟨c, tail, hc⟩ := List.exists_cons_of_ne_nil hne
  rw [hc, List.all_cons, Bool.and_eq_true] at hhigh
  exact ⟨c, by simp [hc], by simpa using hhigh.1⟩

theorem solid_of_mem_word {s : Spelling} (hs : s ∈ spellings) : ∀ a ∈ s.word, solid a = true :=
  List.all_eq_true.mp (spelling_facts s hs).2.1

theorem listed_solid {run : List UInt8} (h : ∀ a ∈ run, solid a = true) (last : UInt8)
    (tokens : List UInt8) : listed last (run ++ tokens) = run ++ listed (run.getLastD last) tokens := by
  refine listed_append fun a ha => ?_
  obtain ⟨hhigh, -, hquote, hnewline, -⟩ := solid_facts (h a ha)
  exact ⟨hhigh, hnewline, hquote⟩

theorem listed_blank (last : UInt8) (tokens : List UInt8) :
    listed last (Ascii.code ' ' :: tokens) = Ascii.code ' ' :: listed (Ascii.code ' ') tokens :=
  listed_cons (by decide) (by decide) rfl

/-- Tokens start with a word, or as the text and the listing do. -/
theorem Cut.start {text tokens : List UInt8} (h : Cut text tokens) :
    (∃ s ∈ spellings, s.coded <+: tokens ∧
      ((∃ b ∈ text.head?, isBlank b = true) ∨ (longest? text).isSome = true)) ∨
    (longest? text = none ∧ (∀ last, (listed last tokens).head? = tokens.head?) ∧
      (∀ a ∈ tokens.head?, a < 0x80) ∧
      ((∃ b ∈ text.head?, isBlank b = true) ∧ tokens.head? = some (Ascii.code ' ') ∨
        tokens.head? = text.head?)) := by
  cases h with
  | nil => exact .inr ⟨longest?_nil, by simp, by simp, .inr rfl⟩
  | unclosed hquote | closed hquote =>
    refine .inr ⟨longest?_eq_none_of_not_solid (by simp [solid, hquote]) _, fun last => ?_,
      by simpa using (facts_of_isQuote hquote).1, .inr rfl⟩
    rw [listed_quote hquote]
    rfl
  | @word blanks _ _ _ hblanks hlongest =>
    refine .inl ⟨_, (longest?_eq_some.mp hlongest).1, List.prefix_append _ _, ?_⟩
    cases blanks with
    | nil => exact .inr (by simp [hlongest])
    | cons b blanks => exact .inl ⟨b, rfl, hblanks b List.mem_cons_self⟩
  | blank hb =>
    refine .inr ⟨longest?_eq_none_of_not_solid (by simp [solid, hb]) _, fun last => ?_,
      by simpa using by decide, .inl ⟨⟨_, rfl, hb⟩, rfl⟩⟩
    rw [listed_blank]
    rfl
  | run hsolid hrun hnone =>
    refine .inr ⟨hnone, fun last => ?_, ?_, .inr rfl⟩
    · rw [listed_solid hsolid]
      rfl
    · simpa using (solid_facts (hsolid _ List.mem_cons_self)).1

/-- The start of a listing stands in the text, or it goes on in a word. -/
def Source (last : UInt8) (text tokens start : List UInt8) : Prop :=
  (start <+: text ∧ start <+: tokens) ∨
  ∃ stem tail, ∃ s ∈ spellings, start = stem ++ tail ∧ tail ≠ [] ∧ stem <+: text ∧
    stem ++ s.coded <+: tokens ∧
    (s.isSymbol = true ∨ Listing.separates (stem.getLastD last) = false) ∧
    (tail <+: s.word ∨ s.word <+: tail)

theorem lead_eq_nil {s : Spelling} {last : UInt8} :
    lead s last = [] ↔ s.isSymbol = true ∨ Listing.separates last = false := by
  cases h : s.isSymbol <;> cases h' : Listing.separates last <;> simp [lead, h, h']

theorem lead_cases (s : Spelling) (last : UInt8) : lead s last = [] ∨ lead s last = [Ascii.code ' '] := by
  unfold lead
  split
  · exact .inr rfl
  · exact .inl rfl

theorem Source.nil (last : UInt8) (text tokens : List UInt8) : Source last text tokens [] :=
  .inl ⟨List.nil_prefix, List.nil_prefix⟩

theorem eq_nil_of_not_solid {start rest : List UInt8} {b : UInt8}
    (hsolid : ∀ a ∈ start, solid a = true) (hb : solid b = false) (h : start <+: b :: rest) :
    start = [] := by
  cases start with
  | nil => rfl
  | cons a start =>
    rw [← (List.cons_prefix_cons.mp h).1, hsolid a List.mem_cons_self] at hb
    cases hb

theorem Source.append {last : UInt8} {run text tokens start : List UInt8}
    (h : Source (run.getLastD last) text tokens start) :
    Source last (run ++ text) (run ++ tokens) (run ++ start) := by
  obtain ⟨htext, htokens⟩ | ⟨stem, tail, s, hs, rfl, htail, htext, htokens, hlead, hword⟩ := h
  · exact .inl ⟨by simpa using htext, by simpa using htokens⟩
  · refine .inr ⟨run ++ stem, tail, s, hs, by simp, htail, by simpa using htext,
      by simpa using htokens, ?_, hword⟩
    rwa [getLastD_append]

theorem Cut.source {text tokens : List UInt8} (h : Cut text tokens) {last : UInt8}
    {start : List UInt8} (hsolid : ∀ a ∈ start, solid a = true) (hstart : start <+: listed last tokens) :
    Source last text tokens start := by
  induction h generalizing last start with
  | nil =>
    rw [listed_nil] at hstart
    exact .inl ⟨hstart, hstart⟩
  | unclosed hquote | closed hquote =>
    rw [listed_quote hquote] at hstart
    rw [eq_nil_of_not_solid hsolid (by simp [solid, hquote]) hstart]
    exact Source.nil ..
  | @word blanks rest tokens s hblanks hlongest =>
    obtain ⟨hs, -⟩ := longest?_eq_some.mp hlongest
    obtain ⟨gap, last', hlisted, -⟩ := listed_word hs last tokens
    rw [hlisted] at hstart
    by_cases hstart_nil : start = []
    · exact hstart_nil ▸ Source.nil ..
    obtain hlead | hlead := lead_cases s last
    · rw [hlead, List.nil_append] at hstart
      exact .inr ⟨[], start, s, hs, rfl, hstart_nil, List.nil_prefix, List.prefix_append _ _,
        lead_eq_nil.mp hlead, List.prefix_or_prefix_of_prefix hstart (List.prefix_append _ _)⟩
    · rw [hlead] at hstart
      exact absurd (eq_nil_of_not_solid hsolid (by decide) hstart) hstart_nil
  | blank hb =>
    rw [listed_blank] at hstart
    rw [eq_nil_of_not_solid hsolid (by decide) hstart]
    exact Source.nil ..
  | @run b run rest tokens hraw hrun hnone h ih =>
    rw [listed_solid hraw] at hstart
    obtain hshort | ⟨start', rfl⟩ := List.prefix_or_prefix_of_prefix hstart (List.prefix_append _ _)
    · exact .inl ⟨hshort.trans (List.prefix_append _ _), hshort.trans (List.prefix_append _ _)⟩
    · rw [List.prefix_append_right_inj] at hstart
      exact (ih (fun a ha => hsolid a (List.mem_append_right _ ha)) hstart).append

/-! ## Plain text before a word -/

/-- The words that are listed with no space between `stem` and them. -/
def followers (stem : List UInt8) : List Spelling :=
  if Listing.separates (stem.getLastD 0) then spellings.filter (·.isSymbol) else spellings

theorem crossings_check : (spellings.all fun w => (List.range w.word.length).all fun k => k == 0 ||
    (followers (w.word.take k)).all fun s =>
      !((w.word.drop k).isPrefixOf s.word || s.word.isPrefixOf (w.word.drop k)) ||
      spellings.any (·.word.isPrefixOf (w.word.take k)) ||
      runOns.any fun (stem, word) =>
        Ascii.bytes stem == w.word.take k && longest? (Ascii.bytes word) == some s) = true := by
  decide +kernel

/-- A word that starts in plain text and ends in another word. -/
theorem exists_runOn {w s : Spelling} {stem tail : List UInt8} (hw : w ∈ spellings)
    (hs : s ∈ spellings) (hword : w.word = stem ++ tail) (hstem : stem ≠ []) (htail : tail ≠ [])
    (hlead : s.isSymbol = true ∨ Listing.separates (stem.getLastD 0) = false)
    (hreach : tail <+: s.word ∨ s.word <+: tail) (hplain : ∀ x ∈ spellings, ¬ x.word <+: stem) :
    ∃ r ∈ runOns, Ascii.bytes r.1 = stem ∧ longest? (Ascii.bytes r.2) = some s := by
  have hk : stem.length ∈ List.range w.word.length := by
    simpa [hword] using List.length_pos_of_ne_nil htail
  have hk_pos : (stem.length == 0) = false := by simpa using hstem
  have hfollows : s ∈ followers stem := by
    unfold followers
    split
    next hseparates =>
      exact List.mem_filter.mpr ⟨hs, hlead.resolve_right (Bool.not_eq_false _ ▸ hseparates)⟩
    next => exact hs
  have hreach : (tail.isPrefixOf s.word || s.word.isPrefixOf tail) = true := by simpa using hreach
  have hplain : spellings.any (·.word.isPrefixOf stem) = false := by simpa using hplain
  have hcheck := List.all_eq_true.mp (List.all_eq_true.mp crossings_check w hw) stem.length hk
  rw [hk_pos, Bool.false_or, hword, List.take_left, List.drop_left] at hcheck
  have hcross := List.all_eq_true.mp hcheck s hfollows
  rw [hreach, hplain, Bool.not_true, Bool.false_or, Bool.false_or] at hcross
  obtain ⟨r, hr, hr'⟩ := List.any_eq_true.mp hcross
  exact ⟨r, hr, by simpa using hr'⟩

theorem runsOn_iff {tokens : List UInt8} : runsOn tokens = true ↔ ∃ r ∈ runOns,
    ∃ s, longest? (Ascii.bytes r.2) = some s ∧ Ascii.bytes r.1 ++ s.coded <+: tokens := by
  simp only [runsOn, List.any_eq_true, Option.any_eq_true, List.isPrefixOf_iff_prefix]

theorem runOns_facts : ∀ r ∈ runOns, (Ascii.bytes r.1).all solid = true ∧
    Listing.separates ((Ascii.bytes r.1).getLastD 0) = false ∧ Ascii.bytes r.1 ≠ [] ∧
    ((longest? (Ascii.bytes r.2)).all fun s => (longest? (Ascii.bytes r.1 ++ s.word)).isSome) = true := by
  decide +kernel

theorem longest?_append_isSome {text : List UInt8} (h : (longest? text).isSome = true)
    (rest : List UInt8) : (longest? (text ++ rest)).isSome = true := by
  obtain ⟨s, hs⟩ := Option.isSome_iff_exists.mp h
  obtain ⟨hmem, hword, -⟩ := longest?_eq_some.mp hs
  rw [Option.isSome_iff_ne_none]
  exact fun hnone => longest?_eq_none.mp hnone s hmem (hword.trans (List.prefix_append _ _))

theorem getLastD_of_ne_nil {run : List UInt8} (h : run ≠ []) (a b : UInt8) :
    run.getLastD a = run.getLastD b := by
  obtain ⟨c, tail, rfl⟩ := List.exists_cons_of_ne_nil h
  simp only [List.getLastD_cons]

/-- Plain text is listed as a word exactly where it runs on into the word after it. -/
theorem Cut.longest?_listed {text tokens : List UInt8} (h : Cut text tokens)
    (hnone : longest? text = none) (hlow : ∀ a ∈ tokens.head?, a < 0x80) (last : UInt8) :
    (longest? (listed last tokens)).isSome = runsOn tokens := by
  rw [Bool.eq_iff_iff, runsOn_iff, Option.isSome_iff_exists]
  constructor
  · rintro ⟨w, hw⟩
    obtain ⟨hw, hstart, -⟩ := longest?_eq_some.mp hw
    obtain ⟨htext, -⟩ | ⟨stem, tail, s, hs, hword, htail, htext, htokens, hlead, hreach⟩ :=
      h.source (solid_of_mem_word hw) hstart
    · exact absurd htext (longest?_eq_none.mp hnone w hw)
    have hstem : stem ≠ [] := by
      rintro rfl
      obtain ⟨a, ha, hhigh⟩ := high_of_coded hs htokens
      exact hhigh (hlow a ha)
    rw [getLastD_of_ne_nil hstem last 0] at hlead
    have hplain : ∀ x ∈ spellings, ¬ x.word <+: stem := fun x hx hxstem =>
      longest?_eq_none.mp hnone x hx (hxstem.trans htext)
    obtain ⟨r, hr, hbytes, hs⟩ := exists_runOn hw hs hword hstem htail hlead hreach hplain
    exact ⟨r, hr, s, hs, hbytes ▸ htokens⟩
  · rintro ⟨r, hr, s, hs, tokens', rfl⟩
    obtain ⟨hsolid, hseparates, hne, hfused⟩ := runOns_facts r hr
    rw [hs, Option.all_some] at hfused
    obtain ⟨gap, last', hlisted, -⟩ := listed_word (longest?_eq_some.mp hs).1
      ((Ascii.bytes r.1).getLastD last) tokens'
    have hlead : lead s ((Ascii.bytes r.1).getLastD last) = [] := by
      rw [lead_eq_nil, getLastD_of_ne_nil hne last 0]
      exact .inr hseparates
    rw [← Option.isSome_iff_exists, List.append_assoc, listed_solid (List.all_eq_true.mp hsolid),
      hlisted, hlead, List.nil_append, ← List.append_assoc]
    exact longest?_append_isSome hfused _

/-! ## A symbol before a symbol -/

/-- A symbol that reads as something else together with the symbol after it. -/
def Meets (s : Spelling) (tokens : List UInt8) : Prop :=
  s.isSymbol = true ∧ ∃ u ∈ spellings, u.isSymbol = true ∧ u.coded <+: tokens ∧
    longest? (s.word ++ u.word) ≠ some s

theorem lead_symbol {s : Spelling} (hs : s.isSymbol = true) (last : UInt8) : lead s last = [] :=
  lead_eq_nil.mpr (.inl hs)

theorem isSymbol_of_word_starts {s x : Spelling} (hs : s ∈ spellings) (hx : x ∈ spellings)
    (hsymbol : s.isSymbol = true) (h : s.word <+: x.word) : x.isSymbol = true := by
  by_cases heq : s = x
  · exact heq ▸ hsymbol
  · exact (symbols_of_word_starts hs hx h heq).2.1

/-- A symbol of one byte that a listing starts with is, or starts, the first word of the tokens. -/
theorem Cut.symbol_first {text tokens : List UInt8} (h : Cut text tokens) {last : UInt8}
    {y : Spelling} (hy : y ∈ spellings) (hlength : y.word.length = 1)
    (hstart : y.word <+: listed last tokens) :
    ∃ u ∈ spellings, u.coded <+: tokens ∧ y.word <+: u.word := by
  obtain ⟨htext, htokens⟩ | ⟨stem, tail, u, hu, hword, htail, -, htokens, -, hreach⟩ :=
    h.source (solid_of_mem_word hy) hstart
  · -- the text starts with a word, and so do the tokens, but plain bytes are no word
    obtain ⟨u, hu, hcoded, -⟩ | ⟨hnone, -⟩ := h.start
    · obtain ⟨a, ha, hhigh⟩ := high_of_coded hu hcoded
      obtain ⟨c, hc⟩ := List.length_eq_one_iff.mp hlength
      obtain ⟨rest, rfl⟩ := htokens
      have hsolid := solid_of_mem_word hy c (by simp [hc])
      obtain rfl : c = a := by simpa [hc] using ha
      exact absurd (solid_facts hsolid).1 hhigh
    · exact absurd htext (longest?_eq_none.mp hnone y hy)
  · have htail_pos := List.length_pos_of_ne_nil htail
    rw [hword, List.length_append] at hlength
    obtain rfl : stem = [] := List.length_eq_zero_iff.mp (by omega)
    obtain rfl : y.word = tail := hword
    refine ⟨u, hu, htokens, hreach.elim id fun hshort => ?_⟩
    have hpos := List.length_pos_of_ne_nil (spelling_facts u hu).1
    have hle := hshort.length_le
    rw [List.length_nil] at hlength
    rw [hshort.eq_of_length (by omega)]

/-- A listed word reads as itself unless it meets a symbol. -/
theorem Cut.longest?_word {text tokens : List UInt8} (h : Cut text tokens) {s : Spelling}
    (hs : s ∈ spellings) {gap : List UInt8} (hgap : s.isSymbol = true → gap = []) (last : UInt8) :
    longest? (s.word ++ (gap ++ listed last tokens)) = some s ↔ ¬ Meets s tokens := by
  constructor
  · rintro hlongest ⟨hsymbol, u, hu, husymbol, ⟨rest, rfl⟩, hne⟩
    obtain ⟨gap', last', hlisted, -⟩ := listed_word hu last rest
    rw [hgap hsymbol, List.nil_append, hlisted, lead_symbol husymbol, List.nil_append,
      ← List.append_assoc] at hlongest
    obtain ⟨-, -, hmax⟩ := longest?_eq_some.mp hlongest
    refine hne (longest?_eq_some.mpr ⟨hs, List.prefix_append _ _, fun x hx hxword => ?_⟩)
    exact hmax x hx (hxword.trans (List.prefix_append _ _))
  · intro hmeets
    refine longest?_eq_some.mpr ⟨hs, List.prefix_append _ _, fun x hx hxtext => ?_⟩
    by_contra hlonger
    have hsx : s.word <+: x.word :=
      List.prefix_of_prefix_length_le (List.prefix_append _ _) hxtext (by omega)
    have hne : s ≠ x := by
      rintro rfl
      exact hlonger le_rfl
    obtain ⟨hsymbol, -, y, hy, hysymbol, hlength, hxword⟩ := symbols_of_word_starts hs hx hsx hne
    rw [hgap hsymbol, List.nil_append, hxword, List.prefix_append_right_inj] at hxtext
    obtain ⟨u, hu, hcoded, hyu⟩ := h.symbol_first hy hlength hxtext
    refine hmeets ⟨hsymbol, u, hu, isSymbol_of_word_starts hy hu hysymbol hyu, hcoded, fun hlongest => ?_⟩
    obtain ⟨-, -, hmax⟩ := longest?_eq_some.mp hlongest
    exact hlonger (hmax x hx (by rwa [hxword, List.prefix_append_right_inj]))

/-! ## Text that runs together -/

section

variable {b quote : UInt8} {inRun : Bool} {tokens : List UInt8}

theorem runsOn_of_not_solid (hb : solid b = false) : runsOn (b :: tokens) = false := by
  by_contra hruns
  obtain ⟨r, hr, s, -, hstart⟩ := runsOn_iff.mp (by simpa using hruns)
  obtain ⟨hsolid, -, hne, -⟩ := runOns_facts r hr
  obtain ⟨c, tail, hc⟩ := List.exists_cons_of_ne_nil hne
  rw [hc, List.cons_append, List.cons_prefix_cons] at hstart
  rw [hc, hstart.1, List.all_cons, hb] at hsolid
  cases hsolid

theorem fuses_quote (hquote : isQuote quote = true) :
    fuses (.plain inRun) (quote :: tokens) = fuses (.quoted quote) tokens := by
  obtain ⟨-, -, -, -, htoken⟩ := facts_of_isQuote hquote
  simp [fuses, fusesAt, htoken, runsOn_of_not_solid, solid, hquote, Spot.after]

theorem fuses_quoted {body : List UInt8} (hbody : quote ∉ body) :
    fuses (.quoted quote) (body ++ tokens) = fuses (.quoted quote) tokens := by
  induction body with
  | nil => rfl
  | cons a body ih =>
    obtain ⟨hne, hbody⟩ : quote ≠ a ∧ quote ∉ body := by simpa using hbody
    simp [fuses, fusesAt, Spot.after, hne.symm, ih hbody]

theorem fuses_close : fuses (.quoted quote) (quote :: tokens) = fuses (.plain false) tokens := by
  simp [fuses, fusesAt, Spot.after]

theorem fuses_plain (h : ∀ a ∈ tokens.head?, isUpper a = false) :
    fuses (.plain inRun) tokens = fuses (.plain false) tokens := by
  cases tokens with
  | nil => rfl
  | cons a tokens =>
    have ha : isUpper a = false := h a rfl
    simp [fuses, fusesAt, Spot.after, ha]

theorem fuses_low (hb : b < 0x80) (hquote : isQuote b = false) :
    fuses (.plain inRun) (b :: tokens) =
      (!(inRun && isUpper b) && runsOn (b :: tokens) || fuses (.plain (isUpper b)) tokens) := by
  have htoken : Token.ofByte? b = none := if_pos hb
  have hconstant : b ≠ Token.constant.byte := by
    rintro rfl
    exact absurd hb (by decide)
  simp [fuses, fusesAt, Spot.after, htoken, hquote, hconstant]

theorem fuses_capitals {run : List UInt8} (h : ∀ a ∈ run, isUpper a = true) :
    fuses (.plain true) (run ++ tokens) = fuses (.plain true) tokens := by
  induction run with
  | nil => rfl
  | cons a run ih =>
    obtain ⟨ha, hrun⟩ := List.forall_mem_cons.mp h
    obtain ⟨hhigh, -, hquote, -⟩ := solid_facts (solid_of_isUpper ha)
    rw [List.cons_append, fuses_low hhigh hquote, ha, ih hrun]
    rfl

theorem fuses_run {run : List UInt8} (hsolid : ∀ a ∈ b :: run, solid a = true)
    (hrun : Together b run tokens) :
    fuses (.plain false) (b :: run ++ tokens) =
      (runsOn (b :: run ++ tokens) || fuses (.plain false) tokens) := by
  obtain ⟨hhigh, -, hquote, -⟩ := solid_facts (hsolid b List.mem_cons_self)
  rw [List.cons_append, fuses_low hhigh hquote]
  obtain ⟨hupper, rfl⟩ | ⟨hcapitals, hhead⟩ := hrun
  · simp [hupper]
  · obtain ⟨hb, hrun⟩ := List.forall_mem_cons.mp hcapitals
    rw [hb, fuses_capitals hrun, fuses_plain hhead]
    simp

theorem ofToken_mem {t : Token} (ht : t ≠ .constant) : .ofToken t ∈ spellings :=
  List.mem_append_left _ (List.mem_map.mpr
    ⟨t, List.mem_filter.mpr ⟨t.mem_all, by simpa using ht⟩, rfl⟩)

theorem meets_iff {t : Token} (ht : t ≠ .constant) :
    Meets (.ofToken t) tokens ↔ (tokens.head?.bind Token.ofByte?).any (clashes t) = true := by
  rw [Option.any_eq_true]
  constructor
  · rintro ⟨hsymbol, u, hu, husymbol, ⟨rest, rfl⟩, hne⟩
    obtain ⟨u, huconstant, rfl⟩ | ⟨k, rfl⟩ := mem_spellings hu
    · refine ⟨u, Token.ofByte?_byte u, ?_⟩
      simpa [clashes, ht, huconstant, hsymbol, husymbol] using hne
    · rw [(constant_facts k).2.1] at husymbol
      cases husymbol
  · rintro ⟨u, hbyte, hclashes⟩
    obtain ⟨b, hb, hbyte⟩ := Option.bind_eq_some_iff.mp hbyte
    obtain ⟨rest, rfl⟩ := List.head?_eq_some_iff.mp hb
    obtain rfl := Token.eq_byte_of_ofByte? hbyte
    simp only [clashes, Bool.and_eq_true, decide_eq_true_eq] at hclashes
    obtain ⟨⟨⟨⟨-, hu⟩, hsymbol⟩, husymbol⟩, hne⟩ := hclashes
    exact ⟨hsymbol, .ofToken u, ofToken_mem hu, husymbol, List.prefix_append [u.byte] rest, hne⟩

theorem token_byte_facts (t : Token) : solid t.byte = false ∧ isQuote t.byte = false ∧
    isUpper t.byte = false := by
  have hhigh : ¬ t.byte < 0x80 := by
    intro hlow
    have hnone : Token.ofByte? t.byte = none := if_pos hlow
    rw [Token.ofByte?_byte] at hnone
    cases hnone
  obtain ⟨hupper, -, -, hquote⟩ := facts_of_high hhigh
  exact ⟨by simp [solid, hhigh], hquote, hupper⟩

theorem fuses_word {s : Spelling} (hs : s ∈ spellings) :
    fuses (.plain inRun) (s.coded ++ tokens) = true ↔
      Meets s tokens ∨ fuses (.plain false) tokens = true := by
  obtain ⟨t, ht, rfl⟩ | ⟨k, rfl⟩ := mem_spellings hs
  · obtain ⟨hsolid, hquote, hupper⟩ := token_byte_facts t
    have hbyte : t.byte ≠ Token.constant.byte := Token.byte_injective.ne ht
    rw [meets_iff ht]
    simp [Spelling.ofToken, fuses, fusesAt, Spot.after, Token.ofByte?_byte, hquote, hupper, hbyte,
      runsOn_of_not_solid hsolid]
  · have hmeets : ¬ Meets ⟨Ascii.bytes (namedValues.get k).1,
        [Token.constant.byte, 0x80 ||| k.val.toUInt8]⟩ tokens := by
      rintro ⟨hsymbol, -⟩
      rw [(constant_facts k).2.1] at hsymbol
      cases hsymbol
    obtain ⟨hsolid, hquote, -⟩ := token_byte_facts .constant
    have hclashes : clashes .constant = fun _ => false := by
      funext u
      simp [clashes]
    rw [or_iff_right hmeets]
    simp [fuses, fusesAt, Spot.after, Token.ofByte?_byte, hquote, runsOn_of_not_solid hsolid, hclashes]

theorem runsOn_append_newline : runsOn (tokens ++ [newline]) = runsOn tokens := by
  rw [Bool.eq_iff_iff, runsOn_iff, runsOn_iff]
  refine exists_congr fun r => and_congr_right fun hr => exists_congr fun s => and_congr_right fun hs => ?_
  rw [List.prefix_concat_iff, or_iff_right]
  intro hall
  obtain ⟨-, -, hne, hhigh, -⟩ := spelling_facts s (longest?_eq_some.mp hs).1
  have hlast := congrArg List.getLast? hall
  rw [List.getLast?_append_of_ne_nil _ hne, List.getLast?_concat] at hlast
  have hhigh := List.all_eq_true.mp hhigh newline (List.mem_of_getLast? hlast)
  revert hhigh
  decide

theorem fuses_append_newline {spot : Spot} : fuses spot (tokens ++ [newline]) = fuses spot tokens := by
  induction tokens generalizing spot with
  | nil =>
    have hnewline : Token.ofByte? newline = none := rfl
    cases spot <;> simp [fuses, fusesAt, hnewline, runsOn_of_not_solid (b := newline) rfl]
  | cons b tokens ih =>
    have hat : fusesAt spot (b :: (tokens ++ [newline])) = fusesAt spot (b :: tokens) := by
      have hhead : (tokens ++ [newline]).head?.bind Token.ofByte? = tokens.head?.bind Token.ofByte? := by
        cases tokens <;> rfl
      cases spot with
      | plain inRun => rw [fusesAt, fusesAt, hhead, ← List.cons_append, runsOn_append_newline]
      | quoted quote => rfl
      | payload => rfl
    rw [List.cons_append, fuses, fuses, hat, ih]

end

/-! ## Reading a listing -/

section

variable {text tokens : List UInt8} {last : UInt8}

theorem Cut.tokens_not {p : UInt8 → Bool} (h : Cut text tokens)
    (hp : ∀ b, (¬ b < 0x80 → p b = false) ∧ (isBlank b = true → p b = p (Ascii.code ' ')))
    (htext : ∀ a ∈ text.head?, p a = false) : ∀ a ∈ tokens.head?, p a = false := by
  obtain ⟨s, hs, hcoded, -⟩ | ⟨-, -, -, ⟨⟨b, hb, hblank⟩, hspace⟩ | hsame⟩ := h.start
  · obtain ⟨a, ha, hhigh⟩ := high_of_coded hs hcoded
    rw [Option.mem_def.mp ha]
    simpa using (hp a).1 hhigh
  · rw [hspace]
    simpa [← (hp b).2 hblank] using htext b hb
  · rwa [hsame]

theorem Cut.tokens_not_upper (h : Cut text tokens) (htext : ∀ a ∈ text.head?, isUpper a = false) :
    ∀ a ∈ tokens.head?, isUpper a = false :=
  h.tokens_not (fun _ => ⟨fun hb => (facts_of_high hb).1, fun hb => (facts_of_isBlank hb).2.1⟩) htext

theorem Cut.tokens_low (h : Cut text tokens) (hnone : longest? text = none)
    (hblank : ∀ a ∈ text.head?, isBlank a = false) : ∀ a ∈ tokens.head?, a < 0x80 := by
  obtain ⟨s, hs, -, ⟨b, hb, hb'⟩ | hsome⟩ | ⟨-, -, hlow, -⟩ := h.start
  · rw [hblank b hb] at hb'
    cases hb'
  · rw [hnone] at hsome
    cases hsome
  · exact hlow

theorem head_word {s : Spelling} (hs : s ∈ spellings) (rest : List UInt8) :
    ∃ c ∈ s.word, (s.word ++ rest).head? = some c := by
  obtain ⟨c, tail, hc⟩ := List.exists_cons_of_ne_nil (spelling_facts s hs).1
  exact ⟨c, by simp [hc], by simp [hc]⟩

theorem not_isUpper_of_isSymbol {s : Spelling} (hs : s.isSymbol = true) :
    ∀ a ∈ s.word, isUpper a = false := by
  intro a ha
  have halpha : s.word.any Ascii.isAlpha = false := by simpa [Spelling.isSymbol] using hs
  have ha := List.any_eq_false.mp halpha a ha
  simp only [Ascii.isAlpha, Bool.or_eq_true, not_or] at ha
  simpa using ha.1

theorem Cut.listed_not_upper (h : Cut text tokens) (htext : ∀ a ∈ text.head?, isUpper a = false)
    (hlast : Listing.separates last = true) : ∀ a ∈ (listed last tokens).head?, isUpper a = false := by
  obtain ⟨s, hs, ⟨rest, rfl⟩, -⟩ | ⟨-, hsame, -⟩ := h.start
  · obtain ⟨gap, last', hlisted, -⟩ := listed_word hs last rest
    obtain hlead | hlead := lead_cases s last
    · have hsymbol : s.isSymbol = true := (lead_eq_nil.mp hlead).resolve_right (by simp [hlast])
      obtain ⟨c, hc, hhead⟩ := head_word hs (gap ++ listed last' rest)
      rw [hlisted, hlead, List.nil_append, hhead]
      simpa using not_isUpper_of_isSymbol hsymbol c hc
    · rw [hlisted, hlead]
      simpa using by decide
  · rw [hsame]
    exact h.tokens_not_upper htext

theorem Cut.listed_not_blank (h : Cut text tokens) (htext : ∀ a ∈ text.head?, isBlank a = false)
    (hlast : Listing.separates last = false ∨ tokens.headD newline ∈ closers) :
    ∀ a ∈ (listed last tokens).head?, isBlank a = false := by
  obtain ⟨s, hs, ⟨rest, rfl⟩, -⟩ | ⟨-, hsame, -, ⟨⟨b, hb, hblank⟩, -⟩ | htokens⟩ := h.start
  · have hlast : Listing.separates last = false := by
      refine hlast.resolve_right fun hcloser => ?_
      obtain ⟨a, ha, hhigh⟩ := high_of_coded hs (List.prefix_append _ rest)
      have hlow : ∀ c ∈ closers, c < 0x80 := by simp [closers]; decide
      rw [List.headD_eq_head?_getD, Option.mem_def.mp ha] at hcloser
      exact hhigh (hlow a hcloser)
    obtain ⟨gap, last', hlisted, -⟩ := listed_word hs last rest
    obtain ⟨c, hc, hhead⟩ := head_word hs (gap ++ listed last' rest)
    rw [hlisted, lead_eq_nil.mpr (.inr hlast), List.nil_append, hhead]
    simpa using (solid_facts (solid_of_mem_word hs c hc)).2.1
  · rw [htext b hb] at hblank
    cases hblank
  · rwa [hsame, htokens]

theorem longest?_isSome {s : Spelling} (hs : s ∈ spellings) (rest : List UInt8) :
    (longest? (s.word ++ rest)).isSome = true := by
  rw [Option.isSome_iff_ne_none]
  exact fun hnone => longest?_eq_none.mp hnone s hs (List.prefix_append _ _)

theorem code_lead {s : Spelling} (hs : s ∈ spellings) (last : UInt8) (rest : List UInt8) :
    code (lead s last ++ (s.word ++ rest)) = code (s.word ++ rest) := by
  obtain hlead | hlead := lead_cases s last
  · rw [hlead, List.nil_append]
  · have hblank : ∀ a ∈ (s.word ++ rest).head?, isBlank a = false := by
      obtain ⟨c, hc, hhead⟩ := head_word hs rest
      rw [hhead]
      simpa using (solid_facts (solid_of_mem_word hs c hc)).2.1
    rw [hlead, List.singleton_append, code_blank rfl, dropWhile_of_head hblank,
      if_pos (longest?_isSome hs rest)]

theorem code_run {b : UInt8} {run rest : List UInt8} (hsolid : ∀ a ∈ b :: run, solid a = true)
    (hrun : Together b run rest) (hnone : longest? (b :: run ++ rest) = none) :
    code (b :: run ++ rest) = b :: run ++ code rest := by
  obtain ⟨hupper, rfl⟩ | ⟨hcapitals, hhead⟩ := hrun
  · obtain ⟨-, hblank, hquote, -⟩ := solid_facts (hsolid b List.mem_cons_self)
    exact code_other hquote hupper hblank hnone
  · obtain ⟨hb, hrun⟩ := List.forall_mem_cons.mp hcapitals
    have htake := takeWhile_run hcapitals hhead
    rw [List.cons_append] at hnone htake ⊢
    rw [code_upper hb hnone, dropWhile_run hrun hhead, htake]

theorem code_ne_of_longest? (h : (longest? text).isSome = true)
    (hlow : ∀ a ∈ tokens.head?, a < 0x80) : code text ≠ tokens := by
  rintro rfl
  obtain ⟨s, hs⟩ := Option.isSome_iff_exists.mp h
  obtain ⟨a, ha, hhigh⟩ := high_of_coded (longest?_eq_some.mp hs).1 (List.prefix_append _ _)
  rw [← code_word hs] at ha
  exact hhigh (hlow a ha)

theorem longest?_of_code {s : Spelling} (hs : s ∈ spellings) (h : code text = s.coded ++ tokens)
    (hsome : (longest? text).isSome = true) : longest? text = some s := by
  obtain ⟨x, hx⟩ := Option.isSome_iff_exists.mp hsome
  have hmem := (longest?_eq_some.mp hx).1
  rw [code_word hx] at h
  obtain hshort | hshort := List.prefix_or_prefix_of_prefix (List.prefix_append s.coded tokens)
    (h ▸ List.prefix_append x.coded _)
  · rw [hx, eq_of_coded_starts hs hmem hshort]
  · rw [hx, eq_of_coded_starts hmem hs hshort]

/-- A listing gives back its tokens exactly where it runs nothing together. -/
theorem Cut.code_listed (h : Cut text tokens) (last : UInt8) :
    code (listed last tokens) = tokens ↔ fuses (.plain false) tokens = false := by
  induction h generalizing last with
  | nil => simp [fuses]
  | @unclosed quote body hquote hbody hplain =>
    have hnewline : newline ∉ body := fun hmem => (hplain _ hmem).2.1 rfl
    have hfuses : fuses (.quoted quote) body = false := by
      rw [← List.append_nil body, fuses_quoted hbody, fuses]
    rw [listed_unclosed hquote hbody hnewline, code_quote hquote, literal_unclosed hbody,
      fuses_quote hquote, hfuses]
    simp
  | @closed quote body rest tokens hquote hbody hplain h ih =>
    have hnewline : newline ∉ body := fun hmem => (hplain _ hmem).2.1 rfl
    rw [listed_closed hquote hbody hnewline, code_quote hquote, literal_closed hbody,
      fuses_quote hquote, fuses_quoted hbody, fuses_close, ← ih quote]
    simp
  | @word blanks rest tokens s hblanks hlongest h ih =>
    obtain ⟨hs, -⟩ := longest?_eq_some.mp hlongest
    obtain ⟨gap, last', hlisted, hgap, hnogap, hlast'⟩ := listed_word hs last tokens
    have hafter : (gap ++ listed last' tokens).dropWhile isBlank = listed last' tokens := by
      have hblank : ∀ a ∈ gap, isBlank a = true := by
        obtain rfl | rfl := hgap
        · exact List.forall_mem_nil _
        · exact List.forall_mem_singleton.mpr rfl
      exact dropWhile_run hblank (h.listed_not_blank (head_dropWhile isBlank rest) hlast')
    have hcode (hread : longest? (s.word ++ (gap ++ listed last' tokens)) = some s) :
        code (s.word ++ (gap ++ listed last' tokens)) = s.coded ++ code (listed last' tokens) := by
      rw [code_word hread, List.drop_left, hafter]
    rw [hlisted, code_lead hs, Bool.eq_false_iff, Ne, fuses_word hs, not_or,
      ← h.longest?_word hs hnogap last', Bool.not_eq_true, ← ih last']
    constructor
    · intro heq
      have hread := longest?_of_code hs heq (longest?_isSome hs _)
      rw [hcode hread, List.append_cancel_left_eq] at heq
      exact ⟨hread, heq⟩
    · rintro ⟨hread, heq⟩
      rw [hcode hread, heq]
  | @blank b rest tokens hb hnone h ih =>
    have hstart := head_dropWhile isBlank rest
    have hlow := h.tokens_low hnone hstart
    have hspace : Listing.separates (Ascii.code ' ') = false := rfl
    have hafter := dropWhile_of_head (h.listed_not_blank hstart (.inl hspace))
    have hfuses : fuses (.plain false) (Ascii.code ' ' :: tokens) = fuses (.plain false) tokens := by
      rw [fuses_low (by decide) rfl, runsOn_of_not_solid rfl]
      rfl
    rw [listed_blank, code_blank rfl, hafter, hfuses, ← ih (Ascii.code ' ')]
    split
    next hsome =>
      exact iff_of_false (code_ne_of_longest? hsome (by simpa using by decide))
        (code_ne_of_longest? hsome hlow)
    next => rw [List.cons.injEq, and_iff_right rfl]
  | @run b run rest tokens hsolid hrun hnone h ih =>
    have hlow : ∀ a ∈ (b :: run ++ tokens).head?, a < 0x80 := by
      simpa using (solid_facts (hsolid b List.mem_cons_self)).1
    have hruns := (Cut.run hsolid hrun hnone h).longest?_listed hnone hlow last
    have htokens : Together b run tokens :=
      hrun.imp_right fun ⟨hcapitals, hhead⟩ => ⟨hcapitals, h.tokens_not_upper hhead⟩
    rw [fuses_run hsolid htokens, ← hruns, Bool.or_eq_false_iff]
    cases hread : (longest? (listed last (b :: run ++ tokens))).isSome with
    | true => exact iff_of_false (code_ne_of_longest? hread hlow) (by simp)
    | false =>
      have hlisted : Together b run (listed ((b :: run).getLastD last) tokens) := by
        refine hrun.imp_right fun ⟨hcapitals, hhead⟩ => ⟨hcapitals, h.listed_not_upper hhead ?_⟩
        exact separates_of_isUpper (hcapitals _ (by rw [List.getLastD_cons]; exact List.getLastD_mem_cons))
      rw [Option.isSome_eq_false_iff, Option.isNone_iff_eq_none, listed_solid hsolid] at hread
      rw [listed_solid hsolid, code_run hsolid hlisted hread, List.append_cancel_left_eq, ih]
      simp

theorem folded_solid {run rest : List UInt8} (hrun : ∀ a ∈ run, solid a = true)
    (h : Folded none rest) : Folded none (run ++ rest) := by
  have hfacts := fun a ha => solid_facts (hrun a ha)
  refine (folded_plain_append fun a ha => (hfacts a ha).2.2.1).mpr ⟨fun a ha => ?_, h⟩
  obtain ⟨hhigh, -, -, hnewline, hreturn, hlower⟩ := hfacts a ha
  exact ⟨hhigh, hnewline, hreturn, hlower⟩

theorem folded_space {rest : List UInt8} (h : Folded none rest) :
    Folded none (Ascii.code ' ' :: rest) :=
  (folded_plain rfl).mpr ⟨by decide, h⟩

/-- A listing is prepared text. -/
theorem Cut.folded_listed (h : Cut text tokens) (last : UInt8) : Folded none (listed last tokens) := by
  induction h generalizing last with
  | nil => simp [Folded]
  | @unclosed quote body hquote hbody hplain =>
    have hnewline : newline ∉ body := fun hmem => (hplain _ hmem).2.1 rfl
    rw [listed_unclosed hquote hbody hnewline, folded_open hquote, ← List.append_nil body,
      folded_inside hbody]
    exact ⟨hplain, trivial⟩
  | @closed quote body rest tokens hquote hbody hplain h ih =>
    have hnewline : newline ∉ body := fun hmem => (hplain _ hmem).2.1 rfl
    rw [listed_closed hquote hbody hnewline, folded_open hquote, folded_inside hbody,
      folded_close hquote]
    exact ⟨hplain, ih quote⟩
  | @word blanks rest tokens s hblanks hlongest h ih =>
    obtain ⟨hs, -⟩ := longest?_eq_some.mp hlongest
    obtain ⟨gap, last', hlisted, hgap, -⟩ := listed_word hs last tokens
    have hafter : Folded none (gap ++ listed last' tokens) := by
      obtain rfl | rfl := hgap
      · exact ih last'
      · exact folded_space (ih last')
    rw [hlisted]
    obtain hlead | hlead := lead_cases s last
    · rw [hlead, List.nil_append]
      exact folded_solid (solid_of_mem_word hs) hafter
    · rw [hlead, List.singleton_append]
      exact folded_space (folded_solid (solid_of_mem_word hs) hafter)
  | blank hb hnone h ih =>
    rw [listed_blank]
    exact folded_space (ih _)
  | run hsolid hrun hnone h ih =>
    rw [listed_solid hsolid]
    exact folded_solid hsolid (ih _)

end

end Lexer

end FlashBasic
