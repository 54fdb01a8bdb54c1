import Vcmp.Theorems.IniPairs

/-! Comments between the lines of a configuration. A comment ends with its line, but also at a carriage return or at a
    tab; what is behind them is parsed. -/

namespace Vcmp.Ini
open ByteMem CString

variable {r r' : Reader} {place place' : Place} {l : List UInt8} {b : UInt8} {key token : List UInt8} {stack : Stack} {past : Mem}
  {before after : List Line} {cfg : IniConfig} {entries more : List Entry} {entry : Entry} {comment : Comment}
  {section_ : Option (List UInt8)}

/-- Between two lines of an accepted text the comment changes neither that nor any lookup, and if the arrays held what was
    parsed they still do. -/
def NoEffect (comment : Comment) : Prop := ∀ stack past before after cfg, before ≠ [] → after ≠ [] →
  Accepts stack past (linesText (before ++ after)) cfg →
    (∃ cfg', Accepts stack past (linesText (before ++ comment.line :: after)) cfg' ∧
      ∀ section_ key, iniGetValue cfg' section_ key = iniGetValue cfg section_ key) ∧
    (ArraysHold stack past (linesText (before ++ after)) → ArraysHold stack past (linesText (before ++ comment.line :: after)))

def valueFits (l : List UInt8) : Bool := (l.dropWhile blank).length ≤ 255

/-- There is an equals sign, and the value behind it fits. -/
def keyless : List UInt8 → Bool
  | [] => false
  | b :: l => if b = '='.toUInt8 then valueFits l else keyless l

mutual
/-- The rest of a comment after which nothing is stored. -/
def harmlessComment : List UInt8 → Bool
  | [] => true
  | b :: l => if b = '\r'.toUInt8 ∨ b = '\t'.toUInt8 then harmlessData l else harmlessComment l

/-- Spaces, comments, and a value without a key. -/
def harmlessData : List UInt8 → Bool
  | [] => true
  | b :: l =>
    if b = '#'.toUInt8 ∨ b = ';'.toUInt8 then harmlessComment l
    else if b = ' '.toUInt8 then harmlessData l
    else if b = '='.toUInt8 then valueFits l
    else if b = '\t'.toUInt8 then keyless l
    else false
end

/-! ### Entries that change nothing -/

/-- A value without a key is dropped; it has to fit all the same. -/
def Entry.Idle : Entry → Prop
  | .header _ => False
  | .pair key value => key = [] ∧ value.length ≤ 255

/-- From a place the bytes lead behind a line, and no entry changes anything. -/
def Quiet (place : Place) (l : List UInt8) : Prop :=
  ∃ entries, Lts.run Reader.step ⟨place, []⟩ l = some ⟨.ready, entries⟩ ∧ ∀ entry ∈ entries, entry.Idle

theorem quiet_cons (h : Reader.step ⟨place, []⟩ b = some ⟨place', []⟩) : Quiet place (b :: l) ↔ Quiet place' l := by
  rw [Quiet, Lts.run, h]
  rfl

theorem not_quiet_entered (h : Reader.step ⟨place, []⟩ b = some ⟨place', [entry]⟩) (hentry : ¬entry.Idle) : ¬Quiet place (b :: l) := by
  rintro ⟨entries, hrun, hidle⟩
  rw [Lts.run, h, Option.bind_some] at hrun
  obtain ⟨more, hmore⟩ := entries_run hrun
  obtain rfl : entries = [entry] ++ more := hmore
  exact hentry (hidle entry List.mem_cons_self)

/-- The reader is at a section name, or at a pair that has a key. -/
def Place.Busy : Place → Prop
  | .bracket | .name _ => True
  | .began first => first ≠ '='.toUInt8 ∧ first ≠ '\t'.toUInt8 ∧ first ≠ ' '.toUInt8
  | .key key | .gap key | .equals key | .lead key | .value key _ => key ≠ []
  | .ready | .hash | .comment => False

/-- A busy reader stays busy until the text is refused or an entry changes something. -/
def KeepsBusy : Option Reader → Prop
  | none => True
  | some r => (r.place.Busy ∧ r.entries = []) ∨ ∃ entry, r.entries = [entry] ∧ ¬entry.Idle

theorem busy_stepGap (named : key ≠ []) : KeepsBusy (Reader.stepGap ⟨place, []⟩ b key) := by
  rw [Reader.stepGap]
  split
  · exact Or.inl ⟨named, rfl⟩
  · split
    · trivial
    · exact Or.inl ⟨named, rfl⟩

theorem busy_stepKey (named : token ≠ []) : KeepsBusy (Reader.stepKey ⟨place, []⟩ b token) := by
  rw [Reader.stepKey]
  split
  · exact busy_stepGap named
  · split
    · trivial
    · exact Or.inl ⟨List.append_ne_nil_of_left_ne_nil named [b], rfl⟩

theorem busy_stepValue (named : key ≠ []) : KeepsBusy (some (Reader.stepValue ⟨place, []⟩ b key token)) := by
  rw [Reader.stepValue]
  split
  · exact Or.inr ⟨.pair key token, rfl, fun h => named h.1⟩
  · exact Or.inl ⟨named, rfl⟩

theorem busy_stepLead (named : key ≠ []) : KeepsBusy (some (Reader.stepLead ⟨place, []⟩ b key)) := by
  rw [Reader.stepLead]
  split
  · exact Or.inl ⟨named, rfl⟩
  · exact busy_stepValue named

theorem busy_stepName : KeepsBusy (Reader.stepName ⟨place, []⟩ b token) := by
  rw [Reader.stepName]
  split
  · exact Or.inr ⟨.header token, rfl, fun h => h⟩
  · split
    · trivial
    · exact Or.inl ⟨trivial, rfl⟩

theorem busy_step (h : place.Busy) (b : UInt8) : KeepsBusy (Reader.step ⟨place, []⟩ b) := by
  cases place with
  | bracket | name _ => exact busy_stepName
  | began first =>
    obtain ⟨hequals, htab, hspace⟩ := h
    have hkey : Reader.stepKey ⟨.began first, []⟩ first [] = if endsLine first then none else some ⟨.key [first], []⟩ := by
      have hstop : ¬((first = ' '.toUInt8 ∨ first = '\t'.toUInt8 ∨ first = '='.toUInt8) ∨ ([] : List UInt8).length = 256) := by
        rintro ((h | h | h) | h)
        · exact hspace h
        · exact htab h
        · exact hequals h
        · cases h
      rw [Reader.stepKey, if_neg hstop]
      rfl
    rw [Reader.step_began, hkey]
    split
    · trivial
    · exact busy_stepKey (List.cons_ne_nil first [])
  | key token => exact busy_stepKey h
  | gap key => exact busy_stepGap h
  | equals key | lead key => exact busy_stepLead h
  | value key token => exact busy_stepValue h
  | ready | hash | comment => cases h

theorem not_quiet_busy (h : place.Busy) : ¬Quiet place l := by
  induction l generalizing place with
  | nil =>
    rintro ⟨entries, hrun, -⟩
    obtain ⟨rfl, -⟩ := Reader.mk.inj (Option.some.inj hrun)
    exact h
  | cons b l ih =>
    have hkeeps := busy_step h b
    cases hstep : Reader.step ⟨place, []⟩ b with
    | none =>
      rintro ⟨entries, hrun, -⟩
      rw [Lts.run, hstep] at hrun
      cases hrun
    | some r =>
      rw [hstep] at hkeeps
      obtain ⟨place', entries⟩ := r
      rcases hkeeps with ⟨hbusy, rfl⟩ | ⟨entry, rfl, hentry⟩
      · rw [quiet_cons hstep]
        exact ih hbusy
      · exact not_quiet_entered hstep hentry

/-! ### Harmless comments -/

section Harmless

theorem quiet_value (clean : ∀ b ∈ l, endsLine b = false) : Quiet (.value [] token) (l ++ ['\n'.toUInt8]) ↔ (token ++ l).length ≤ 255 := by
  induction l generalizing token with
  | nil =>
    rw [List.append_nil]
    constructor
    · rintro ⟨entries, hrun, hidle⟩
      obtain ⟨-, rfl⟩ := Reader.mk.inj (Option.some.inj hrun)
      exact (hidle _ List.mem_cons_self).2
    · exact fun hlength => ⟨_, rfl, List.forall_mem_singleton.mpr ⟨rfl, hlength⟩⟩
  | cons b l ih =>
    have hstep : Reader.step ⟨.value [] token, []⟩ b = some ⟨.value [] (token ++ [b]), []⟩ := by
      rw [Reader.step_value, Reader.stepValue, clean b List.mem_cons_self]
      rfl
    rw [List.cons_append, quiet_cons hstep, ih fun c hc => clean c (List.mem_cons_of_mem b hc), List.append_assoc]
    rfl

theorem quiet_lead (clean : ∀ b ∈ l, endsLine b = false) : Quiet (.lead []) (l ++ ['\n'.toUInt8]) ↔ valueFits l = true := by
  induction l with
  | nil => exact iff_of_true ⟨_, rfl, List.forall_mem_singleton.mpr ⟨rfl, Nat.zero_le _⟩⟩ rfl
  | cons b l ih =>
    have clean' := fun c hc => clean c (List.mem_cons_of_mem b hc)
    rw [List.cons_append, valueFits]
    cases hblank : blank b with
    | true =>
      have hstep : Reader.step ⟨.lead [], []⟩ b = some ⟨.lead [], []⟩ := by
        rw [Reader.step_lead, Reader.stepLead, if_pos (of_decide_eq_true hblank)]
        rfl
      rw [quiet_cons hstep, ih clean', List.dropWhile_cons_of_pos hblank]
      rfl
    | false =>
      have hstep : Reader.step ⟨.lead [], []⟩ b = some ⟨.value [] [b], []⟩ := by
        rw [Reader.step_lead, Reader.stepLead, if_neg (of_decide_eq_false hblank), Reader.stepValue, clean b List.mem_cons_self]
        rfl
      rw [quiet_cons hstep, quiet_value clean', List.dropWhile_cons_of_neg (by rw [hblank]; exact Bool.false_ne_true), decide_eq_true_iff]
      rfl

/-- Where the next step is the same, the same bytes are quiet. -/
theorem quiet_congr (place place' : Place) (h : ∀ b, Reader.step ⟨place, []⟩ b = Reader.step ⟨place', []⟩ b) (l : List UInt8) :
    Quiet place (l ++ ['\n'.toUInt8]) ↔ Quiet place' (l ++ ['\n'.toUInt8]) := by
  obtain ⟨b, l', hl⟩ := List.exists_cons_of_ne_nil (List.append_ne_nil_of_right_ne_nil l (List.cons_ne_nil '\n'.toUInt8 []))
  rw [hl, Quiet, Quiet, Lts.run, Lts.run, h]

theorem quiet_gap (clean : ∀ b ∈ l, endsLine b = false) : Quiet (.gap []) (l ++ ['\n'.toUInt8]) ↔ keyless l = true := by
  induction l with
  | nil =>
    refine iff_of_false ?_ Bool.false_ne_true
    rintro ⟨entries, hrun, -⟩
    cases hrun
  | cons b l ih =>
    have clean' := fun c hc => clean c (List.mem_cons_of_mem b hc)
    rw [List.cons_append, keyless]
    split
    next hequals =>
      subst hequals
      have hlead := quiet_congr (.equals []) (.lead []) (fun _ => rfl) l
      exact (quiet_cons rfl).trans (hlead.trans (quiet_lead clean'))
    next hequals =>
      have hstep : Reader.step ⟨.gap [], []⟩ b = some ⟨.gap [], []⟩ := by
        rw [Reader.step_gap, Reader.stepGap, if_neg hequals, clean b List.mem_cons_self]
        rfl
      rw [quiet_cons hstep, ih clean']

theorem quiet_ready_cons (hends : endsLine b = false) (clean : ∀ b ∈ l, endsLine b = false)
    (ready : Quiet .ready (l ++ ['\n'.toUInt8]) ↔ harmlessData l = true)
    (hash : Quiet .hash (l ++ ['\n'.toUInt8]) ↔ harmlessComment l = true) :
    Quiet .ready (b :: (l ++ ['\n'.toUInt8])) ↔ harmlessData (b :: l) = true := by
  have hstep : Reader.step ⟨.ready, []⟩ b = some (Reader.stepReady ⟨.ready, []⟩ b) := rfl
  rw [Reader.stepReady] at hstep
  rw [harmlessData]
  by_cases hmark : b = '#'.toUInt8 ∨ b = ';'.toUInt8
  · rw [if_pos hmark] at hstep ⊢
    rw [quiet_cons hstep]
    exact hash
  rw [if_neg hmark] at hstep ⊢
  by_cases hbracket : b = '['.toUInt8
  · subst hbracket
    rw [quiet_cons hstep]
    exact iff_of_false (not_quiet_busy trivial) Bool.false_ne_true
  rw [if_neg hbracket] at hstep
  by_cases hspace : b = ' '.toUInt8
  · subst hspace
    exact (quiet_cons rfl).trans ready
  rw [if_pos ⟨ne_lf_of_endsLine hends, hspace⟩] at hstep
  rw [if_neg hspace, quiet_cons hstep]
  -- an equals sign and a TAB are the bytes that leave the key empty
  by_cases hequals : b = '='.toUInt8
  · subst hequals
    exact (quiet_congr (.began '='.toUInt8) (.lead []) (fun _ => rfl) l).trans (quiet_lead clean)
  rw [if_neg hequals]
  by_cases htab : b = '\t'.toUInt8
  · subst htab
    exact (quiet_congr (.began '\t'.toUInt8) (.gap []) (fun _ => rfl) l).trans (quiet_gap clean)
  · rw [if_neg htab]
    exact iff_of_false (not_quiet_busy ⟨hequals, htab, hspace⟩) Bool.false_ne_true

theorem quiet_comment_cons (hplace : place = .hash ∨ place = .comment) (hends : endsLine b = false)
    (ready : Quiet .ready (l ++ ['\n'.toUInt8]) ↔ harmlessData l = true)
    (comment : Quiet .comment (l ++ ['\n'.toUInt8]) ↔ harmlessComment l = true) :
    Quiet place (b :: (l ++ ['\n'.toUInt8])) ↔ harmlessComment (b :: l) = true := by
  have hstep : Reader.step ⟨place, []⟩ b = some (Reader.stepComment ⟨place, []⟩ b) := by
    rcases hplace with rfl | rfl <;> rfl
  rw [Reader.stepComment_inside _ hends] at hstep
  rw [harmlessComment]
  split_ifs at hstep ⊢
  · rw [quiet_cons hstep]
    exact ready
  · rw [quiet_cons hstep]
    exact comment

theorem quiet_iff (clean : ∀ b ∈ l, endsLine b = false) : (Quiet .ready (l ++ ['\n'.toUInt8]) ↔ harmlessData l = true) ∧
    ∀ place, place = .hash ∨ place = .comment → (Quiet place (l ++ ['\n'.toUInt8]) ↔ harmlessComment l = true) := by
  induction l with
  | nil =>
    refine ⟨iff_of_true ⟨_, rfl, List.forall_mem_nil _⟩ rfl, fun place hplace => ?_⟩
    rcases hplace with rfl | rfl <;> exact iff_of_true ⟨_, rfl, List.forall_mem_nil _⟩ rfl
  | cons b l ih =>
    have hends := clean b List.mem_cons_self
    have clean' := fun c hc => clean c (List.mem_cons_of_mem b hc)
    obtain ⟨ready, comment⟩ := ih clean'
    exact ⟨quiet_ready_cons hends clean' ready (comment .hash (Or.inl rfl)),
      fun place hplace => quiet_comment_cons hplace hends ready (comment .comment (Or.inr rfl))⟩

/-- A comment is harmless exactly if each entry of its line changes nothing. -/
theorem harmless_iff (comment : Comment) :
    harmlessComment comment.body = true ↔ ∃ entries, comment.line.read = some entries ∧ ∀ entry ∈ entries, entry.Idle := by
  have clean : ∀ b ∈ comment.body, endsLine b = false := by
    intro b hb
    obtain ⟨hlf, hzero⟩ := comment.clean b hb
    exact decide_eq_false (not_or.mpr ⟨hzero, hlf⟩)
  have hstep : Reader.step start comment.mark = some ⟨.hash, []⟩ := by
    rw [start, Reader.step_ready, Reader.stepReady, if_pos comment.marked]
    rfl
  have hread : readAll (comment.line.bytes ++ ['\n'.toUInt8]) = Lts.run Reader.step ⟨.hash, []⟩ (comment.body ++ ['\n'.toUInt8]) := by
    rw [readAll, Comment.line, List.cons_append, Lts.run, hstep, Option.bind_some]
  rw [← (quiet_iff clean).2 .hash (Or.inl rfl), Quiet, ← hread, readAll_line]
  simp

end Harmless

/-! ### What a comment can change -/

section Effects

theorem foldl_idle (h : ∀ entry ∈ entries, entry.Idle) (s : Option (List UInt8) × IniConfig) :
    entries.foldl (Entry.apply stack) s = s := by
  induction entries with
  | nil => rfl
  | cons entry entries ih =>
    have hrest := ih fun e he => h e (List.mem_cons_of_mem entry he)
    cases entry with
    | header name => cases h (.header name) List.mem_cons_self
    | pair key value =>
      obtain ⟨rfl, -⟩ := h (.pair key value) List.mem_cons_self
      exact hrest

theorem Entry.Idle.short (h : entry.Idle) : entry.Short := by
  cases entry with
  | header name => trivial
  | pair key value =>
    obtain ⟨rfl, hvalue⟩ := h
    exact ⟨Nat.zero_le _, hvalue⟩

theorem readLines_inserted {line : Line} (h : line.read = some more) : readLines (before ++ line :: after) =
    (readLines before).bind fun entries => (readLines after).map fun rest => entries ++ (more ++ rest) := by
  rw [readLines_append, readLines, h]
  cases readLines before with
  | none => rfl
  | some entries => cases readLines after <;> rfl

theorem readLines_refused {line : Line} (h : line.read = none) : readLines (before ++ line :: after) = none := by
  rw [readLines_append, readLines, h]
  cases readLines before <;> rfl

theorem noEffect_of_idle (hread : comment.line.read = some more) (hidle : ∀ entry ∈ more, entry.Idle) : NoEffect comment := by
  intro stack past before after cfg hbefore hafter haccepts
  obtain ⟨-, entries, hentries, rfl⟩ := accepts_lines.mp haccepts
  rw [readLines_append] at hentries
  obtain ⟨first, hfirst, hentries⟩ := Option.bind_eq_some_iff.mp hentries
  obtain ⟨rest, hrest, rfl⟩ := Option.map_eq_some_iff.mp hentries
  have hold : readLines (before ++ after) = some (first ++ rest) := by rw [readLines_append, hfirst, hrest]; rfl
  have hnew : readLines (before ++ comment.line :: after) = some (first ++ (more ++ rest)) := by
    rw [readLines_inserted hread, hfirst, hrest]
    rfl
  have hstored : stored stack (first ++ (more ++ rest)) = stored stack (first ++ rest) := by
    rw [stored, List.foldl_append, List.foldl_append, foldl_idle hidle, stored, List.foldl_append]
  constructor
  · refine ⟨_, accepts_lines.mpr ⟨List.append_ne_nil_of_left_ne_nil hbefore _, _, hnew, rfl⟩, fun section_ key => ?_⟩
    rw [hstored]
  · rw [arraysHold_lines hold, arraysHold_lines hnew]
    intro hshort entry hentry
    rcases List.mem_append.mp hentry with hentry | hentry
    · exact hshort entry (List.mem_append_left rest hentry)
    rcases List.mem_append.mp hentry with hentry | hentry
    · exact (hidle entry hentry).short
    · exact hshort entry (List.mem_append_right first hentry)

/-- A pair with a key can be looked up. -/
theorem lookup_named (stack : Stack) {value : List UInt8} (h : .pair key value ∈ entries) (named : key ≠ []) :
    ∃ section_, iniGetValue (stored stack entries).2 section_ (held stack.currentKey key) ≠ none := by
  have hunder (current : Option (List UInt8)) : ∃ section_, (key, value) ∈ pairsUnder section_ current entries := by
    induction entries generalizing current with
    | nil => cases h
    | cons entry entries ih =>
      rcases List.mem_cons.mp h with rfl | hrest
      · refine ⟨current, ?_⟩
        rw [pairsUnder, if_pos ⟨named, rfl⟩]
        exact List.mem_cons_self
      · cases entry with
        | header name => exact ih hrest _
        | pair key' value' =>
          obtain ⟨section_, hmem⟩ := ih hrest current
          exact ⟨section_, List.mem_append_right _ hmem⟩
  obtain ⟨section_, hmem⟩ := hunder none
  refine ⟨section_, ?_⟩
  have hheld : held stack.currentKey key ≠ [] := fun heq => named (held_eq_nil.mp heq)
  rw [iniGetValue_stored, if_neg hheld, valueIn, ne_eq, Option.map_eq_none_iff, List.find?_eq_none, not_forall]
  exact ⟨stack.keyval (key, value), fun hnone => hnone (List.mem_map_of_mem hmem) (decide_eq_true rfl)⟩

theorem pairsUnder_nameless (h : ∀ key value, .pair key value ∈ entries → key = []) (current : Option (List UInt8)) :
    pairsUnder section_ current entries = [] := by
  induction entries generalizing current with
  | nil => rfl
  | cons entry entries ih =>
    have hrest := ih fun key value hmem => h key value (List.mem_cons_of_mem entry hmem)
    cases entry with
    | header name => exact hrest _
    | pair key value =>
      have hkey := h key value List.mem_cons_self
      rw [pairsUnder, if_neg fun hnamed => hnamed.1 hkey, hrest, List.append_nil]

/-- Behind a section name it does not matter what the section was. -/
theorem sectionBehind_header {name : List UInt8} (h : .header name ∈ entries) (s t : Option (List UInt8)) :
    sectionBehind s entries = sectionBehind t entries := by
  induction entries generalizing s t with
  | nil => cases h
  | cons entry entries ih =>
    cases entry with
    | header name' => rfl
    | pair key value =>
      rcases List.mem_cons.mp h with h | h
      · cases h
      · exact ih h s t

/-- An empty line, the line `[a]` and the line `x=1`. -/
def blankLine : Line := ⟨[], nofun⟩
def headerLine : Line := ⟨[91, 97, 93], by decide +kernel⟩
def pairLine : Line := ⟨[120, 61, 49], by decide +kernel⟩

/-- The value of `x` is found under a section exactly if that is the section it stands in. -/
theorem lookup_pairLine {first : List Entry} (hempty : ∀ section_, pairsUnder section_ none first = []) (hnameless : ∀ key value, .pair key value ∈ more → key = []) :
    iniGetValue (stored stack (first ++ (more ++ [.pair [120] [49]]))).2 (sectionBehind none first) [120] =
      if sectionBehind none first = sectionBehind (sectionBehind none first) more then some [49] else none := by
  have hnone : ([120] : List UInt8) ≠ [] := List.cons_ne_nil 120 []
  rw [iniGetValue_stored, if_neg hnone, pairsUnder_append, pairsUnder_append, hempty, pairsUnder_nameless hnameless, List.nil_append,
    List.nil_append, pairsUnder, pairsUnder, List.append_nil]
  split
  next h => rw [if_pos h.2]; rfl
  next h => rw [if_neg fun heq => h ⟨hnone, heq⟩]; rfl

theorem NoEffect.nameless (h : NoEffect comment) : ∃ more, comment.line.read = some more ∧
    ∀ key value, .pair key value ∈ more → key = [] ∧ value.length ≤ 255 := by
  let stack : Stack := ⟨fun _ => 0, fun _ => 0, fun _ => 0, fun _ => 0⟩
  have hold : readLines ([blankLine] ++ [blankLine]) = some [] := rfl
  obtain ⟨⟨cfg', haccepts, hlookup⟩, hholds⟩ := h stack (fun _ => 0) [blankLine] [blankLine] _ nofun nofun
    (accepts_lines.mpr ⟨nofun, [], hold, rfl⟩)
  obtain ⟨-, entries, hnew, rfl⟩ := accepts_lines.mp haccepts
  cases hread : comment.line.read with
  | none =>
    cases (readLines_refused hread).symm.trans hnew
  | some more =>
    have hmore : readLines ([blankLine] ++ comment.line :: [blankLine]) = some (more ++ []) := by rw [readLines_inserted hread]; rfl
    rw [List.append_nil] at hmore
    obtain rfl : more = entries := Option.some.inj (hmore.symm.trans hnew)
    have hshort := (arraysHold_lines hnew).mp (hholds ((arraysHold_lines hold).mpr (List.forall_mem_nil _)))
    refine ⟨more, rfl, fun key value hmem => ⟨?_, (hshort _ hmem).2⟩⟩
    by_contra named
    obtain ⟨section_, hsome⟩ := lookup_named stack hmem named
    rw [hlookup, iniGetValue_stored, pairsUnder] at hsome
    exact hsome (ite_self none)

theorem NoEffect.headerless (h : NoEffect comment) (hread : comment.line.read = some more)
    (hnameless : ∀ key value, .pair key value ∈ more → key = []) : ∀ name, .header name ∉ more := by
  intro name hheader
  let stack : Stack := ⟨fun _ => 0, fun _ => 0, fun _ => 0, fun _ => 0⟩
  -- the line in front opens a section, unless the comment leads to one
  obtain ⟨line, first, hfirst, hempty, hsection⟩ : ∃ line first, Line.read line = some first ∧
      (∀ section_, pairsUnder section_ none first = []) ∧ sectionBehind none first ≠ sectionBehind none more := by
    by_cases hnone : sectionBehind none more = none
    · exact ⟨headerLine, [.header [97]], rfl, fun _ => rfl, fun heq => Option.some_ne_none [97] (heq.trans hnone)⟩
    · exact ⟨blankLine, [], rfl, fun _ => rfl, fun heq => hnone heq.symm⟩
  have hpair : readLines [pairLine] = some [.pair [120] [49]] := rfl
  have hold : readLines ([line] ++ [pairLine]) = some (first ++ ([] ++ [.pair [120] [49]])) := by
    rw [readLines_append, readLines, hfirst, hpair]
    simp [readLines]
  have hnew : readLines ([line] ++ comment.line :: [pairLine]) = some (first ++ (more ++ [.pair [120] [49]])) := by
    rw [readLines_inserted hread, readLines, hfirst, hpair]
    simp [readLines]
  obtain ⟨⟨cfg', haccepts, hlookup⟩, -⟩ := h stack (fun _ => 0) [line] [pairLine] _ (List.cons_ne_nil _ _)
    (List.cons_ne_nil _ _) (accepts_lines.mpr ⟨List.cons_ne_nil _ _, _, hold, rfl⟩)
  obtain ⟨-, entries, hentries, rfl⟩ := accepts_lines.mp haccepts
  obtain rfl := Option.some.inj (hnew.symm.trans hentries)
  have hsame := hlookup (sectionBehind none first) [120]
  have hown : sectionBehind none first = sectionBehind (sectionBehind none first) [] := rfl
  rw [lookup_pairLine hempty hnameless, lookup_pairLine hempty fun _ _ hmem => absurd hmem List.not_mem_nil, if_pos hown,
    sectionBehind_header hheader (sectionBehind none first) none, if_neg hsection] at hsame
  cases hsame

/-- A comment has no effect exactly if what is behind a carriage return or a tab in it is a comment, or a value without a key that
    fits into its array. -/
theorem noEffect_iff (comment : Comment) : NoEffect comment ↔ harmlessComment comment.body = true := by
  rw [harmless_iff]
  constructor
  · intro h
    obtain ⟨more, hread, hpairs⟩ := h.nameless
    have hheaders := h.headerless hread fun key value hmem => (hpairs key value hmem).1
    refine ⟨more, hread, fun entry hentry => ?_⟩
    cases entry with
    | header name => exact hheaders name hentry
    | pair key value => exact hpairs key value hentry
  · rintro ⟨more, hread, hidle⟩
    exact noEffect_of_idle hread hidle

/-- The comment `#x=1` with a tab behind its mark sets `x`. -/
theorem tab_takes_effect : ¬NoEffect ⟨35, [9, 120, 61, 49], by decide, by decide +kernel⟩ := by
  intro h
  let stack : Stack := ⟨fun _ => 0, fun _ => 0, fun _ => 0, fun _ => 0⟩
  have hold : readLines ([blankLine] ++ [blankLine]) = some [] := rfl
  obtain ⟨⟨cfg', haccepts, hlookup⟩, -⟩ := h stack (fun _ => 0) [blankLine] [blankLine] _ nofun nofun
    (accepts_lines.mpr ⟨nofun, [], hold, rfl⟩)
  obtain ⟨-, entries, hentries, rfl⟩ := accepts_lines.mp haccepts
  obtain rfl : [.pair [120] [49]] = entries := Option.some.inj hentries
  have hsame := hlookup none [120]
  rw [iniGetValue_stored, iniGetValue_stored] at hsame
  cases hsame

end Effects

end Vcmp.Ini
