import Vcmp.Theorems.IniLookup

/-! The ends of lines in configurations: a line feed, a carriage return in front of it, or nothing behind the last line. -/

namespace Vcmp.Ini
open ByteMem CString

variable {r r' : Reader} {place : Place} {l : List UInt8} {b : UInt8} {stack : Stack} {past : Mem} {entries : List Entry}
  {lines : List Line} {line : Line} {cfg cfg' : IniConfig} {a c : Text} {text : PlainText}

/-- The parser refuses the text. -/
def Rejects (stack : Stack) (past : Mem) (text : Text) : Prop := ∃ enough, ∀ fuel ≥ enough,
  ((iniParsebuf stack ample fuel).run.run { mem := text.buffer past }).1 = .error .fail

/-- Both texts are refused, or both are accepted and each lookup gives the same. -/
def SameResult (stack : Stack) (past : Mem) (a c : Text) : Prop :=
  (Rejects stack past a ∧ Rejects stack past c) ∨ ∃ cfg cfg', Accepts stack past a cfg ∧ Accepts stack past c cfg' ∧
    ∀ section_ key, iniGetValue cfg' section_ key = iniGetValue cfg section_ key

/-- Whatever the memory holds, the parser stays inside of its arrays, and makes the same of the text with either end of its lines,
    and without the last one. -/
def LineEndsFree (text : PlainText) : Prop := ∀ stack past,
  (ArraysHold stack past text.lf ∧ ArraysHold stack past text.crlf ∧ ArraysHold stack past text.unended) ∧
  SameResult stack past text.lf text.crlf ∧ SameResult stack past text.lf text.unended

/-! ### The last byte of a line -/

/-- A line feed is refused here: in a section name, or in a key. -/
def Place.refusesFeed : Place → Bool
  | .bracket | .key _ | .gap _ => true
  | .name token => token.length ≠ 255
  | .began first => first ≠ '='.toUInt8
  | .ready | .hash | .comment | .equals _ | .lead _ | .value _ _ => false

/-- A line feed behind a carriage return is refused here. Where no line has begun the carriage return begins a key, and in a
    section name it is the last byte that there is room for. -/
def Place.refusesReturn : Place → Bool
  | .ready | .bracket | .key _ | .gap _ => true
  | .name token => token.length ≠ 255 ∧ token.length ≠ 254
  | .began first => first ≠ '='.toUInt8
  | .hash | .comment | .equals _ | .lead _ | .value _ _ => false

/-- What the end of the line enters. -/
def Place.entered : Place → List Entry
  | .name token => [.header token]
  | .began _ => [.pair [] []]
  | .equals keyName | .lead keyName => [.pair keyName []]
  | .value keyName token => [.pair keyName token]
  | .ready | .hash | .comment | .bracket | .key _ | .gap _ => []

theorem step_began_feed (first : UInt8) (entries : List Entry) : Reader.step ⟨.began first, entries⟩ '\n'.toUInt8 =
    if first = '='.toUInt8 then some ⟨.ready, entries ++ [.pair [] []]⟩ else none := by
  rw [Reader.step_began]
  split
  next hequals =>
    subst hequals
    rfl
  next hequals =>
    rw [Reader.stepKey, Reader.stepGap, if_neg hequals]
    split_ifs <;> rfl

theorem step_feed (place : Place) (entries : List Entry) : Reader.step ⟨place, entries⟩ '\n'.toUInt8 =
    if place.refusesFeed then none else some ⟨.ready, entries ++ place.entered⟩ := by
  have hnothing : (⟨.ready, entries⟩ : Reader) = ⟨.ready, entries ++ []⟩ := by rw [List.append_nil]
  cases place with
  | ready | hash | comment => exact congrArg some hnothing
  | bracket | gap _ => rfl
  | equals _ | lead _ | value _ _ => rfl
  | key token => exact ite_self none
  | began first =>
    rw [step_began_feed, Place.refusesFeed]
    by_cases hequals : first = '='.toUInt8 <;> simp [hequals, Place.entered]
  | name token =>
    have hbracket : '\n'.toUInt8 ≠ ']'.toUInt8 := by decide
    rw [Reader.step_name, Reader.stepName, Place.refusesFeed]
    by_cases hlong : token.length = 255
    · have hrefuses : ¬decide (token.length ≠ 255) = true := fun h => of_decide_eq_true h hlong
      rw [if_pos (Or.inr hlong), if_neg hrefuses]
      rfl
    · rw [if_neg (not_or.mpr ⟨hbracket, hlong⟩), if_pos (decide_eq_true hlong)]
      rfl

/-- The two bytes of the other line end. -/
theorem run_return (place : Place) (entries : List Entry) :
    (Lts.run Reader.step ⟨place, entries⟩ ['\r'.toUInt8, '\n'.toUInt8] = none ↔ place.refusesReturn = true) ∧
      (place.refusesFeed = false → place.refusesReturn = false →
        Lts.run Reader.step ⟨place, entries⟩ ['\r'.toUInt8, '\n'.toUInt8] =
          some ⟨.ready, entries ++ place.entered.map Entry.withReturn⟩) := by
  have hnothing : some (⟨.ready, entries⟩ : Reader) = some ⟨.ready, entries ++ []⟩ := by rw [List.append_nil]
  have hboth {place' : Place} (h : Reader.step ⟨place, entries⟩ '\r'.toUInt8 = some ⟨place', entries⟩) :
      Lts.run Reader.step ⟨place, entries⟩ ['\r'.toUInt8, '\n'.toUInt8] = Reader.step ⟨place', entries⟩ '\n'.toUInt8 := by
    rw [Lts.run, h, Option.bind_some, Lts.run]
    cases Reader.step ⟨place', entries⟩ '\n'.toUInt8 <;> rfl
  cases place with
  | ready => exact ⟨iff_of_true rfl rfl, fun _ h => Bool.noConfusion h⟩
  | hash | comment => exact ⟨iff_of_false (Option.some_ne_none _) Bool.false_ne_true, fun _ _ => hnothing⟩
  | bracket | gap _ => exact ⟨iff_of_true rfl rfl, fun h => Bool.noConfusion h⟩
  | equals _ | lead _ | value _ _ => exact ⟨iff_of_false (Option.some_ne_none _) Bool.false_ne_true, fun _ _ => rfl⟩
  | key token =>
    refine ⟨iff_of_true ?_ rfl, fun h => Bool.noConfusion h⟩
    have hstop : ¬('\r'.toUInt8 = ' '.toUInt8 ∨ '\r'.toUInt8 = '\t'.toUInt8 ∨ '\r'.toUInt8 = '='.toUInt8) := by decide
    by_cases hlong : token.length = 256
    · have hreturn : Reader.step ⟨.key token, entries⟩ '\r'.toUInt8 = some ⟨.gap token, entries⟩ := by
        rw [Reader.step_key, Reader.stepKey, if_pos (Or.inr hlong)]
        rfl
      rw [hboth hreturn, step_feed]
      rfl
    · have hreturn : Reader.step ⟨.key token, entries⟩ '\r'.toUInt8 = some ⟨.key (token ++ ['\r'.toUInt8]), entries⟩ := by
        rw [Reader.step_key, Reader.stepKey, if_neg (not_or.mpr ⟨hstop, hlong⟩)]
        rfl
      rw [hboth hreturn, step_feed]
      rfl
  | began first =>
    by_cases hequals : first = '='.toUInt8
    · subst hequals
      exact ⟨iff_of_false (Option.some_ne_none _) Bool.false_ne_true, fun _ _ => rfl⟩
    · have hrefuses : (Place.began first).refusesReturn = true := decide_eq_true hequals
      refine ⟨iff_of_true ?_ hrefuses, fun _ h => Bool.noConfusion (hrefuses.symm.trans h)⟩
      rw [Lts.run, Reader.step_began, Reader.stepKey, Reader.stepGap, if_neg hequals]
      split_ifs <;> rfl
  | name token =>
    have hbracket : '\r'.toUInt8 ≠ ']'.toUInt8 := by decide
    by_cases hlong : token.length = 255
    · have hreturn : Lts.run Reader.step ⟨.name token, entries⟩ ['\r'.toUInt8, '\n'.toUInt8] = some ⟨.ready, entries ++ [.header token]⟩ := by
        rw [Lts.run, Reader.step_name, Reader.stepName, if_pos (Or.inr hlong)]
        rfl
      rw [hreturn]
      exact ⟨iff_of_false (Option.some_ne_none _) fun h => (of_decide_eq_true h).1 hlong, fun _ _ => rfl⟩
    have hreturn : Reader.step ⟨.name token, entries⟩ '\r'.toUInt8 = some ⟨.name (token ++ ['\r'.toUInt8]), entries⟩ := by
      rw [Reader.step_name, Reader.stepName, if_neg (not_or.mpr ⟨hbracket, hlong⟩)]
      rfl
    have hfeed : (Place.name token).refusesFeed = true := decide_eq_true hlong
    refine ⟨?_, fun h => Bool.noConfusion (hfeed.symm.trans h)⟩
    rw [hboth hreturn, step_feed, Place.refusesFeed, Place.refusesReturn, List.length_append, List.length_singleton, ite_eq_left_iff,
      decide_eq_true_iff, decide_eq_true_iff]
    simp only [reduceCtorEq, imp_false, Decidable.not_not]
    omega

/-! ### Lines -/

/-- The first byte of a key ends the line; no reader comes there. -/
def Place.endsFirst : Place → Bool
  | .began first => endsLine first
  | _ => false

/-- A byte inside of a line is not refused, and enters nothing but a section name. -/
def StaysIn (r : Reader) (o : Option Reader) : Prop := ∃ r', o = some r' ∧ r'.place.endsFirst = false ∧
  (r'.entries = r.entries ∨ ∃ name, r'.entries = r.entries ++ [.header name])

theorem staysIn_goTo (r : Reader) (h : place.endsFirst = false) : StaysIn r (some (r.goTo place)) :=
  ⟨_, rfl, h, Or.inl rfl⟩

theorem staysIn_stepComment (r : Reader) (b : UInt8) : StaysIn r (some (r.stepComment b)) := by
  rw [Reader.stepComment]
  split <;> exact staysIn_goTo r rfl

section Inner
variable (hb : endsLine b = false)
include hb

theorem staysIn_stepReady (r : Reader) : StaysIn r (some (r.stepReady b)) := by
  rw [Reader.stepReady]
  split_ifs
  · exact staysIn_goTo r rfl
  · exact staysIn_goTo r rfl
  · exact staysIn_goTo r hb
  · exact staysIn_goTo r rfl

theorem staysIn_stepGap (r : Reader) (keyName : List UInt8) : StaysIn r (r.stepGap b keyName) := by
  rw [Reader.stepGap, hb, if_neg Bool.false_ne_true]
  split <;> exact staysIn_goTo r rfl

theorem staysIn_stepKey (r : Reader) (token : List UInt8) : StaysIn r (r.stepKey b token) := by
  rw [Reader.stepKey]
  split
  · exact staysIn_stepGap hb r token
  · rw [hb, if_neg Bool.false_ne_true]
    exact staysIn_goTo r rfl

theorem staysIn_stepName (r : Reader) (token : List UInt8) : StaysIn r (r.stepName b token) := by
  rw [Reader.stepName]
  split
  · exact ⟨_, rfl, rfl, Or.inr ⟨token, rfl⟩⟩
  · rw [hb, if_neg Bool.false_ne_true]
    exact staysIn_goTo r rfl

theorem staysIn_stepValue (r : Reader) (keyName token : List UInt8) : StaysIn r (some (r.stepValue b keyName token)) := by
  rw [Reader.stepValue, hb, if_neg Bool.false_ne_true]
  exact staysIn_goTo r rfl

theorem staysIn_stepLead (r : Reader) (keyName : List UInt8) : StaysIn r (some (r.stepLead b keyName)) := by
  rw [Reader.stepLead]
  split
  · exact staysIn_goTo r rfl
  · exact staysIn_stepValue hb r keyName []

theorem staysIn_stepOne (r : Reader) (h : ∀ first, r.place ≠ .began first) : StaysIn r (r.stepOne b) := by
  obtain ⟨place, entries⟩ := r
  cases place with
  | ready => exact staysIn_stepReady hb _
  | hash | comment => exact staysIn_stepComment _ b
  | bracket => exact staysIn_stepName hb _ []
  | name token => exact staysIn_stepName hb _ token
  | began first => exact absurd rfl (h first)
  | key token => exact staysIn_stepKey hb _ token
  | gap keyName => exact staysIn_stepGap hb _ keyName
  | equals keyName | lead keyName => exact staysIn_stepLead hb _ keyName
  | value keyName token => exact staysIn_stepValue hb _ keyName token

theorem staysIn_step (h : r.place.endsFirst = false) : StaysIn r (r.step b) := by
  rw [Reader.step]
  split
  next first hplace =>
    rw [hplace] at h
    obtain ⟨r₁, hkey, -, hentries⟩ := staysIn_stepKey h r []
    have hinner : ∀ first', r₁.place ≠ .began first' := by
      intro first' hfirst'
      simp only [Reader.stepKey, Reader.stepGap] at hkey
      split_ifs at hkey <;> cases hkey <;> cases hfirst'
    have hsame : r₁.entries = r.entries := by
      simp only [Reader.stepKey, Reader.stepGap] at hkey
      split_ifs at hkey <;> cases hkey <;> rfl
    obtain ⟨r₂, hstep, hbegan, hmore⟩ := staysIn_stepOne hb r₁ hinner
    rw [hsame] at hmore
    exact ⟨r₂, by rw [hkey, Option.bind_some, hstep], hbegan, hmore⟩
  next hplace => exact staysIn_stepOne hb r fun first hfirst => hplace first hfirst

end Inner

theorem run_clean (clean : ∀ b ∈ l, endsLine b = false) (h : r.place.endsFirst = false)
    (hentries : r.entries.map Entry.withReturn = r.entries) :
    ∃ r', Lts.run Reader.step r l = some r' ∧ r'.entries.map Entry.withReturn = r'.entries := by
  induction l generalizing r with
  | nil => exact ⟨r, rfl, hentries⟩
  | cons b l ih =>
    obtain ⟨r₁, hstep, hbegan, hmore⟩ := staysIn_step (clean b List.mem_cons_self) h
    have hentries₁ : r₁.entries.map Entry.withReturn = r₁.entries := by
      rcases hmore with hmore | ⟨name, hmore⟩
      · rw [hmore, hentries]
      · rw [hmore, List.map_append, hentries]
        rfl
    obtain ⟨r', hrun, hentries'⟩ := ih (fun c hc => clean c (List.mem_cons_of_mem b hc)) hbegan hentries₁
    exact ⟨r', by rw [Lts.run, hstep, Option.bind_some, hrun], hentries'⟩

/-- No byte of a line is refused before its end, and nothing is entered but section names. -/
theorem readAll_bytes (line : Line) : ∃ r, readAll line.bytes = some r ∧ r.entries.map Entry.withReturn = r.entries := by
  refine run_clean (fun b hb => ?_) rfl rfl
  obtain ⟨hlf, hzero⟩ := line.clean b hb
  exact decide_eq_false (not_or.mpr ⟨hzero, hlf⟩)

/-- The line ends in a place with the property. -/
def Line.ends (f : Place → Bool) (line : Line) : Bool := (readAll line.bytes).any fun r => f r.place

theorem readAll_ended (line : Line) (last : List UInt8) (h : readAll line.bytes = some r) :
    readAll (line.bytes ++ last) = Lts.run Reader.step r last := by
  rw [readAll] at h
  rw [readAll, Lts.run_append, h, Option.bind_some]

theorem read_eq_none (line : Line) : line.read = none ↔ line.ends Place.refusesFeed = true := by
  obtain ⟨r, hr, -⟩ := readAll_bytes line
  obtain ⟨place, entries⟩ := r
  rw [Line.read, readAll_ended line _ hr, Line.ends, hr, Option.any_some, Option.map_eq_none_iff, Lts.run, step_feed]
  split <;> simp [*, Lts.run]

theorem withReturn_read_eq_none (line : Line) : line.withReturn.read = none ↔ line.ends Place.refusesReturn = true := by
  obtain ⟨r, hr, -⟩ := readAll_bytes line
  have hbytes : line.withReturn.bytes ++ ['\n'.toUInt8] = line.bytes ++ ['\r'.toUInt8, '\n'.toUInt8] := List.append_assoc _ _ _
  rw [Line.read, hbytes, readAll_ended line _ hr, Line.ends, hr, Option.any_some, Option.map_eq_none_iff, (run_return r.place r.entries).1]

/-- Of a line that neither end makes refused the carriage return goes to the value. -/
theorem withReturn_read (hfeed : line.ends Place.refusesFeed = false) (hreturn : line.ends Place.refusesReturn = false) :
    line.withReturn.read = line.read.map (List.map Entry.withReturn) := by
  obtain ⟨r, hr, hheaders⟩ := readAll_bytes line
  obtain ⟨place, entries⟩ := r
  rw [Line.ends, hr, Option.any_some] at hfeed hreturn
  have hbytes : line.withReturn.bytes ++ ['\n'.toUInt8] = line.bytes ++ ['\r'.toUInt8, '\n'.toUInt8] := List.append_assoc _ _ _
  have hrun := (run_return place entries).2 hfeed hreturn
  have hheaders : entries.map Entry.withReturn = entries := hheaders
  rw [Line.read, hbytes, readAll_ended line _ hr, hrun, Line.read, readAll_ended line _ hr, Lts.run, step_feed, if_neg (by rw [hfeed]; exact Bool.false_ne_true),
    Option.bind_some, Lts.run, Option.map_some, Option.map_some, Option.map_some, List.map_append, hheaders]

theorem readLines_eq_none : readLines lines = none ↔ ∃ line ∈ lines, line.read = none := by
  induction lines with
  | nil => exact iff_of_false nofun nofun
  | cons line lines ih =>
    rw [readLines, List.exists_mem_cons_iff, ← ih]
    cases line.read with
    | none => exact iff_of_true rfl (Or.inl rfl)
    | some entries => cases readLines lines <;> simp

theorem readLines_withReturn (hfeed : ∀ line ∈ lines, line.ends Place.refusesFeed = false)
    (hreturn : ∀ line ∈ lines, line.ends Place.refusesReturn = false) :
    readLines (lines.map Line.withReturn) = (readLines lines).map (List.map Entry.withReturn) := by
  induction lines with
  | nil => rfl
  | cons line lines ih =>
    have hline := withReturn_read (hfeed line List.mem_cons_self) (hreturn line List.mem_cons_self)
    have hrest := ih (fun c hc => hfeed c (List.mem_cons_of_mem line hc)) fun c hc => hreturn c (List.mem_cons_of_mem line hc)
    rw [List.map_cons, readLines, hline, hrest, readLines]
    cases line.read with
    | none => rfl
    | some entries => cases readLines lines <;> simp

/-! ### Results -/

theorem not_accepts (h : Rejects stack past a) : ¬Accepts stack past a cfg := by
  rintro ⟨enough, hcfg⟩
  obtain ⟨enough', hfail⟩ := h
  cases (hfail (enough + enough') (Nat.le_add_left _ _)).symm.trans (hcfg (enough + enough') (Nat.le_add_right _ _))

theorem accepts_unique (h : Accepts stack past a cfg) (h' : Accepts stack past a cfg') : cfg = cfg' := by
  obtain ⟨enough, hcfg⟩ := h
  obtain ⟨enough', hcfg'⟩ := h'
  exact Except.ok.inj ((hcfg (enough + enough') (Nat.le_add_right _ _)).symm.trans (hcfg' (enough + enough') (Nat.le_add_left _ _)))

theorem sameResult_of_rejects (h : Rejects stack past a) : SameResult stack past a c ↔ Rejects stack past c := by
  constructor
  · rintro (⟨-, hc⟩ | ⟨cfg, cfg', hcfg, -, -⟩)
    · exact hc
    · exact absurd hcfg (not_accepts h)
  · exact fun hc => Or.inl ⟨h, hc⟩

theorem sameResult_of_accepts (h : Accepts stack past a cfg) (h' : Accepts stack past c cfg') :
    SameResult stack past a c ↔ ∀ section_ key, iniGetValue cfg' section_ key = iniGetValue cfg section_ key := by
  constructor
  · rintro (⟨ha, -⟩ | ⟨cfg₁, cfg₁', hcfg, hcfg', hsame⟩)
    · exact absurd h (not_accepts ha)
    · obtain rfl := accepts_unique h hcfg
      obtain rfl := accepts_unique h' hcfg'
      exact hsame
  · exact fun hsame => Or.inr ⟨cfg, cfg', h, h', hsame⟩

theorem not_sameResult (h : Accepts stack past a cfg) (h' : Rejects stack past c) : ¬SameResult stack past a c := by
  rintro (⟨ha, -⟩ | ⟨cfg, cfg', -, hcfg', -⟩)
  · exact not_accepts ha h
  · exact not_accepts h' hcfg'

theorem rejects_of_read (h : ∀ r ∈ readAll a.bytes, r.place.atTurn = false ∧ r.place.runsOver = false) : Rejects stack past a :=
  ⟨_, fun _ enough => parsebuf_fail stack ample past h enough⟩

theorem rejects_of_none (h : readAll a.bytes = none) : Rejects stack past a := by
  refine rejects_of_read ?_
  rw [h]
  exact nofun

theorem accepts_of_read (nonempty : a.bytes ≠ []) (h : readAll a.bytes = some r) (atTurn : r.place.atTurn = true) :
    Accepts stack past a (stored stack r.entries).2 :=
  ⟨_, fun _ enough => parsebuf_ok stack past nonempty h atTurn enough⟩

/-- A text that is run over is refused with a section name behind it that is not closed. -/
theorem rejects_of_over (stack : Stack) (h : readAll a.bytes = some r) (hover : r.place.runsOver = true) :
    ∃ past, Rejects stack past a := by
  let behind : Text := ⟨[91, 10], by decide⟩
  have nonempty : a.bytes ≠ [] := nonempty_of_runsOver (by rw [Text.runsOver, h]; exact hover)
  refine ⟨behind.buffer fun _ => 0, 2 * a.bytes.length + 1 + 5, fun fuel enough => ?_⟩
  have fate := buffer_fate 5 stack a (behind.buffer fun _ => 0) nonempty (show ample.config = true from rfl) enough
  rw [h] at fate
  obtain ⟨inner, hzero⟩ := runsOver_iff.mp hover
  cases fate with
  | accepted _ _ head => cases head.atTurn.symm.trans inner
  | cut _ step _ _ => exact absurd step hzero
  | @overrun _ p _ r' fuel' _ step goes _ head left =>
    have hready := step_zero inner step
    have hturns : r'.place.turns = 1 := by rw [hready]; rfl
    obtain ⟨place, entries⟩ := r'
    obtain rfl : place = .ready := hready
    have hrefused : Lts.run Reader.step ⟨.ready, entries⟩ behind.bytes = none := rfl
    have hfuel : 2 * behind.bytes.length + Place.ready.turns + 0 ≤ fuel' := left
    have hnext := parse_from fuel' 0 head hfuel (a.slice_past behind fun _ => 0) (fun hrun => absurd hrefused hrun) behind.zeroFree
    rw [hrefused] at hnext
    cases hnext with
    | refused goes' _ => rw [(goes.trans goes').run_throw]

/-! ### Carriage returns -/

/-- Some lines are refused with either end, or none is; then a carriage return goes to each value, and no lookup may find one. -/
def PlainText.ReturnsAlike (text : PlainText) : Prop :=
  ((∃ line ∈ text.lines, line.ends Place.refusesFeed = true) ∧ ∃ line ∈ text.lines, line.ends Place.refusesReturn = true) ∨
  ((∀ line ∈ text.lines, line.ends Place.refusesFeed = false ∧ line.ends Place.refusesReturn = false) ∧
    ∀ r ∈ readAll text.lf.bytes, ∀ section_ key, valueUnder r.entries section_ key = none)

theorem lines_nonempty (text : PlainText) : text.lines ≠ [] := List.append_ne_nil_of_right_ne_nil _ (List.cons_ne_nil _ _)

theorem rejects_lines_iff (h : lines ≠ []) : Rejects stack past (linesText lines) ↔ readLines lines = none := by
  cases hentries : readLines lines with
  | none => exact iff_of_true (rejects_of_none (by rw [readAll_lines, hentries]; rfl)) rfl
  | some entries => exact iff_of_false (fun hrejects => not_accepts hrejects (accepts_lines.mpr ⟨h, entries, hentries, rfl⟩)) nofun

theorem sameResult_crlf (stack : Stack) (past : Mem) (text : PlainText) (fits : text.lf.PairsFit) :
    SameResult stack past text.lf text.crlf ↔ text.ReturnsAlike := by
  have hmapped : text.lines.map Line.withReturn ≠ [] := fun h => lines_nonempty text (List.map_eq_nil_iff.mp h)
  have hreturns : readLines (text.lines.map Line.withReturn) = none ↔ ∃ line ∈ text.lines, line.ends Place.refusesReturn = true := by
    rw [readLines_eq_none]
    simp only [List.mem_map, exists_exists_and_eq_and, withReturn_read_eq_none]
  have hfeeds : readLines text.lines = none ↔ ∃ line ∈ text.lines, line.ends Place.refusesFeed = true := by
    rw [readLines_eq_none]
    simp only [read_eq_none]
  cases hentries : readLines text.lines with
  | none =>
    have hrejects : Rejects stack past text.lf := (rejects_lines_iff (lines_nonempty text)).mpr hentries
    obtain ⟨line, hline, hrefuses⟩ := hfeeds.mp hentries
    have hcrlf : Rejects stack past text.crlf ↔ _ := rejects_lines_iff hmapped
    rw [sameResult_of_rejects hrejects, hcrlf, hreturns, PlainText.ReturnsAlike]
    constructor
    · exact fun h => Or.inl ⟨⟨line, hline, hrefuses⟩, h⟩
    · rintro (⟨-, h⟩ | ⟨h, -⟩)
      · exact h
      · cases hrefuses.symm.trans (h line hline).1
  | some entries =>
    have haccepts : Accepts stack past text.lf (stored stack entries).2 := accepts_lines.mpr ⟨lines_nonempty text, entries, hentries, rfl⟩
    have hread : readAll text.lf.bytes = some ⟨.ready, entries⟩ := by rw [PlainText.lf, readAll_lines, hentries]; rfl
    have hnone : ¬∃ line ∈ text.lines, line.ends Place.refusesFeed = true := by rw [← hfeeds, hentries]; exact nofun
    by_cases hreturn : ∃ line ∈ text.lines, line.ends Place.refusesReturn = true
    · have hcrlf : Rejects stack past text.crlf := (rejects_lines_iff hmapped).mpr (hreturns.mpr hreturn)
      refine iff_of_false (not_sameResult haccepts hcrlf) ?_
      rintro (⟨h, -⟩ | ⟨h, -⟩)
      · exact hnone h
      · obtain ⟨line, hline, hrefuses⟩ := hreturn
        cases hrefuses.symm.trans (h line hline).2
    · have hplain : ∀ line ∈ text.lines, line.ends Place.refusesFeed = false ∧ line.ends Place.refusesReturn = false := by
        intro line hline
        exact ⟨Bool.eq_false_iff.mpr fun h => hnone ⟨line, hline, h⟩, Bool.eq_false_iff.mpr fun h => hreturn ⟨line, hline, h⟩⟩
      have hcrlf : readLines (text.lines.map Line.withReturn) = some (entries.map Entry.withReturn) := by
        rw [readLines_withReturn (fun line hline => (hplain line hline).1) fun line hline => (hplain line hline).2, hentries]
        rfl
      have haccepts' : Accepts stack past text.crlf _ := accepts_lines.mpr ⟨hmapped, _, hcrlf, rfl⟩
      have short := (pairsFit_lines hentries).mp fits
      rw [sameResult_of_accepts haccepts haccepts', lookups_withReturn short, PlainText.ReturnsAlike, hread]
      constructor
      · intro h
        refine Or.inr ⟨hplain, fun r hr => ?_⟩
        obtain rfl := Option.some.inj hr
        exact h
      · rintro (⟨h, -⟩ | ⟨-, h⟩)
        · exact absurd h hnone
        · exact h _ rfl

/-! ### The last line feed -/

/-- Where the text may end without a line feed. At an equals sign the pair is lost: that is not seen if it has no key, or its
    key has a value already. -/
def Reader.EndsAlike (r : Reader) : Prop :=
  match r.place with
  | .ready | .hash | .key _ | .gap _ => True
  | .name token => token.length ≠ 255
  | .began first => first = '='.toUInt8
  | .equals key => key = [] ∨ (valueUnder r.entries (sectionBehind none r.entries) key).isSome = true
  | .bracket | .comment | .lead _ | .value _ _ => False

def PlainText.EndsAlike (text : PlainText) : Prop := ∀ r ∈ readAll text.unended.bytes, r.EndsAlike

theorem lf_bytes (text : PlainText) : text.lf.bytes = text.unended.bytes ++ ['\n'.toUInt8] := by
  simp [PlainText.lf, PlainText.lines, PlainText.unended, linesText]

theorem lf_nonempty (text : PlainText) : text.lf.bytes ≠ [] := linesText_nonempty (lines_nonempty text)

theorem unended_nonempty (text : PlainText) : text.unended.bytes ≠ [] := List.append_ne_nil_of_right_ne_nil _ text.nonempty

theorem readAll_lf (text : PlainText) {entries : List Entry} (h : readAll text.unended.bytes = some ⟨place, entries⟩) :
    readAll text.lf.bytes = if place.refusesFeed then none else some ⟨.ready, entries ++ place.entered⟩ := by
  rw [readAll] at h
  rw [readAll, lf_bytes, Lts.run_append, h, Option.bind_some, Lts.run, step_feed]
  split <;> rfl

/-- A text that is accepted with the last line feed is not without it if it is run over then. -/
theorem over_differs (stack : Stack) (h : readAll text.unended.bytes = some ⟨place, entries⟩) (hover : place.runsOver = true)
    (hfeed : place.refusesFeed = false) : ¬∀ past, SameResult stack past text.lf text.unended := by
  intro hsame
  obtain ⟨past, hrejects⟩ := rejects_of_over stack h hover
  have hread := readAll_lf text h
  rw [hfeed, if_neg Bool.false_ne_true] at hread
  exact not_sameResult (accepts_of_read (lf_nonempty text) hread rfl) hrejects (hsame past)

theorem refused_differs (stack : Stack) (past : Mem) (h : readAll text.unended.bytes = some ⟨place, entries⟩) (atTurn : place.atTurn = true)
    (hfeed : place.refusesFeed = true) : ¬SameResult stack past text.lf text.unended := by
  have hread := readAll_lf text h
  rw [hfeed, if_pos rfl] at hread
  rw [sameResult_of_rejects (rejects_of_none hread)]
  exact fun hrejects => not_accepts hrejects (accepts_of_read (unended_nonempty text) h atTurn)

theorem refused_same (stack : Stack) (past : Mem) (h : readAll text.unended.bytes = some ⟨place, entries⟩) (inner : place.atTurn = false)
    (hover : place.runsOver = false) (hfeed : place.refusesFeed = true) : SameResult stack past text.lf text.unended := by
  have hread := readAll_lf text h
  rw [hfeed, if_pos rfl] at hread
  rw [sameResult_of_rejects (rejects_of_none hread)]
  refine rejects_of_read ?_
  rw [h]
  rintro r ⟨⟩
  exact ⟨inner, hover⟩

/-- Where both texts are accepted the lookups decide. -/
theorem accepted_iff (stack : Stack) (past : Mem) (h : readAll text.unended.bytes = some ⟨place, entries⟩) (atTurn : place.atTurn = true)
    (hfeed : place.refusesFeed = false) : SameResult stack past text.lf text.unended ↔ ∀ section_ key,
      iniGetValue (stored stack (entries ++ place.entered)).2 section_ key = iniGetValue (stored stack entries).2 section_ key := by
  have hread := readAll_lf text h
  rw [hfeed, if_neg Bool.false_ne_true] at hread
  rw [sameResult_of_accepts (accepts_of_read (lf_nonempty text) hread rfl) (accepts_of_read (unended_nonempty text) h atTurn)]
  exact forall_congr' fun _ => forall_congr' fun _ => eq_comm

theorem sameResult_unended (text : PlainText) :
    (∀ stack past, SameResult stack past text.lf text.unended) ↔ text.EndsAlike := by
  let zero : Stack := ⟨fun _ => 0, fun _ => 0, fun _ => 0, fun _ => 0⟩
  rw [PlainText.EndsAlike]
  cases h : readAll text.unended.bytes with
  | none =>
    have hread : readAll text.lf.bytes = none := by
      rw [readAll] at h
      rw [readAll, lf_bytes, Lts.run_append, h]
      rfl
    exact iff_of_true (fun stack past => (sameResult_of_rejects (rejects_of_none hread)).mpr (rejects_of_none h)) fun r hr => absurd hr (Option.not_mem_none r)
  | some r =>
    obtain ⟨place, entries⟩ := r
    have hends : (∀ r ∈ some (Reader.mk place entries), r.EndsAlike) ↔ Reader.EndsAlike ⟨place, entries⟩ :=
      ⟨fun hall => hall _ rfl, fun hone r hr => Option.some.inj hr ▸ hone⟩
    have fits := (keysFit_readAll h)
    rw [hends]
    cases place with
    | ready | hash =>
      refine iff_of_true (fun stack past => (accepted_iff stack past h rfl rfl).mpr fun _ _ => ?_) trivial
      rw [Place.entered, List.append_nil]
    | comment | lead _ | value _ _ => exact iff_of_false (fun hall => over_differs zero h rfl rfl (hall zero)) id
    | bracket => exact iff_of_false (fun hall => refused_differs zero (fun _ => 0) h rfl rfl (hall zero _)) id
    | key _ | gap _ => exact iff_of_true (fun stack past => refused_same stack past h rfl rfl rfl) trivial
    | name token =>
      by_cases hlong : token.length = 255
      · have hover : (Place.name token).runsOver = true := decide_eq_true hlong
        have hfeed : (Place.name token).refusesFeed = false := decide_eq_false (not_not_intro hlong)
        exact iff_of_false (fun hall => over_differs zero h hover hfeed (hall zero)) fun hends => hends hlong
      · have hover : (Place.name token).runsOver = false := decide_eq_false hlong
        have hfeed : (Place.name token).refusesFeed = true := decide_eq_true hlong
        exact iff_of_true (fun stack past => refused_same stack past h rfl hover hfeed) hlong
    | began first =>
      by_cases hequals : first = '='.toUInt8
      · have hfeed : (Place.began first).refusesFeed = false := decide_eq_false (not_not_intro hequals)
        refine iff_of_true (fun stack past => (accepted_iff stack past h rfl hfeed).mpr ?_) hequals
        exact (lookups_pair fits.entries (Nat.zero_le _)).mpr (Or.inl rfl)
      · have hfeed : (Place.began first).refusesFeed = true := decide_eq_true hequals
        exact iff_of_false (fun hall => refused_differs zero (fun _ => 0) h rfl hfeed (hall zero _)) hequals
    | equals key =>
      constructor
      · intro hall
        exact (lookups_pair fits.entries fits.place).mp ((accepted_iff zero (fun _ => 0) h rfl rfl).mp (hall zero _))
      · intro hends stack past
        exact (accepted_iff stack past h rfl rfl).mpr ((lookups_pair fits.entries fits.place).mpr hends)

theorem not_runsOver_unended (h : text.EndsAlike) : text.unended.runsOver = false := by
  rw [Text.runsOver]
  cases hread : readAll text.unended.bytes with
  | none => rfl
  | some r =>
    have hends := h r hread
    obtain ⟨place, entries⟩ := r
    cases place with
    | comment | lead _ | value _ _ => exact hends.elim
    | name token => exact decide_eq_false hends
    | _ => rfl

/-- The line ends of a text do not matter exactly if its pairs fit with either end, carriage returns make nothing of it refused or
    accepted and are not seen in a value, and the last line may do without its end. -/
theorem lineEndsFree_iff (text : PlainText) : LineEndsFree text ↔
    (text.lf.PairsFit ∧ text.crlf.PairsFit) ∧ text.ReturnsAlike ∧ text.EndsAlike := by
  let zero : Stack := ⟨fun _ => 0, fun _ => 0, fun _ => 0, fun _ => 0⟩
  have hlf : text.lf.runsOver = false := not_runsOver_lines _
  have hcrlf : text.crlf.runsOver = false := not_runsOver_lines _
  constructor
  · intro h
    obtain ⟨⟨holds, holds', -⟩, hreturns, -⟩ := h zero fun _ => 0
    have fits := (arraysHold_iff hlf).mp holds
    exact ⟨⟨fits, (arraysHold_iff hcrlf).mp holds'⟩, (sameResult_crlf zero (fun _ => 0) text fits).mp hreturns,
      (sameResult_unended text).mp fun stack past => (h stack past).2.2⟩
  · rintro ⟨⟨fits, fits'⟩, hreturns, hends⟩ stack past
    have hunended : ArraysHold stack past text.unended := (arraysHold_iff (not_runsOver_unended hends)).mpr (pairsFit_of_append (lf_bytes text) fits)
    exact ⟨⟨(arraysHold_iff hlf).mpr fits, (arraysHold_iff hcrlf).mpr fits', hunended⟩,
      (sameResult_crlf stack past text fits).mpr hreturns, (sameResult_unended text).mpr hends stack past⟩

/-- Of the line `a=b` the value is `b`, or `b` and a carriage return. -/
theorem return_in_value : ¬LineEndsFree ⟨[], ⟨[97, 61, 98], by decide +kernel⟩, by decide +kernel, by decide⟩ := by
  intro h
  let stack : Stack := ⟨fun _ => 0, fun _ => 0, fun _ => 0, fun _ => 0⟩
  obtain ⟨-, hcrlf, -⟩ := h stack fun _ => 0
  have haccepts : Accepts stack (fun _ => 0) (linesText [⟨[97, 61, 98], by decide +kernel⟩]) _ :=
    accepts_lines.mpr ⟨nofun, [.pair [97] [98]], rfl, rfl⟩
  have haccepts' : Accepts stack (fun _ => 0) (linesText [Line.withReturn ⟨[97, 61, 98], by decide +kernel⟩]) _ :=
    accepts_lines.mpr ⟨nofun, [.pair [97] [98, 13]], rfl, rfl⟩
  have hsame := (sameResult_of_accepts haccepts haccepts').mp hcrlf none [97]
  rw [iniGetValue_stored, iniGetValue_stored] at hsame
  exact absurd (Option.some.inj hsame) (by decide)

end Vcmp.Ini
