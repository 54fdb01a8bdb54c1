import Vcmp.Theorems.IniReader

/-! Lines that are read one after another, and what is looked up among their entries. -/

namespace Vcmp.Ini
open ByteMem CString

variable {r r' : Reader} {l : List UInt8} {b : UInt8} {stack : Stack} {entries more : List Entry} {lines : List Line}
  {section_ current : Option (List UInt8)} {cfg : IniConfig} {key value : List UInt8}

/-! ### Entries in front -/

namespace Reader

/-- The reader with entries in front of its own. -/
def behind (entries : List Entry) (r : Reader) : Reader := { r with entries := entries ++ r.entries }

@[simp] theorem behind_goTo (r : Reader) (place : Place) : (r.behind entries).goTo place = (r.goTo place).behind entries := rfl

@[simp] theorem behind_enter (r : Reader) (entry : Entry) : (r.behind entries).enter entry = (r.enter entry).behind entries := by
  rw [enter, enter, behind, behind, List.append_assoc]

theorem stepReady_behind (r : Reader) (b : UInt8) : (r.behind entries).stepReady b = (r.stepReady b).behind entries := by
  simp only [stepReady, behind_goTo]
  split_ifs <;> rfl

theorem stepComment_behind (r : Reader) (b : UInt8) : (r.behind entries).stepComment b = (r.stepComment b).behind entries := by
  simp only [stepComment, behind_goTo]
  split_ifs <;> rfl

theorem stepName_behind (r : Reader) (b : UInt8) (token : List UInt8) :
    (r.behind entries).stepName b token = (r.stepName b token).map (behind entries) := by
  simp only [stepName, behind_goTo, behind_enter]
  split_ifs <;> rfl

theorem stepGap_behind (r : Reader) (b : UInt8) (key : List UInt8) :
    (r.behind entries).stepGap b key = (r.stepGap b key).map (behind entries) := by
  simp only [stepGap, behind_goTo]
  split_ifs <;> rfl

theorem stepKey_behind (r : Reader) (b : UInt8) (token : List UInt8) :
    (r.behind entries).stepKey b token = (r.stepKey b token).map (behind entries) := by
  simp only [stepKey, behind_goTo, stepGap_behind]
  split_ifs <;> rfl

theorem stepValue_behind (r : Reader) (b : UInt8) (key token : List UInt8) :
    (r.behind entries).stepValue b key token = (r.stepValue b key token).behind entries := by
  simp only [stepValue, behind_goTo, behind_enter]
  split_ifs <;> rfl

theorem stepLead_behind (r : Reader) (b : UInt8) (key : List UInt8) :
    (r.behind entries).stepLead b key = (r.stepLead b key).behind entries := by
  simp only [stepLead, behind_goTo, stepValue_behind]
  split_ifs <;> rfl

theorem stepOne_behind (r : Reader) (b : UInt8) : (r.behind entries).stepOne b = (r.stepOne b).map (behind entries) := by
  obtain ⟨place, own⟩ := r
  cases place with
  | ready => exact congrArg some (stepReady_behind ⟨.ready, own⟩ b)
  | hash => exact congrArg some (stepComment_behind ⟨.hash, own⟩ b)
  | comment => exact congrArg some (stepComment_behind ⟨.comment, own⟩ b)
  | bracket => exact stepName_behind ⟨.bracket, own⟩ b []
  | name token => exact stepName_behind ⟨.name token, own⟩ b token
  | began _ => rfl
  | key token => exact stepKey_behind ⟨.key token, own⟩ b token
  | gap key => exact stepGap_behind ⟨.gap key, own⟩ b key
  | equals key => exact congrArg some (stepLead_behind ⟨.equals key, own⟩ b key)
  | lead key => exact congrArg some (stepLead_behind ⟨.lead key, own⟩ b key)
  | value key token => exact congrArg some (stepValue_behind ⟨.value key token, own⟩ b key token)

theorem step_eq_stepOne (h : ∀ first, r.place ≠ .began first) : r.step b = r.stepOne b := by
  rw [step]
  split
  next first hplace => exact absurd hplace (h first)
  · rfl

/-- What was read before does not matter to a step. -/
theorem step_behind (r : Reader) (b : UInt8) : (r.behind entries).step b = (r.step b).map (behind entries) := by
  obtain ⟨place, own⟩ := r
  by_cases hplace : ∃ first, place = .began first
  · obtain ⟨first, rfl⟩ := hplace
    change (((Reader.mk (.began first) own).behind entries).stepKey first []).bind (fun r => r.stepOne b) =
      ((stepKey ⟨.began first, own⟩ first []).bind fun r => r.stepOne b).map (behind entries)
    rw [stepKey_behind]
    cases stepKey ⟨.began first, own⟩ first [] with
    | none => rfl
    | some r => exact stepOne_behind r b
  · have hother := not_exists.mp hplace
    rw [step_eq_stepOne hother, step_eq_stepOne hother, stepOne_behind]

end Reader

theorem run_behind (r : Reader) (l : List UInt8) :
    Lts.run Reader.step (r.behind entries) l = (Lts.run Reader.step r l).map (Reader.behind entries) := by
  induction l generalizing r with
  | nil => rfl
  | cons b l ih =>
    rw [Lts.run, Lts.run, Reader.step_behind]
    cases r.step b with
    | none => rfl
    | some r => exact ih r

theorem run_from (place : Place) (entries : List Entry) (l : List UInt8) :
    Lts.run Reader.step ⟨place, entries⟩ l = (Lts.run Reader.step ⟨place, []⟩ l).map (Reader.behind entries) := by
  rw [← run_behind, Reader.behind, List.append_nil]

/-- Entries are only added. -/
theorem entries_run (h : Lts.run Reader.step r l = some r') : ∃ more, r'.entries = r.entries ++ more := by
  obtain ⟨place, entries⟩ := r
  rw [run_from] at h
  obtain ⟨r₁, -, rfl⟩ := Option.map_eq_some_iff.mp h
  exact ⟨r₁.entries, rfl⟩

/-! ### Lines -/

/-- The entries of a line. -/
def Line.read (line : Line) : Option (List Entry) := (readAll (line.bytes ++ ['\n'.toUInt8])).map Reader.entries

def readLines : List Line → Option (List Entry)
  | [] => some []
  | line :: lines => line.read.bind fun entries => (readLines lines).map (entries ++ ·)

theorem readAll_line (line : Line) :
    readAll (line.bytes ++ ['\n'.toUInt8]) = line.read.map fun entries => ⟨.ready, entries⟩ := by
  rw [Line.read]
  cases h : readAll (line.bytes ++ ['\n'.toUInt8]) with
  | none => rfl
  | some r =>
    rw [readAll, Lts.run_append] at h
    obtain ⟨r₁, -, h⟩ := Option.bind_eq_some_iff.mp h
    obtain ⟨r₂, hstep, h⟩ := Option.bind_eq_some_iff.mp h
    obtain rfl := Option.some.inj h
    have hready := step_lf hstep
    obtain ⟨place, entries⟩ := r₂
    obtain rfl : place = .ready := hready
    rfl

theorem linesText_cons (line : Line) (lines : List Line) :
    (linesText (line :: lines)).bytes = line.bytes ++ ['\n'.toUInt8] ++ (linesText lines).bytes := by
  simp only [linesText, List.flatMap_cons]

/-- Each line is read from the beginning, and the reader is ready behind it. -/
theorem readAll_lines (lines : List Line) : readAll (linesText lines).bytes = (readLines lines).map fun entries => ⟨.ready, entries⟩ := by
  induction lines with
  | nil => rfl
  | cons line lines ih =>
    have hline := readAll_line line
    rw [readAll] at hline ih
    rw [readAll, linesText_cons, Lts.run_append, hline, readLines]
    cases line.read with
    | none => rfl
    | some entries =>
      have hrest : Lts.run Reader.step ⟨.ready, entries⟩ (linesText lines).bytes = _ := run_from .ready entries _
      rw [Option.map_some, Option.bind_some, Option.bind_some, hrest]
      rw [start] at ih
      rw [ih]
      cases readLines lines <;> rfl

theorem readLines_append (lines rest : List Line) :
    readLines (lines ++ rest) = (readLines lines).bind fun entries => (readLines rest).map (entries ++ ·) := by
  induction lines with
  | nil => simp [readLines]
  | cons line lines ih =>
    rw [List.cons_append, readLines, readLines, ih]
    cases line.read with
    | none => rfl
    | some entries =>
      cases readLines lines with
      | none => rfl
      | some more =>
        cases readLines rest with
        | none => rfl
        | some last => exact congrArg some (List.append_assoc entries more last).symm

theorem linesText_nonempty (h : lines ≠ []) : (linesText lines).bytes ≠ [] := by
  obtain ⟨line, lines, rfl⟩ := List.exists_cons_of_ne_nil h
  rw [linesText_cons]
  simp

/-! ### Lookup -/

/-- The section behind some entries. -/
def sectionBehind (current : Option (List UInt8)) (entries : List Entry) : Option (List UInt8) :=
  entries.foldl (fun current entry => match entry with
    | .header name => if name = [] then none else some name
    | .pair _ _ => current) current

/-- The pairs with a key that some entries put under a section. -/
def pairsUnder (section_ : Option (List UInt8)) : Option (List UInt8) → List Entry → List (List UInt8 × List UInt8)
  | _, [] => []
  | _, .header name :: entries => pairsUnder section_ (if name = [] then none else some name) entries
  | current, .pair key value :: entries =>
    (if key ≠ [] ∧ section_ = current then [(key, value)] else []) ++ pairsUnder section_ current entries

/-- A pair as it comes out of the arrays. -/
def Stack.keyval (stack : Stack) (pair : List UInt8 × List UInt8) : IniKeyval :=
  ⟨held stack.currentKey pair.1, held stack.currentValue pair.2⟩

theorem held_eq_nil {behind : Mem} : held behind key = [] ↔ key = [] := by
  rw [held]
  split
  · rfl
  next hlong =>
    have hlength : key.length ≠ 0 := by omega
    refine iff_of_false (fun h => ?_) fun h => hlength (congrArg List.length h)
    have htake := congrArg List.length (List.append_eq_nil_iff.mp h).1
    rw [List.length_take, List.length_nil] at htake
    omega

/-- Each entry is stored in the section it stands in. -/
theorem keyvalsUnder_stored (named : current ≠ some []) (cfg : IniConfig) (entries : List Entry) :
    (entries.foldl (Entry.apply stack) (current, cfg)).1 = sectionBehind current entries ∧
      keyvalsUnder (entries.foldl (Entry.apply stack) (current, cfg)).2 section_ =
        keyvalsUnder cfg section_ ++ (pairsUnder section_ current entries).map stack.keyval := by
  induction entries generalizing current cfg with
  | nil => exact ⟨rfl, (List.append_nil _).symm⟩
  | cons entry entries ih =>
    cases entry with
    | header name =>
      refine ih ?_ cfg
      split
      · exact nofun
      next hname => exact fun h => hname (Option.some.inj h)
    | pair key value =>
      obtain ⟨hsection, hunder⟩ := ih named (assignKeyval true true cfg current (held stack.currentKey key) (held stack.currentValue value))
      refine ⟨hsection, hunder.trans ?_⟩
      by_cases hkey : key = []
      · have hassign : assignKeyval true true cfg current (held stack.currentKey key) (held stack.currentValue value) = cfg := by
          simp only [assignKeyval, if_pos (held_eq_nil.mpr hkey)]
        rw [hassign, pairsUnder, if_neg fun h => h.1 hkey, List.nil_append]
      · rw [keyvalsUnder_assigned cfg (fun h => hkey (held_eq_nil.mp h)) _ section_ named, List.append_assoc, pairsUnder,
          List.map_append]
        simp only [ne_eq, hkey, not_false_eq_true, true_and]
        split <;> rfl

theorem keyvalsUnder_empty (section_ : Option (List UInt8)) : keyvalsUnder ⟨[], []⟩ section_ = [] := by
  cases section_ with
  | none => rfl
  | some name => simp [keyvalsUnder, findSection]

theorem iniGetValue_stored (stack : Stack) (entries : List Entry) (section_ : Option (List UInt8)) (key : List UInt8) :
    iniGetValue (stored stack entries).2 section_ key =
      if key = [] then none else valueIn ((pairsUnder section_ none entries).map stack.keyval) key := by
  have named : (none : Option (List UInt8)) ≠ some [] := nofun
  rw [iniGetValue_eq, stored, (keyvalsUnder_stored named _ entries).2, keyvalsUnder_empty, List.nil_append]

theorem pairsUnder_append (entries more : List Entry) : pairsUnder section_ current (entries ++ more) =
    pairsUnder section_ current entries ++ pairsUnder section_ (sectionBehind current entries) more := by
  induction entries generalizing current with
  | nil => rfl
  | cons entry entries ih =>
    cases entry with
    | header name => exact ih
    | pair key value => rw [List.cons_append, pairsUnder, ih, pairsUnder, List.append_assoc]; rfl

end Vcmp.Ini
