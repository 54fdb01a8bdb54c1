import Vcmp.Theorems.IniEntries
import Vcmp.Theorems.IniTokens

/-! The pairs that are read: in a text that ends with a line, they fit into the arrays where their entries are short. -/

namespace Vcmp.Ini
open ByteMem CString

variable {r r' : Reader} {l : List UInt8} {b : UInt8} {key token : List UInt8} {stack : Stack} {past : Mem} {lines : List Line}
  {cfg : IniConfig} {entries more : List Entry}

def Short (key value : List UInt8) : Prop := key.length ≤ 255 ∧ value.length ≤ 255

def Entry.Short : Entry → Prop
  | .header _ => True
  | .pair key value => Ini.Short key value

/-- Behind an equals sign the key and the value ahead are short. -/
def Reader.FitsHere (r : Reader) (l : List UInt8) : Prop := ∀ key, r.place.keyRead = some key → Short key (valueAhead l)

def Reader.Fits (r : Reader) (l : List UInt8) : Prop :=
  ∀ u rest r', l = u ++ rest → rest ≠ [] → Lts.run Reader.step r u = some r' → r'.FitsHere rest

/-- In a value the pair is short whose value goes on in the bytes. -/
def Reader.Pending (r : Reader) (l : List UInt8) : Prop :=
  match r.place with
  | .lead key => Short key (valueAhead l)
  | .value key token => Short key (token ++ l.takeWhile fun b => !endsLine b)
  | _ => True

@[simp] theorem pending_lead : Reader.Pending ⟨.lead key, entries⟩ l ↔ Short key (valueAhead l) := Iff.rfl

@[simp] theorem pending_value :
    Reader.Pending ⟨.value key token, entries⟩ l ↔ Short key (token ++ l.takeWhile fun b => !endsLine b) := Iff.rfl

theorem valueAhead_blank (h : blank b = true) : valueAhead (b :: l) = valueAhead l := by
  rw [valueAhead, List.dropWhile_cons_of_pos h, valueAhead]

theorem valueAhead_cons (h : blank b = false) : valueAhead (b :: l) = (b :: l).takeWhile fun b => !endsLine b := by
  rw [valueAhead, List.dropWhile_cons_of_neg (by rw [h]; exact Bool.false_ne_true)]

theorem fits_cons (h : r.step b = some r') : r.Fits (b :: l) ↔ r.FitsHere (b :: l) ∧ r'.Fits l := by
  constructor
  · intro hfits
    refine ⟨hfits [] (b :: l) r rfl (List.cons_ne_nil b l) rfl, fun u rest r₁ hsplit hrest hrun => ?_⟩
    refine hfits (b :: u) rest r₁ (congrArg (b :: ·) hsplit) hrest ?_
    rw [Lts.run, h, Option.bind_some, hrun]
  · rintro ⟨hhere, hfits⟩ u rest r₁ hsplit hrest hrun
    cases u with
    | nil =>
      obtain rfl := Option.some.inj hrun
      obtain rfl : b :: l = rest := hsplit
      exact hhere
    | cons c u =>
      obtain ⟨rfl, hl⟩ := List.cons.inj hsplit
      rw [Lts.run, h, Option.bind_some] at hrun
      exact hfits u rest r₁ hl hrest hrun

theorem fitsHere_of_none (h : r.place.keyRead = none) (l : List UInt8) : r.FitsHere l := by
  intro key hkey
  rw [h] at hkey
  cases hkey

/-- What a byte enters is short where what was ahead of it is. -/
def Passes (r : Reader) (b : UInt8) (l : List UInt8) (r' : Reader) : Prop := ∃ more, r'.entries = r.entries ++ more ∧
  (r.FitsHere (b :: l) ∧ r.Pending (b :: l) ↔ r'.Pending l ∧ ∀ entry ∈ more, entry.Short)

theorem passes_value (entries : List Entry) (key token : List UInt8) (b : UInt8) (l : List UInt8) :
    Passes ⟨.value key token, entries⟩ b l (Reader.stepValue ⟨.value key token, entries⟩ b key token) := by
  have hhere : Reader.FitsHere ⟨.value key token, entries⟩ (b :: l) := fitsHere_of_none rfl _
  rw [Reader.stepValue]
  cases hends : endsLine b with
  | true =>
    rw [if_pos rfl]
    refine ⟨[.pair key token], rfl, ?_⟩
    have htake : (b :: l).takeWhile (fun b => !endsLine b) = [] := List.takeWhile_cons_of_neg (by rw [hends]; exact Bool.false_ne_true)
    rw [and_iff_right hhere, pending_value, htake, List.append_nil]
    exact ⟨fun h => ⟨trivial, List.forall_mem_singleton.mpr h⟩, fun h => h.2 _ (List.mem_singleton_self _)⟩
  | false =>
    rw [if_neg Bool.false_ne_true]
    refine ⟨[], (List.append_nil _).symm, ?_⟩
    have htake : (b :: l).takeWhile (fun b => !endsLine b) = b :: l.takeWhile fun b => !endsLine b :=
      List.takeWhile_cons_of_pos (by rw [hends]; rfl)
    rw [and_iff_right hhere, and_iff_left (List.forall_mem_nil _), pending_value, htake, List.append_cons]
    rfl

theorem passes_lead (entries : List Entry) (key : List UInt8) (b : UInt8) (l : List UInt8) :
    Passes ⟨.lead key, entries⟩ b l (Reader.stepLead ⟨.lead key, entries⟩ b key) := by
  have hhere : Reader.FitsHere ⟨.lead key, entries⟩ (b :: l) := fitsHere_of_none rfl _
  cases hblank : blank b with
  | true =>
    refine ⟨[], ?_, ?_⟩
    · rw [Reader.stepLead, if_pos (of_decide_eq_true hblank), List.append_nil]
      rfl
    · rw [Reader.stepLead, if_pos (of_decide_eq_true hblank), and_iff_right hhere, and_iff_left (List.forall_mem_nil _), pending_lead,
        valueAhead_blank hblank]
      rfl
  | false =>
    obtain ⟨more, hmore, hpasses⟩ := passes_value entries key [] b l
    have hnext : Reader.stepLead ⟨.lead key, entries⟩ b key = Reader.stepValue ⟨.value key [], entries⟩ b key [] := by
      rw [Reader.stepLead, if_neg (of_decide_eq_false hblank)]
      rfl
    have hhere' : Reader.FitsHere ⟨.value key [], entries⟩ (b :: l) := fitsHere_of_none rfl _
    rw [and_iff_right hhere'] at hpasses
    refine ⟨more, hnext ▸ hmore, ?_⟩
    rw [hnext, and_iff_right hhere, ← hpasses, pending_lead, pending_value, valueAhead_cons hblank, List.nil_append]

/-- Behind an equals sign the value ahead is that of the lead. -/
theorem passes_keyRead (entries : List Entry) {place : Place} (hkey : place.keyRead = some key) (b : UInt8) (l : List UInt8) :
    Passes ⟨place, entries⟩ b l (Reader.stepLead ⟨.lead key, entries⟩ b key) := by
  obtain ⟨more, hmore, hpasses⟩ := passes_lead entries key b l
  have hhere : Reader.FitsHere ⟨.lead key, entries⟩ (b :: l) := fitsHere_of_none rfl _
  have hpending : Reader.Pending ⟨place, entries⟩ (b :: l) := by
    cases place <;> trivial
  refine ⟨more, hmore, ?_⟩
  rw [and_iff_left hpending, ← hpasses, and_iff_right hhere, Reader.FitsHere, hkey]
  exact ⟨fun h => h key rfl, fun h key' hkey' => Option.some.inj hkey' ▸ h⟩

/-- Away from equals signs and values nothing is entered but section names. -/
theorem passes_of_header (hkey : r.place.keyRead = none) (hpending : ∀ l, r.Pending l) (hpending' : ∀ l, r'.Pending l)
    (hmore : r'.entries = r.entries ∨ ∃ name, r'.entries = r.entries ++ [.header name]) : Passes r b l r' := by
  have hhere := fitsHere_of_none hkey (b :: l)
  rcases hmore with hmore | ⟨name, hmore⟩
  · exact ⟨[], by rw [hmore, List.append_nil], iff_of_true ⟨hhere, hpending _⟩ ⟨hpending' l, List.forall_mem_nil _⟩⟩
  · exact ⟨[.header name], hmore, iff_of_true ⟨hhere, hpending _⟩ ⟨hpending' l, List.forall_mem_singleton.mpr trivial⟩⟩

theorem passes_gap {place : Place} (hkey : place.keyRead = none) (hpending : ∀ l, Reader.Pending ⟨place, entries⟩ l)
    (h : Reader.stepGap ⟨place, entries⟩ b key = some r') : Passes ⟨place, entries⟩ b l r' := by
  simp only [Reader.stepGap] at h
  split_ifs at h <;> cases h <;> exact passes_of_header hkey hpending (fun _ => trivial) (Or.inl rfl)

theorem passes_key {place : Place} (hkey : place.keyRead = none) (hpending : ∀ l, Reader.Pending ⟨place, entries⟩ l)
    (h : Reader.stepKey ⟨place, entries⟩ b token = some r') : Passes ⟨place, entries⟩ b l r' := by
  rw [Reader.stepKey] at h
  split_ifs at h
  · exact passes_gap hkey hpending h
  · cases h
    exact passes_of_header hkey hpending (fun _ => trivial) (Or.inl rfl)

theorem passes_step (l : List UInt8) (h : r.step b = some r') : Passes r b l r' := by
  obtain ⟨place, entries⟩ := r
  cases place with
  | ready =>
    obtain rfl := Option.some.inj h
    rw [Reader.stepReady]
    split_ifs <;> exact passes_of_header rfl (fun _ => trivial) (fun _ => trivial) (Or.inl rfl)
  | hash | comment =>
    obtain rfl := Option.some.inj h
    rw [Reader.stepComment]
    split_ifs <;> exact passes_of_header rfl (fun _ => trivial) (fun _ => trivial) (Or.inl rfl)
  | bracket | name _ =>
    first
    | rw [Reader.step_bracket, Reader.stepName] at h
    | rw [Reader.step_name, Reader.stepName] at h
    split at h
    · obtain rfl := Option.some.inj h
      exact passes_of_header rfl (fun _ => trivial) (fun _ => trivial) (Or.inr ⟨_, rfl⟩)
    · split at h
      · cases h
      · obtain rfl := Option.some.inj h
        exact passes_of_header rfl (fun _ => trivial) (fun _ => trivial) (Or.inl rfl)
  | began first =>
    obtain ⟨r₁, hfirst, hb⟩ := Option.bind_eq_some_iff.mp h
    by_cases hequals : first = '='.toUInt8
    · subst hequals
      obtain rfl := Option.some.inj hfirst
      obtain rfl := Option.some.inj hb
      exact passes_keyRead entries rfl b l
    · have hkey : (Place.began first).keyRead = none := if_neg hequals
      rw [Reader.stepKey, Reader.stepGap, if_neg hequals] at hfirst
      split at hfirst
      · split at hfirst
        · cases hfirst
        · obtain rfl := Option.some.inj hfirst
          exact passes_gap hkey (fun _ => trivial) hb
      · split at hfirst
        · cases hfirst
        · obtain rfl := Option.some.inj hfirst
          exact passes_key hkey (fun _ => trivial) hb
  | key token => exact passes_key rfl (fun _ => trivial) h
  | gap key => exact passes_gap rfl (fun _ => trivial) h
  | equals key =>
    obtain rfl := Option.some.inj h
    exact passes_keyRead entries rfl b l
  | lead key =>
    obtain rfl := Option.some.inj h
    exact passes_lead entries key b l
  | value key token =>
    obtain rfl := Option.some.inj h
    exact passes_value entries key token b l

/-- The pairs of a text that ends with a line fit where the entries are short. -/
theorem fits_run (h : Lts.run Reader.step r l = some r') (hready : r'.place = .ready) :
    ∃ more, r'.entries = r.entries ++ more ∧ (r.Fits l ∧ r.Pending l ↔ ∀ entry ∈ more, entry.Short) := by
  induction l generalizing r with
  | nil =>
    obtain rfl := Option.some.inj h
    refine ⟨[], (List.append_nil _).symm, iff_of_true ⟨?_, ?_⟩ (List.forall_mem_nil _)⟩
    · exact fun u rest _ hsplit hrest => absurd (List.append_eq_nil_iff.mp hsplit.symm).2 hrest
    · rw [Reader.Pending, hready]
      trivial
  | cons b l ih =>
    obtain ⟨r₁, hstep, hrun⟩ := Option.bind_eq_some_iff.mp h
    obtain ⟨first, hfirst, hpasses⟩ := passes_step l hstep
    obtain ⟨more, hmore, hfits⟩ := ih hrun
    refine ⟨first ++ more, by rw [hmore, hfirst, List.append_assoc], ?_⟩
    rw [fits_cons hstep, List.forall_mem_append, ← hfits]
    tauto

/-! ### Texts of lines -/

/-- With all the memory it asks for the parser makes this configuration of the text. -/
def Accepts (stack : Stack) (past : Mem) (text : Text) (cfg : IniConfig) : Prop := ∃ enough, ∀ fuel ≥ enough,
  ((iniParsebuf stack ample fuel).run.run { mem := text.buffer past }).1 = .ok cfg

/-- The stores to `tmp` stay inside, and the strings that are used end inside of their arrays. -/
def ArraysHold (stack : Stack) (past : Mem) (text : Text) : Prop := ∃ enough, ∀ fuel ≥ enough, EachTurn ample (text.buffer past)
  (fun fuel p => StoresInside (text.buffer past) fuel p ∧ StringsEnd ample (text.buffer past) fuel p) fuel (.start stack)

/-- A text of lines is accepted if each of its lines can be read. -/
theorem accepts_lines : Accepts stack past (linesText lines) cfg ↔
    lines ≠ [] ∧ ∃ entries, readLines lines = some entries ∧ cfg = (stored stack entries).2 := by
  have hread := readAll_lines lines
  constructor
  · rintro ⟨enough, hcfg⟩
    have hfuel := hcfg (enough + (2 * (linesText lines).bytes.length + 1)) (Nat.le_add_right _ _)
    by_cases nonempty : lines = []
    · subst nonempty
      rw [(parsebuf_refused (Or.inl (Text.buffer_empty past rfl))).run_throw] at hfuel
      cases hfuel
    cases hentries : readLines lines with
    | none =>
      rw [hentries] at hread
      have hfail : ∀ r ∈ readAll (linesText lines).bytes, r.place.atTurn = false ∧ r.place.runsOver = false := by
        rw [hread]
        exact nofun
      rw [parsebuf_fail stack ample past hfail (Nat.le_add_left _ _)] at hfuel
      cases hfuel
    | some entries =>
      rw [hentries] at hread
      rw [parsebuf_ok stack past (linesText_nonempty nonempty) hread rfl (Nat.le_add_left _ _)] at hfuel
      exact ⟨nonempty, entries, rfl, (Except.ok.inj hfuel).symm⟩
  · rintro ⟨nonempty, entries, hentries, rfl⟩
    rw [hentries] at hread
    exact ⟨_, fun fuel enough => parsebuf_ok stack past (linesText_nonempty nonempty) hread rfl enough⟩

/-- The arrays hold where the pairs fit, in a text that is not run over. -/
theorem arraysHold_iff {text : Text} (hover : text.runsOver = false) : ArraysHold stack past text ↔ text.PairsFit := by
  constructor
  · rintro ⟨enough, hturns⟩
    exact (turns_fit_iff stack ample past hover (Nat.le_add_left _ enough)).mp (hturns _ (Nat.le_add_right _ _))
  · exact fun h => ⟨_, fun fuel enough => (turns_fit_iff stack ample past hover enough).mpr h⟩

theorem not_runsOver_lines (lines : List Line) : (linesText lines).runsOver = false := by
  rw [Text.runsOver, readAll_lines]
  cases readLines lines <;> rfl

theorem pairsFit_lines (h : readLines lines = some entries) : (linesText lines).PairsFit ↔ ∀ entry ∈ entries, entry.Short := by
  have hread : readAll (linesText lines).bytes = some ⟨.ready, entries⟩ := by rw [readAll_lines, h]; rfl
  obtain ⟨more, hmore, hfits⟩ := fits_run hread rfl
  obtain rfl : entries = more := hmore
  have hpending : start.Pending (linesText lines).bytes := trivial
  rw [← hfits, and_iff_left hpending]
  exact ⟨fun h u rest r hsplit hrest hrun key hkey => h u rest r key hsplit hrest hrun hkey,
    fun h u rest r key hsplit hrest hrun hkey => h u rest r hsplit hrest hrun key hkey⟩

theorem arraysHold_lines (h : readLines lines = some entries) : ArraysHold stack past (linesText lines) ↔ ∀ entry ∈ entries, entry.Short := by
  rw [arraysHold_iff (not_runsOver_lines lines), pairsFit_lines h]

theorem length_valueAhead_append (rest l : List UInt8) : (valueAhead rest).length ≤ (valueAhead (rest ++ l)).length := by
  rw [valueAhead, valueAhead, List.dropWhile_append]
  split
  next hempty =>
    rw [List.isEmpty_iff.mp hempty]
    exact Nat.zero_le _
  · rw [List.takeWhile_append]
    split
    · rw [List.length_append]
      exact (List.takeWhile_prefix _).length_le.trans (Nat.le_add_right _ _)
    · exact Nat.le_refl _

/-- Of a text whose pairs fit, those of a part from its start fit too. -/
theorem pairsFit_of_append {text part : Text} (h : text.bytes = part.bytes ++ l) (fits : text.PairsFit) : part.PairsFit := by
  intro u rest r keyName hsplit hrest hread hkey
  have hwhole : text.bytes = u ++ (rest ++ l) := by rw [h, hsplit, List.append_assoc]
  obtain ⟨hkeyShort, hvalue⟩ := fits u (rest ++ l) r keyName hwhole (List.append_ne_nil_of_left_ne_nil hrest l) hread hkey
  exact ⟨hkeyShort, (length_valueAhead_append rest l).trans hvalue⟩

end Vcmp.Ini
