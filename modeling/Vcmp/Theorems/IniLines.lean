import Vcmp.IniText
import Vcmp.Lib.Loads

/-! What the parser of configurations makes of one line. -/

namespace Vcmp.Ini
open ByteMem CString

variable {m : Mem} {l : List UInt8} {stop fails : UInt8 → Bool} {limit : Option Nat} {fuel bufp i : Nat} {tmp : State}

/-! ### The inner loops -/

/-- The loop stores the bytes up to the one that stops it. -/
theorem ends_fill (h : slice m bufp l.length = l) (hstop : stop (m (bufp + l.length)) = true)
    (clean : ∀ b ∈ l, stop b = false ∧ fails b = false) (fits : ∀ n, limit = some n → i + l.length ≤ n)
    (enough : l.length < fuel) :
    Ends (fill stop limit fails fuel bufp i tmp) m (.ok (bufp + l.length, ((storeBytes i l).run tmp).2)) := by
  induction l generalizing fuel bufp i tmp with
  | nil =>
    obtain ⟨fuel, rfl⟩ : ∃ k, fuel = k + 1 := ⟨fuel - 1, by omega⟩
    rw [List.length_nil, Nat.add_zero] at hstop
    rw [fill]
    refine ends_load ?_
    rw [if_pos (Or.inl hstop)]
    exact ends_pure _
  | cons b l ih =>
    obtain ⟨fuel, rfl⟩ : ∃ k, fuel = k + 1 := ⟨fuel - 1, by omega⟩
    rw [List.length_cons, slice_succ] at h
    obtain ⟨hb, hl⟩ := List.cons.inj h
    obtain ⟨hgoes, hfine⟩ := clean b List.mem_cons_self
    have hlimit : limit ≠ some i := fun heq => by
      have := fits i heq
      simp only [List.length_cons] at this
      omega
    rw [fill]
    refine ends_load ?_
    rw [hb, if_neg (not_or.mpr ⟨by rw [hgoes]; exact Bool.false_ne_true, hlimit⟩), hfine, if_neg Bool.false_ne_true]
    have hend : bufp + 1 + l.length = bufp + (b :: l).length := by
      rw [List.length_cons]
      omega
    have hrest := @ih fuel (bufp + 1) (i + 1) ((store i b).run tmp).2 hl (hend ▸ hstop)
      (fun c hc => clean c (List.mem_cons_of_mem b hc))
      (fun n hn => by have := fits n hn; simp only [List.length_cons] at this; omega)
      (by simp only [List.length_cons] at enough; omega)
    rwa [hend] at hrest

theorem ends_skip (h : slice m bufp l.length = l) (hstop : stop (m (bufp + l.length)) = true)
    (clean : ∀ b ∈ l, stop b = false ∧ fails b = false) (enough : l.length < fuel) :
    Ends (skip stop fails fuel bufp) m (.ok (bufp + l.length)) := by
  induction l generalizing fuel bufp with
  | nil =>
    obtain ⟨fuel, rfl⟩ : ∃ k, fuel = k + 1 := ⟨fuel - 1, by omega⟩
    rw [List.length_nil, Nat.add_zero] at hstop
    rw [skip]
    refine ends_load ?_
    rw [if_pos hstop]
    exact ends_pure _
  | cons b l ih =>
    obtain ⟨fuel, rfl⟩ : ∃ k, fuel = k + 1 := ⟨fuel - 1, by omega⟩
    rw [List.length_cons, slice_succ] at h
    obtain ⟨hb, hl⟩ := List.cons.inj h
    obtain ⟨hgoes, hfine⟩ := clean b List.mem_cons_self
    rw [skip]
    refine ends_load ?_
    rw [hb, hgoes, if_neg Bool.false_ne_true, hfine, if_neg Bool.false_ne_true]
    have hend : bufp + 1 + l.length = bufp + (b :: l).length := by
      rw [List.length_cons]
      omega
    have hrest := @ih fuel (bufp + 1) hl (hend ▸ hstop)
      (fun c hc => clean c (List.mem_cons_of_mem b hc)) (by simp only [List.length_cons] at enough; omega)
    rwa [hend] at hrest

/-! ### The arrays -/

theorem copyTmp_of_lt {j : Nat} (dest : Mem) (h : j < 256) : copyTmp tmp dest j = tmp.mem j := by
  have hget := getElem?_slice (m := tmp.mem) (i := 0) h
  simp only [copyTmp, put, Nat.zero_le, if_true, Nat.sub_zero, List.getD, hget, Nat.zero_add]
  rfl

theorem cleared_clearTmp (tmp : State) : ∀ j < 256, (clearTmp tmp).mem j = 0 := fun j h => by
  rw [clearTmp, run_storeBytes, put_zero, ofBytes_of_lt (by rwa [List.length_replicate]), List.getElem_replicate]

/-- The string that was stored in the cleared `tmp` and copied. -/
theorem cstr_copyTmp (dest : Mem) (cleared : ∀ j < 256, tmp.mem j = 0) (clean : 0 ∉ l) (short : l.length ≤ 255) :
    cstr (copyTmp ((storeBytes 0 l).run tmp).2 dest) 0 addressSpace = l := by
  have hlong : l.length < addressSpace := by
    have : 255 < addressSpace := by decide
    omega
  have hslice : slice (copyTmp ((storeBytes 0 l).run tmp).2 dest) 0 (l.length + 1) = slice (put tmp.mem 0 l) 0 (l.length + 1) := by
    refine slice_congr fun j _ hj => ?_
    rw [copyTmp_of_lt dest (by omega), run_storeBytes]
  rw [cstr_eq_iff clean hlong, hslice, slice_append, slice_put]
  have hend : put tmp.mem 0 l (0 + l.length) = 0 := by
    rw [Nat.zero_add, put_zero, ofBytes_of_le (Nat.le_refl _), Nat.sub_self]
    exact cleared _ (by omega)
  rw [slice_succ, hend]
  rfl

theorem sectionArg_copyTmp (dest : Mem) (cleared : ∀ j < 256, tmp.mem j = 0) (clean : 0 ∉ l) (short : l.length ≤ 255)
    (named : l ≠ []) : sectionArg (copyTmp ((storeBytes 0 l).run tmp).2 dest) = some l := by
  have hcstr := cstr_copyTmp dest cleared clean short
  have hne : copyTmp ((storeBytes 0 l).run tmp).2 dest 0 ≠ 0 := by
    intro hzero
    rw [addressSpace, show 2 ^ 64 = 2 ^ 64 - 1 + 1 from rfl, cstr, if_pos hzero] at hcstr
    exact named hcstr.symm
  rw [sectionArg, if_neg hne, hcstr]

/-! ### One line -/

section Lines
variable {mallocs : Mallocs} {p q : Parser} {r : Except Stop IniConfig} {cfg : IniConfig} {section_ : NamedSection}
  {pair : Pair} {current : Option (List UInt8)}

theorem ends_turn (h : m p.bufp ≠ 0) (hcase : Ends (parseCase mallocs fuel p) m (.ok q))
    (hrest : Ends (parseLoop mallocs fuel { q with bufp := q.bufp + 1 }) m r) :
    Ends (parseLoop mallocs (fuel + 1) p) m r := by
  rw [parseLoop]
  refine ends_load ?_
  rw [if_neg h]
  exact hcase.bind hrest

theorem ends_readyForData (h : m p.bufp = '\n'.toUInt8) : Ends (readyForData p) m (.ok p) := by
  refine ends_load ?_
  rw [h, if_neg (by decide), if_neg (by decide), if_neg (by decide)]
  exact ends_pure _

theorem ends_readyForData_section (h : m p.bufp = '['.toUInt8) :
    Ends (readyForData p) m (.ok { p with state := .sectionName }) := by
  refine ends_load ?_
  rw [h, if_neg (by decide), if_pos rfl]
  exact ends_pure _

theorem ends_readyForData_key
    (hhead : m p.bufp ≠ '#'.toUInt8 ∧ m p.bufp ≠ ';'.toUInt8 ∧ m p.bufp ≠ '['.toUInt8)
    (hclean : m p.bufp ≠ '\n'.toUInt8 ∧ m p.bufp ≠ ' '.toUInt8) :
    Ends (readyForData p) m (.ok { p with state := .key }) := by
  refine ends_load ?_
  rw [if_neg (not_or.mpr ⟨hhead.1, hhead.2.1⟩), if_neg hhead.2.2, if_pos hclean]
  exact ends_pure _

/-- The parser between two lines. -/
structure Ready (p : Parser) (bufp : Nat) (current : Option (List UInt8)) (cfg : IniConfig) : Prop where
  state : p.state = .readyForData
  bufp : p.bufp = bufp
  cleared : ∀ j < 256, p.tmp.mem j = 0
  current : sectionArg p.currentSection = current
  cfg : p.cfg = cfg

theorem NamedSection.slices (h : slice m i section_.header.length = section_.header) : m i = '['.toUInt8 ∧
    slice m (i + 1) section_.name.length = section_.name ∧ m (i + 1 + section_.name.length) = ']'.toUInt8 ∧
    m (i + 1 + section_.name.length + 1) = '\n'.toUInt8 := by
  rw [header, List.length_cons, slice_succ] at h
  obtain ⟨hopen, h⟩ := List.cons.inj h
  rw [List.length_append] at h
  obtain ⟨hname, h⟩ := slice_eq_append h
  rw [List.length_cons, slice_succ] at h
  obtain ⟨hclose, h⟩ := List.cons.inj h
  rw [List.length_singleton, slice_succ] at h
  exact ⟨hopen, hname, hclose, (List.cons.inj h).1⟩

theorem Ready.next (ready : Ready p i current cfg) : Ready { p with bufp := p.bufp + 1 } (i + 1) current cfg :=
  ⟨ready.state, congrArg (· + 1) ready.bufp, ready.cleared, ready.current, ready.cfg⟩

/-- A line feed between two lines is passed over. -/
theorem Ready.ends_lf (ready : Ready p i current cfg) (hlf : m i = '\n'.toUInt8)
    (hrest : Ends (parseLoop mallocs fuel { p with bufp := p.bufp + 1 }) m r) :
    Ends (parseLoop mallocs (fuel + 1) p) m r := by
  have hbufp : m p.bufp = '\n'.toUInt8 := ready.bufp.symm ▸ hlf
  refine ends_turn (q := p) (by rw [hbufp]; decide) ?_ hrest
  rw [parseCase, ready.state]
  exact ends_readyForData hbufp

theorem NamedSection.zeroFree (section_ : NamedSection) : 0 ∉ section_.name := fun hzero => (section_.clean 0 hzero).2.2 rfl

theorem ends_sectionName (fuel : Nat) (cleared : ∀ j < 256, p.tmp.mem j = 0) (hname : slice m p.bufp section_.name.length = section_.name)
    (hclose : m (p.bufp + section_.name.length) = ']'.toUInt8) (enough : section_.name.length < fuel) :
    ∃ q, Ends (sectionName fuel p) m (.ok q) ∧ Ready q (p.bufp + section_.name.length) (some section_.name) p.cfg := by
  have clean : ∀ b ∈ section_.name, decide (b = ']'.toUInt8) = false ∧ endsLine b = false := by
    intro b hb
    obtain ⟨hbracket, hlf, hzero⟩ := section_.clean b hb
    exact ⟨decide_eq_false hbracket, by simp [endsLine, hlf, hzero]⟩
  have short : ∀ n, some 255 = some n → 0 + section_.name.length ≤ n := by
    rintro n ⟨⟩
    exact (Nat.zero_add _).le.trans section_.short
  have hrun : Ends (sectionName fuel p) m (.ok { p with
      state := .readyForData, bufp := p.bufp + section_.name.length,
      tmp := clearTmp ((storeBytes 0 section_.name).run p.tmp).2,
      currentSection := copyTmp ((storeBytes 0 section_.name).run p.tmp).2 p.currentSection }) :=
    (ends_fill hname (decide_eq_true hclose) clean short enough).bind (ends_pure _)
  refine ⟨_, hrun, rfl, rfl, ?_, ?_, rfl⟩
  · exact cleared_clearTmp ((storeBytes 0 section_.name).run p.tmp).2
  · exact sectionArg_copyTmp _ cleared section_.zeroFree section_.short section_.named

/-- The line of a section makes it the current one. -/
theorem parse_header (mallocs : Mallocs) (fuel : Nat) (ready : Ready p i current cfg)
    (h : slice m i section_.header.length = section_.header) (enough : section_.header.length ≤ fuel + 2) :
    ∃ q, Ready q (i + section_.header.length) (some section_.name) cfg ∧
      ∀ r, Ends (parseLoop mallocs fuel q) m r → Ends (parseLoop mallocs (fuel + 3) p) m r := by
  obtain ⟨hopen, hname, hclose, hlf⟩ := NamedSection.slices h
  obtain ⟨state, rfl, cleared, -, rfl⟩ := ready
  have hlength : section_.header.length = section_.name.length + 3 := by simp [NamedSection.header]
  obtain ⟨q, hq, ready⟩ := ends_sectionName (fuel + 1) (p := { p with state := .sectionName, bufp := p.bufp + 1 })
    cleared hname hclose (by omega)
  have hend : p.bufp + 1 + section_.name.length + 1 + 1 = p.bufp + section_.header.length := by omega
  refine ⟨{ q with bufp := q.bufp + 1 + 1 }, hend ▸ ready.next.next, fun r hr => ?_⟩
  refine ends_turn (q := { p with state := .sectionName }) (by rw [hopen]; decide) ?_ ?_
  · rw [parseCase, state]
    exact ends_readyForData_section hopen
  refine ends_turn ?_ hq (ready.next.ends_lf hlf hr)
  obtain ⟨b, l, hb⟩ := List.exists_cons_of_ne_nil section_.named
  rw [hb, List.length_cons, slice_succ] at hname
  rw [(List.cons.inj hname).1]
  exact fun hzero => section_.zeroFree (hb ▸ hzero ▸ List.mem_cons_self)

/-- Behind the equals sign of a pair. -/
structure Keyed (p : Parser) (bufp : Nat) (keyName : List UInt8) (current : Option (List UInt8)) (cfg : IniConfig) : Prop where
  state : p.state = .value
  bufp : p.bufp = bufp
  cleared : ∀ j < 256, p.tmp.mem j = 0
  current : sectionArg p.currentSection = current
  key : cstr p.currentKey 0 addressSpace = keyName
  cfg : p.cfg = cfg

theorem Pair.slices (h : slice m i pair.line.length = pair.line) : slice m i pair.key.length = pair.key ∧
    slice m (i + pair.key.length) 3 = [' '.toUInt8, '='.toUInt8, ' '.toUInt8] ∧
    slice m (i + pair.key.length + 3) pair.value.length = pair.value ∧
    m (i + pair.key.length + 3 + pair.value.length) = '\n'.toUInt8 := by
  have hline : pair.line = pair.key ++ ([' '.toUInt8, '='.toUInt8, ' '.toUInt8] ++ (pair.value ++ ['\n'.toUInt8])) := rfl
  rw [hline, List.length_append] at h
  obtain ⟨hkey, h⟩ := slice_eq_append h
  rw [List.length_append] at h
  obtain ⟨hequals, h⟩ := slice_eq_append h
  rw [List.length_append] at h
  obtain ⟨hvalue, h⟩ := slice_eq_append h
  rw [List.length_singleton, slice_succ] at h
  exact ⟨hkey, hequals, hvalue, (List.cons.inj h).1⟩

theorem ends_key (fuel : Nat) (hstate : sectionArg p.currentSection = current) (cleared : ∀ j < 256, p.tmp.mem j = 0)
    (hkey : slice m (p.bufp - 1) pair.key.length = pair.key)
    (hequals : slice m (p.bufp - 1 + pair.key.length) 3 = [' '.toUInt8, '='.toUInt8, ' '.toUInt8])
    (enough : pair.key.length + 1 < fuel) :
    ∃ q, Ends (key fuel p) m (.ok q) ∧ Keyed q (p.bufp - 1 + pair.key.length + 1) pair.key current p.cfg := by
  have zeroFree : 0 ∉ pair.key := fun hzero => (pair.keyClean 0 hzero).2.2.2.2 rfl
  rw [slice_succ, slice_succ] at hequals
  obtain ⟨hspace, hequals⟩ := List.cons.inj hequals
  have hsign := (List.cons.inj hequals).1
  have clean : ∀ b ∈ pair.key, decide (b = ' '.toUInt8 ∨ b = '\t'.toUInt8 ∨ b = '='.toUInt8) = false ∧ endsLine b = false := by
    intro b hb
    obtain ⟨h₁, h₂, h₃, h₄, h₅⟩ := pair.keyClean b hb
    exact ⟨decide_eq_false (not_or.mpr ⟨h₁, not_or.mpr ⟨h₂, h₃⟩⟩), by simp [endsLine, h₄, h₅]⟩
  have short : ∀ n, some 256 = some n → 0 + pair.key.length ≤ n := by
    rintro n ⟨⟩
    have := pair.keyShort
    omega
  have hstop : decide (m (p.bufp - 1 + pair.key.length) = ' '.toUInt8 ∨ m (p.bufp - 1 + pair.key.length) = '\t'.toUInt8 ∨
      m (p.bufp - 1 + pair.key.length) = '='.toUInt8) = true := decide_eq_true (Or.inl hspace)
  have hskip : Ends (skip (· = '='.toUInt8) endsLine fuel (p.bufp - 1 + pair.key.length)) m
      (.ok (p.bufp - 1 + pair.key.length + [' '.toUInt8].length)) := by
    refine ends_skip ?_ (decide_eq_true hsign) ?_ (show 1 < fuel by omega)
    · exact congrArg (fun b => [b]) hspace
    · decide +kernel
  have hrun : Ends (key fuel p) m (.ok { p with
      state := .value, bufp := p.bufp - 1 + pair.key.length + 1,
      tmp := clearTmp ((storeBytes 0 pair.key).run p.tmp).2,
      currentKey := copyTmp ((storeBytes 0 pair.key).run p.tmp).2 p.currentKey }) :=
    (ends_fill hkey hstop clean short (by omega)).bind (hskip.bind (ends_pure _))
  refine ⟨_, hrun, rfl, rfl, ?_, hstate, ?_, rfl⟩
  · exact cleared_clearTmp ((storeBytes 0 pair.key).run p.tmp).2
  · exact cstr_copyTmp _ cleared zeroFree pair.keyShort

/-- All allocations succeed. -/
def ample : Mallocs := ⟨true, fun _ => true, fun _ => true⟩

theorem Keyed.next {keyName : List UInt8} (keyed : Keyed p bufp keyName current cfg) :
    Keyed { p with bufp := p.bufp + 1 } (bufp + 1) keyName current cfg :=
  ⟨keyed.state, congrArg (· + 1) keyed.bufp, keyed.cleared, keyed.current, keyed.key, keyed.cfg⟩

/-- The configuration once a pair was read. -/
def assigned (cfg : IniConfig) (current : Option (List UInt8)) (pair : Pair) : IniConfig :=
  assignKeyval true true cfg current pair.key pair.value

theorem Pair.value_begins (pair : Pair) (b : UInt8) (hb : b ∈ (pair.value ++ ['\n'.toUInt8]).head?) :
    ¬(b = ' '.toUInt8 ∨ b = '\t'.toUInt8) := by
  cases hvalue : pair.value with
  | nil =>
    rw [hvalue] at hb
    obtain rfl := Option.some.inj hb
    decide
  | cons c l =>
    rw [hvalue] at hb
    obtain rfl := Option.some.inj hb
    exact not_or.mpr (pair.valueHead c (by rw [hvalue]; rfl))

theorem ends_value (fuel : Nat) (keyed : Keyed p bufp pair.key current cfg) (hspace : m bufp = ' '.toUInt8)
    (hvalue : slice m (bufp + 1) pair.value.length = pair.value)
    (hlf : m (bufp + 1 + pair.value.length) = '\n'.toUInt8) (enough : pair.value.length + 1 < fuel) :
    ∃ q, Ends (value ample fuel p) m (.ok q) ∧ Ready q (bufp + 1 + pair.value.length) current (assigned cfg current pair) := by
  obtain ⟨-, rfl, cleared, rfl, hkey, rfl⟩ := keyed
  have zeroFree : 0 ∉ pair.value := fun hzero => (pair.valueClean 0 hzero).2 rfl
  have hbegins : ¬(m (p.bufp + 1) = ' '.toUInt8 ∨ m (p.bufp + 1) = '\t'.toUInt8) := by
    refine pair.value_begins _ ?_
    cases hl : pair.value with
    | nil =>
      rw [hl] at hlf
      exact congrArg some hlf.symm
    | cons b l =>
      rw [hl, List.length_cons, slice_succ] at hvalue
      exact congrArg some (List.cons.inj hvalue).1.symm
  have hskip : Ends (skip (fun b => ¬(b = ' '.toUInt8 ∨ b = '\t'.toUInt8)) (fun _ => false) fuel p.bufp) m
      (.ok (p.bufp + [' '.toUInt8].length)) := by
    refine ends_skip ?_ (decide_eq_true hbegins) ?_ (show 1 < fuel by omega)
    · exact congrArg (fun b => [b]) hspace
    · decide +kernel
  have clean : ∀ b ∈ pair.value, endsLine b = false ∧ false = false := by
    intro b hb
    obtain ⟨h₁, h₂⟩ := pair.valueClean b hb
    exact ⟨by simp [endsLine, h₁, h₂], rfl⟩
  have hstop : endsLine (m (p.bufp + 1 + pair.value.length)) = true := by
    rw [hlf]
    decide
  have hrun : Ends (value ample fuel p) m (.ok { p with
      state := .readyForData, bufp := p.bufp + 1 + pair.value.length,
      tmp := clearTmp ((storeBytes 0 pair.value).run p.tmp).2,
      currentValue := copyTmp ((storeBytes 0 pair.value).run p.tmp).2 p.currentValue,
      cfg := assignKeyval true true p.cfg (sectionArg p.currentSection) (cstr p.currentKey 0 addressSpace)
        (cstr (copyTmp ((storeBytes 0 pair.value).run p.tmp).2 p.currentValue) 0 addressSpace) }) :=
    hskip.bind ((ends_fill hvalue hstop clean (fun n hn => by cases hn) (by omega)).bind (ends_pure _))
  refine ⟨_, hrun, rfl, rfl, ?_, rfl, ?_⟩
  · exact cleared_clearTmp ((storeBytes 0 pair.value).run p.tmp).2
  · exact congrArg₂ (assignKeyval true true p.cfg (sectionArg p.currentSection)) hkey
      (cstr_copyTmp _ cleared zeroFree pair.valueShort)

theorem Pair.length_line (pair : Pair) : pair.line.length = pair.key.length + pair.value.length + 4 := by
  simp only [line, List.length_append, List.length_cons, List.length_nil]
  omega

theorem Pair.zeroFree_line (pair : Pair) : 0 ∉ pair.line := by
  intro hmem
  rcases List.mem_append.mp hmem with hkey | hrest
  · exact (pair.keyClean 0 hkey).2.2.2.2 rfl
  rcases List.mem_append.mp (show 0 ∈ [' '.toUInt8, '='.toUInt8, ' '.toUInt8] ++ (pair.value ++ ['\n'.toUInt8]) from hrest)
    with hequals | hrest
  · exact absurd hequals (by decide)
  rcases List.mem_append.mp hrest with hvalue | hlf
  · exact (pair.valueClean 0 hvalue).2 rfl
  · exact absurd hlf (by decide)

theorem Pair.ne_zero (h : slice m i pair.line.length = pair.line) {j : Nat} (hj : j < pair.line.length) : m (i + j) ≠ 0 :=
  fun hzero => pair.zeroFree_line (hzero ▸ mem_of_slice h hj)

/-- The line of a pair assigns it to the current section. -/
theorem parse_pair (fuel : Nat) (ready : Ready p i current cfg) (h : slice m i pair.line.length = pair.line)
    (enough : pair.line.length ≤ fuel + 2) :
    ∃ q, Ready q (i + pair.line.length) current (assigned cfg current pair) ∧
      ∀ r, Ends (parseLoop ample fuel q) m r → Ends (parseLoop ample (fuel + 3) p) m r := by
  obtain ⟨hkey, hequals, hvalue, hlf⟩ := Pair.slices h
  obtain ⟨state, rfl, cleared, rfl, rfl⟩ := ready
  have hlength := pair.length_line
  obtain ⟨b, l, hb⟩ := List.exists_cons_of_ne_nil pair.named
  have hfirst : m p.bufp = b := by
    rw [hb, List.length_cons, slice_succ] at hkey
    exact (List.cons.inj hkey).1
  obtain ⟨hclean₁, -, -, hclean₂, -⟩ := pair.keyClean b (hb ▸ List.mem_cons_self)
  have hhead := pair.keyHead b (by rw [hb]; rfl)
  obtain ⟨q, hq, keyed⟩ := ends_key (fuel + 1) (p := { p with state := .key, bufp := p.bufp + 1 }) rfl cleared
    hkey hequals (by omega)
  have hspace : m (p.bufp + pair.key.length + 2) = ' '.toUInt8 := by
    rw [slice_succ, slice_succ, slice_succ] at hequals
    exact (List.cons.inj (List.cons.inj (List.cons.inj hequals).2).2).1
  obtain ⟨q', hq', ready⟩ := ends_value fuel keyed.next hspace hvalue hlf (by omega)
  have hend : p.bufp + pair.key.length + 2 + 1 + pair.value.length + 1 = p.bufp + pair.line.length := by omega
  refine ⟨{ q' with bufp := q'.bufp + 1 }, hend ▸ ready.next, fun r hr => ?_⟩
  refine ends_turn (q := { p with state := .key }) (Pair.ne_zero (j := 0) h (by omega)) ?_ ?_
  · rw [parseCase, state]
    exact ends_readyForData_key (hfirst ▸ hhead) (hfirst ▸ ⟨hclean₂, hclean₁⟩)
  refine ends_turn (Pair.ne_zero h (show 1 < pair.line.length by omega)) hq ?_
  refine ends_turn ?_ ?_ hr
  · rw [keyed.next.bufp]
    exact Pair.ne_zero h (show pair.key.length + 2 < pair.line.length by omega)
  · rw [parseCase, keyed.next.state]
    exact hq'

end Lines

end Vcmp.Ini
