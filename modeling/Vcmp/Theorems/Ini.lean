import Vcmp.Theorems.IniLines

/-! Configurations that are written as text, parsed and looked up. -/

namespace Vcmp.Ini
open ByteMem CString

/-! ### Lists -/

section Lists
variable {α : Type} {l : List α} {p q : α → Bool} {i : Nat}

/-- The first element with a property is the one that is changed. -/
theorem find?_modify (f : α → α) (h : l.findIdx? p = some i) (keeps : ∀ a, p (f a) = p a) : (l.modify i f).find? p = (l.find? p).map f := by
  induction l generalizing i with
  | nil => cases h
  | cons a l ih =>
    rw [List.findIdx?_cons] at h
    cases ha : p a with
    | true =>
      rw [ha, if_pos rfl] at h
      obtain rfl := Option.some.inj h
      rw [List.modify_zero_cons, List.find?_cons, keeps, ha, List.find?_cons, ha]
      rfl
    | false =>
      rw [ha, if_neg Bool.false_ne_true] at h
      obtain ⟨j, hj, rfl⟩ := Option.map_eq_some_iff.mp h
      rw [List.modify_succ_cons, List.find?_cons, ha, List.find?_cons, ha]
      exact ih hj

theorem find?_modify_other (f : α → α) (h : l.findIdx? p = some i) (keeps : ∀ a, q (f a) = q a) (other : ∀ a, p a = true → q a = false) :
    (l.modify i f).find? q = l.find? q := by
  induction l generalizing i with
  | nil => cases h
  | cons a l ih =>
    rw [List.findIdx?_cons] at h
    cases ha : p a with
    | true =>
      rw [ha, if_pos rfl] at h
      obtain rfl := Option.some.inj h
      rw [List.modify_zero_cons, List.find?_cons, keeps, other a ha, List.find?_cons, other a ha]
    | false =>
      rw [ha, if_neg Bool.false_ne_true] at h
      obtain ⟨j, hj, rfl⟩ := Option.map_eq_some_iff.mp h
      rw [List.modify_succ_cons, List.find?_cons, List.find?_cons, ih hj]

end Lists

/-! ### Lookup -/

section Lookup
variable {cfg : IniConfig} {name : List UInt8} {keyvals : List IniKeyval} {pair : Pair} {key : List UInt8}
  {section_ current : Option (List UInt8)}

/-- The value of a key among the pairs of a section. -/
def valueIn (keyvals : List IniKeyval) (key : List UInt8) : Option (List UInt8) :=
  (keyvals.find? fun keyval => keyval.name = key).map IniKeyval.value

/-- The pairs of a section, none of them if there is no such section. -/
def keyvalsUnder (cfg : IniConfig) : Option (List UInt8) → List IniKeyval
  | none => cfg.globalKeyvals
  | some name => ((findSection cfg name).map IniSection.keyvals).getD []

theorem iniGetValue_eq (cfg : IniConfig) (section_ : Option (List UInt8)) (key : List UInt8) :
    iniGetValue cfg section_ key = if key = [] then none else valueIn (keyvalsUnder cfg section_) key := by
  unfold iniGetValue
  split
  · rfl
  · cases section_ with
    | none =>
      cases hfind : cfg.globalKeyvals.find? fun keyval => keyval.name = key <;> simp [valueIn, keyvalsUnder, hfind]
    | some name =>
      cases hsection : findSection cfg name with
      | none => simp [valueIn, keyvalsUnder, hsection]
      | some sec =>
        cases hfind : sec.keyvals.find? fun keyval => keyval.name = key <;> simp [valueIn, keyvalsUnder, hsection, hfind]

def Pair.keyval (pair : Pair) : IniKeyval := ⟨pair.key, pair.value⟩

def IniSection.push (keyval : IniKeyval) (sec : IniSection) : IniSection := { sec with keyvals := sec.keyvals ++ [keyval] }

theorem assignKeyvalToSection_named (sec : IniSection) (named : key ≠ []) (value : List UInt8) :
    assignKeyvalToSection true sec key value = sec.push ⟨key, value⟩ := by
  rw [assignKeyvalToSection, if_neg named]
  rfl

/-- The list of sections once there is one of the name. -/
def Created (sections : List IniSection) (name : List UInt8) (created : List IniSection) : Prop :=
  created = sections ∨ created = sections ++ [⟨name, []⟩]

/-- Assigning to a section changes the first one of its name, which was there or is a new one. -/
theorem sections_assigned (cfg : IniConfig) (hkey : key ≠ []) (value : List UInt8) (named : name ≠ []) : ∃ created i,
    Created cfg.sections name created ∧ created.findIdx? (fun sec => sec.name = name) = some i ∧
    assignKeyval true true cfg (some name) key value = { cfg with sections := created.modify i (IniSection.push ⟨key, value⟩) } := by
  simp only [assignKeyval, if_neg hkey, findOrCreateSection, if_neg named, assignKeyvalToSection_named _ hkey]
  cases hfind : cfg.sections.findIdx? fun sec => sec.name = name with
  | some i => exact ⟨cfg.sections, i, Or.inl rfl, hfind, rfl⟩
  | none =>
    refine ⟨cfg.sections ++ [⟨name, []⟩], cfg.sections.length, Or.inr rfl, ?_, rfl⟩
    rw [List.findIdx?_append, hfind]
    simp

theorem keyvalsUnder_created {created : List IniSection} (h : Created cfg.sections name created) (section_ : Option (List UInt8)) :
    keyvalsUnder { cfg with sections := created } section_ = keyvalsUnder cfg section_ := by
  rcases h with rfl | rfl
  · rfl
  cases section_ with
  | none => rfl
  | some name' =>
    simp only [keyvalsUnder, findSection]
    split
    · rfl
    · rw [List.find?_append]
      cases cfg.sections.find? fun sec => sec.name = name' with
      | some sec => rfl
      | none =>
        by_cases hname : name = name' <;> simp [hname]

theorem keyvalsUnder_modified {sections : List IniSection} {i : Nat} (keyval : IniKeyval) (named : name ≠ [])
    (h : sections.findIdx? (fun sec => sec.name = name) = some i) (section_ : Option (List UInt8)) :
    keyvalsUnder { cfg with sections := sections.modify i (IniSection.push keyval) } section_ =
      keyvalsUnder { cfg with sections } section_ ++ if section_ = some name then [keyval] else [] := by
  cases section_ with
  | none => exact (List.append_nil _).symm
  | some name' =>
    simp only [keyvalsUnder, findSection, Option.some.injEq]
    by_cases hname : name' = name
    · subst hname
      rw [if_neg named, if_neg named, if_pos rfl, find?_modify (IniSection.push keyval) h fun _ => rfl]
      obtain ⟨sec, hsec⟩ : ∃ sec, sections.find? (fun sec => sec.name = name') = some sec := by
        have hsome : (sections.findIdx? fun sec => sec.name = name').isSome = sections.any fun sec => sec.name = name' :=
          List.findIdx?_isSome
        rw [h] at hsome
        obtain ⟨sec, hmem, hsec⟩ := List.any_eq_true.mp hsome.symm
        exact Option.isSome_iff_exists.mp (List.find?_isSome.mpr ⟨sec, hmem, hsec⟩)
      rw [hsec]
      rfl
    · have hother : ∀ sec : IniSection, decide (sec.name = name) = true → decide (sec.name = name') = false := by
        intro sec hsec
        exact decide_eq_false fun heq => hname (heq.symm.trans (of_decide_eq_true hsec))
      rw [if_neg hname, find?_modify_other (IniSection.push keyval) h (fun _ => rfl) hother, List.append_nil]

/-- Assigning a pair appends it to those under its section. -/
theorem keyvalsUnder_assigned (cfg : IniConfig) (hkey : key ≠ []) (value : List UInt8) (section_ : Option (List UInt8))
    (named : current ≠ some []) : keyvalsUnder (assignKeyval true true cfg current key value) section_ =
      keyvalsUnder cfg section_ ++ if section_ = current then [⟨key, value⟩] else [] := by
  cases current with
  | none =>
    simp only [assignKeyval, if_neg hkey, assignKeyvalToRoot]
    cases section_ with
    | none => rfl
    | some name => exact (List.append_nil _).symm
  | some name =>
    have named : name ≠ [] := fun heq => named (congrArg some heq)
    obtain ⟨created, i, hcreated, hfind, hassigned⟩ := sections_assigned cfg hkey value named
    rw [hassigned, keyvalsUnder_modified ⟨key, value⟩ named hfind, keyvalsUnder_created hcreated]

theorem valueIn_pairs (pairs : List Pair) (key : List UInt8) : valueIn (pairs.map Pair.keyval) key = valueOf pairs key := by
  rw [valueIn, valueOf, List.find?_map, Option.map_map]
  rfl

theorem valueOf_nil_key (pairs : List Pair) : valueOf pairs [] = none := by
  rw [valueOf, Option.map_eq_none_iff, List.find?_eq_none]
  exact fun pair _ => by simp [pair.named]

end Lookup

/-! ### Text -/

section Text
variable {m : Mem} {i : Nat} {p : Parser} {cfg : IniConfig} {current : Option (List UInt8)} {pairs : List Pair}
  {sections : List NamedSection}

/-- From `p` the parser comes to `q`, with `fuel'` turns left. -/
def Leads (m : Mem) (fuel : Nat) (p : Parser) (fuel' : Nat) (q : Parser) : Prop :=
  ∀ r, Ends (parseLoop ample fuel' q) m r → Ends (parseLoop ample fuel p) m r

theorem parse_pairs (fuel rest : Nat) (named : current ≠ some []) (ready : Ready p i current cfg)
    (h : slice m i (pairs.flatMap Pair.line).length = pairs.flatMap Pair.line)
    (enough : (pairs.flatMap Pair.line).length + rest < fuel) :
    ∃ q cfg' fuel', rest < fuel' ∧ Leads m fuel p fuel' q ∧ Ready q (i + (pairs.flatMap Pair.line).length) current cfg' ∧
      ∀ section_, keyvalsUnder cfg' section_ =
        keyvalsUnder cfg section_ ++ if section_ = current then pairs.map Pair.keyval else [] := by
  induction pairs generalizing p i cfg fuel with
  | nil =>
    refine ⟨p, cfg, fuel, by simpa using enough, fun r hr => hr, ready, fun section_ => ?_⟩
    rw [List.map_nil, ite_self, List.append_nil]
  | cons pair pairs ih =>
    rw [List.flatMap_cons, List.length_append] at h enough ⊢
    obtain ⟨hline, hrest⟩ := slice_eq_append h
    have hlength := pair.length_line
    obtain ⟨fuel, rfl⟩ : ∃ k, fuel = k + 3 := ⟨fuel - 3, by omega⟩
    obtain ⟨q, ready, leads⟩ := parse_pair fuel ready hline (by omega)
    obtain ⟨q', cfg', fuel', hfuel, leads', ready, hunder⟩ := ih fuel ready hrest (by omega)
    refine ⟨q', cfg', fuel', hfuel, fun r hr => leads r (leads' r hr), Nat.add_assoc _ _ _ ▸ ready, fun section_ => ?_⟩
    rw [hunder, assigned, keyvalsUnder_assigned _ pair.named _ _ named, List.append_assoc]
    split <;> rfl

theorem pairsUnder_cons (section_ : NamedSection) (sections : List NamedSection) (name : Option (List UInt8)) :
    (Document.mk [] (section_ :: sections)).pairsUnder name =
      (if name = some section_.name then section_.pairs else []) ++ (Document.mk [] sections).pairsUnder name := by
  cases name with
  | none => rfl
  | some name =>
    simp only [Document.pairsUnder, List.filter_cons, Option.some.injEq]
    by_cases hname : section_.name = name
    · simp [hname]
    · simp [hname, Ne.symm hname]

theorem parse_sections (fuel rest : Nat) (ready : Ready p i current cfg)
    (h : slice m i (sections.flatMap NamedSection.text).length = sections.flatMap NamedSection.text)
    (enough : (sections.flatMap NamedSection.text).length + rest < fuel) :
    ∃ q current' cfg' fuel', rest < fuel' ∧ Leads m fuel p fuel' q ∧
      Ready q (i + (sections.flatMap NamedSection.text).length) current' cfg' ∧
      ∀ section_, keyvalsUnder cfg' section_ =
        keyvalsUnder cfg section_ ++ ((Document.mk [] sections).pairsUnder section_).map Pair.keyval := by
  induction sections generalizing p i cfg current fuel with
  | nil =>
    refine ⟨p, current, cfg, fuel, by simpa using enough, fun r hr => hr, ready, fun section_ => ?_⟩
    cases section_ <;> exact (List.append_nil _).symm
  | cons section_ sections ih =>
    rw [List.flatMap_cons, List.length_append] at h enough ⊢
    obtain ⟨htext, hrest⟩ := slice_eq_append h
    rw [NamedSection.text, List.length_append] at htext enough hrest
    obtain ⟨hheader, hpairs⟩ := slice_eq_append htext
    have hlength : section_.header.length = section_.name.length + 3 := by simp [NamedSection.header]
    obtain ⟨fuel, rfl⟩ : ∃ k, fuel = k + 3 := ⟨fuel - 3, by omega⟩
    have named : some section_.name ≠ some [] := fun heq => section_.named (Option.some.inj heq)
    obtain ⟨q, ready, leads⟩ := parse_header ample fuel ready hheader (by omega)
    obtain ⟨q₁, cfg₁, fuel₁, hfuel₁, leads₁, ready, hunder₁⟩ := parse_pairs fuel
      ((sections.flatMap NamedSection.text).length + rest) named ready hpairs (by omega)
    rw [Nat.add_assoc] at ready
    obtain ⟨q₂, current₂, cfg₂, fuel₂, hfuel₂, leads₂, ready, hunder₂⟩ := ih fuel₁ ready hrest hfuel₁
    refine ⟨q₂, current₂, cfg₂, fuel₂, hfuel₂, fun r hr => leads r (leads₁ r (leads₂ r hr)), ?_, fun name => ?_⟩
    · rw [NamedSection.text, List.length_append, ← Nat.add_assoc]
      exact ready
    · rw [hunder₂, hunder₁, pairsUnder_cons, List.map_append, List.append_assoc]
      split <;> rfl

theorem zeroFree_text (doc : Document) : 0 ∉ doc.text := by
  intro hmem
  rcases List.mem_append.mp hmem with hpairs | hsections
  · obtain ⟨pair, -, hline⟩ := List.mem_flatMap.mp hpairs
    exact pair.zeroFree_line hline
  obtain ⟨section_, -, htext⟩ := List.mem_flatMap.mp hsections
  rcases List.mem_append.mp htext with hheader | hpairs
  · simp only [NamedSection.header, List.mem_cons, List.mem_append, section_.zeroFree] at hheader
    revert hheader
    decide
  · obtain ⟨pair, -, hline⟩ := List.mem_flatMap.mp hpairs
    exact pair.zeroFree_line hline

theorem zeros_of_lt (behind : Mem) {j : Nat} (h : j < 256) : zeros behind j = 0 := by
  rw [zeros, ofBytes_of_lt (by rwa [List.length_replicate]), List.getElem_replicate]

theorem ready_start (stack : Stack) (cfg : IniConfig) : Ready ⟨.readyForData, 0, ⟨zeros stack.tmp, []⟩, zeros stack.currentSection,
    zeros stack.currentKey, zeros stack.currentValue, cfg⟩ 0 none cfg := by
  have hfirst : zeros stack.currentSection 0 = 0 := zeros_of_lt stack.currentSection (by decide)
  refine ⟨rfl, rfl, fun _ hj => zeros_of_lt stack.tmp hj, ?_, rfl⟩
  rw [sectionArg, if_pos hfirst]

/-- The parser takes the whole text of a document and stores its pairs under their sections. -/
theorem ends_parsebuf (doc : Document) (nonempty : doc.text ≠ []) (past : Mem) (stack : Stack) {fuel : Nat}
    (enough : doc.text.length < fuel) :
    ∃ cfg, Ends (iniParsebuf stack ample fuel) (ofBytes (doc.text ++ [0]) past) (.ok cfg) ∧
      ∀ section_, keyvalsUnder cfg section_ = (doc.pairsUnder section_).map Pair.keyval := by
  have htext : slice (ofBytes (doc.text ++ [0]) past) 0 doc.text.length = doc.text :=
    slice_ofBytes_append [] doc.text [0] past
  have hfirst : ofBytes (doc.text ++ [0]) past 0 ≠ 0 := by
    have hmem := mem_of_slice htext (List.length_pos_iff.mpr nonempty)
    exact fun hzero => zeroFree_text doc (hzero ▸ hmem)
  have hend : ofBytes (doc.text ++ [0]) past doc.text.length = 0 := ofBytes_shift (l := doc.text) 0
  have hlength : doc.text.length = (doc.globals.flatMap Pair.line).length + (doc.sections.flatMap NamedSection.text).length :=
    List.length_append
  rw [hlength] at htext
  obtain ⟨hglobals, hsections⟩ := slice_eq_append (l := doc.globals.flatMap Pair.line) htext
  obtain ⟨q₁, cfg₁, fuel₁, hfuel₁, leads₁, ready, hunder₁⟩ := parse_pairs fuel (doc.sections.flatMap NamedSection.text).length
    (by simp) (ready_start stack ⟨[], []⟩) hglobals (hlength ▸ enough)
  obtain ⟨q₂, current, cfg₂, fuel₂, hfuel₂, leads₂, ready, hunder₂⟩ := parse_sections fuel₁ 0 ready hsections hfuel₁
  refine ⟨cfg₂, ?_, fun name => ?_⟩
  · have hstop : Ends (parseLoop ample fuel₂ q₂) (ofBytes (doc.text ++ [0]) past) (.ok cfg₂) := by
      obtain ⟨fuel₂, rfl⟩ : ∃ k, fuel₂ = k + 1 := ⟨fuel₂ - 1, by omega⟩
      rw [parseLoop]
      refine ends_load ?_
      rw [ready.bufp, Nat.zero_add, ← hlength, if_pos hend, ready.cfg]
      exact ends_pure _
    rw [iniParsebuf]
    refine ends_load ?_
    rw [if_neg hfirst]
    exact leads₁ _ (leads₂ _ hstop)
  · rw [hunder₂, hunder₁]
    cases name with
    | none => exact List.append_nil _
    | some name =>
      have hempty : keyvalsUnder ⟨[], []⟩ (some name) = [] := by simp [keyvalsUnder, findSection]
      rw [hempty]
      rfl

/-- A configuration that is written as text is parsed, and each lookup finds the first pair of its key. -/
theorem parsebuf_text (doc : Document) (nonempty : doc.text ≠ []) (past : Mem) (stack : Stack) {fuel : Nat}
    (enough : doc.text.length < fuel) :
    ∃ cfg, ((iniParsebuf stack ample fuel).run.run { mem := ofBytes (doc.text ++ [0]) past }).1 = .ok cfg ∧
      ∀ section_ key, iniGetValue cfg section_ key = valueOf (doc.pairsUnder section_) key := by
  obtain ⟨cfg, hparse, hunder⟩ := ends_parsebuf doc nonempty past stack enough
  refine ⟨cfg, hparse.value, fun section_ key => ?_⟩
  rw [iniGetValue_eq, hunder, valueIn_pairs]
  split
  next hkey => rw [hkey, valueOf_nil_key]
  · rfl

def samplePair (value : UInt8) (clean : value ≠ '\n'.toUInt8 ∧ value ≠ 0) (head : value ≠ ' '.toUInt8 ∧ value ≠ '\t'.toUInt8) :
    Pair where
  key := [97]
  value := [value]
  named := by decide
  keyShort := by decide
  keyClean := by decide +kernel
  keyHead := by decide +kernel
  valueShort := by simp
  valueClean := by simpa using clean
  valueHead := by simpa using head

/-- The section `s`, with two values of the key `a`. -/
def sampleSection : NamedSection where
  name := [115]
  pairs := [samplePair 98 (by decide) (by decide), samplePair 99 (by decide) (by decide)]
  named := by decide
  short := by decide
  clean := by decide +kernel

theorem parsebuf_text_sample : ∃ cfg,
    ((iniParsebuf ⟨fun _ => 1, fun _ => 1, fun _ => 1, fun _ => 1⟩ ample 17).run.run
      { mem := ofBytes ("[s]\na = b\na = c\n".toList.map Char.toUInt8 ++ [0]) fun _ => 1 }).1 = .ok cfg ∧
    iniGetValue cfg (some [115]) [97] = some [98] ∧ iniGetValue cfg none [97] = none := by
  obtain ⟨cfg, hparse, hvalue⟩ := parsebuf_text ⟨[], [sampleSection]⟩ (by decide) (fun _ => 1)
    ⟨fun _ => 1, fun _ => 1, fun _ => 1, fun _ => 1⟩ (show _ < 17 by decide)
  exact ⟨cfg, hparse, hvalue (some [115]) [97], hvalue none [97]⟩

end Text
end Vcmp.Ini
