import Vcmp.Lib.Views
import Vcmp.Theorems.IniLineEnds

/-! The dump of a configuration is text of its own kind: what the parser took out of a text it takes out of the dump. -/

namespace Vcmp.Ini
open ByteMem CString

variable {r r' : Reader} {l : List UInt8} {b : UInt8} {key token : List UInt8} {entries : List Entry}

/-! ### What can be read -/

/-- No byte of a key ends it, and its first one does not begin anything else. -/
structure KeyFormed (key : List UInt8) : Prop where
  clean : ∀ b ∈ key, b ≠ ' '.toUInt8 ∧ b ≠ '\t'.toUInt8 ∧ b ≠ '='.toUInt8 ∧ endsLine b = false
  head : ∀ b ∈ key.head?, b ≠ '#'.toUInt8 ∧ b ≠ ';'.toUInt8 ∧ b ≠ '['.toUInt8

structure ValueFormed (value : List UInt8) : Prop where
  clean : ∀ b ∈ value, endsLine b = false
  head : ∀ b ∈ value.head?, b ≠ ' '.toUInt8 ∧ b ≠ '\t'.toUInt8

structure NameFormed (name : List UInt8) : Prop where
  clean : ∀ b ∈ name, b ≠ ']'.toUInt8 ∧ endsLine b = false
  short : name.length ≤ 255

def Entry.Formed : Entry → Prop
  | .header name => NameFormed name
  | .pair key value => KeyFormed key ∧ ValueFormed value

def Place.Formed : Place → Prop
  | .ready | .hash | .bracket | .comment => True
  | .began first => first ≠ '#'.toUInt8 ∧ first ≠ ';'.toUInt8 ∧ first ≠ '['.toUInt8 ∧ first ≠ ' '.toUInt8
  | .name token => NameFormed token
  | .key token => token ≠ [] ∧ KeyFormed token
  | .gap key | .equals key | .lead key => KeyFormed key
  | .value key token => KeyFormed key ∧ token ≠ [] ∧ ValueFormed token

/-- All that was read is formed, and so is what is being read. -/
structure Reader.Formed (r : Reader) : Prop where
  place : r.place.Formed
  entries : ∀ entry ∈ r.entries, entry.Formed

theorem keyFormed_nil : KeyFormed [] := ⟨List.forall_mem_nil _, fun _ h => by cases h⟩

theorem valueFormed_nil : ValueFormed [] := ⟨List.forall_mem_nil _, fun _ h => by cases h⟩

theorem nameFormed_nil : NameFormed [] := ⟨List.forall_mem_nil _, Nat.zero_le _⟩

theorem head?_snoc {l : List UInt8} (nonempty : l ≠ []) : (l ++ [b]).head? = l.head? := by
  obtain ⟨a, l, rfl⟩ := List.exists_cons_of_ne_nil nonempty
  rfl

theorem KeyFormed.snoc (h : KeyFormed token) (nonempty : token ≠ [])
    (hb : b ≠ ' '.toUInt8 ∧ b ≠ '\t'.toUInt8 ∧ b ≠ '='.toUInt8 ∧ endsLine b = false) : KeyFormed (token ++ [b]) where
  clean := List.forall_mem_append.mpr ⟨h.clean, List.forall_mem_singleton.mpr hb⟩
  head := by
    rw [head?_snoc nonempty]
    exact h.head

theorem ValueFormed.snoc (h : ValueFormed token) (hb : endsLine b = false) (hhead : token ≠ [] ∨ b ≠ ' '.toUInt8 ∧ b ≠ '\t'.toUInt8) :
    ValueFormed (token ++ [b]) where
  clean := List.forall_mem_append.mpr ⟨h.clean, List.forall_mem_singleton.mpr hb⟩
  head := by
    by_cases nonempty : token = []
    · subst nonempty
      rintro _ ⟨⟩
      exact hhead.resolve_left (not_not_intro rfl)
    · rw [head?_snoc nonempty]
      exact h.head

section Formed
variable (h : ∀ entry ∈ r.entries, entry.Formed)
include h

theorem Formed.goTo {place : Place} (hplace : place.Formed) : (r.goTo place).Formed := ⟨hplace, h⟩

theorem Formed.enter {entry : Entry} (hentry : entry.Formed) : (r.enter entry).Formed :=
  ⟨trivial, List.forall_mem_append.mpr ⟨h, List.forall_mem_singleton.mpr hentry⟩⟩

theorem formed_stepReady : (r.stepReady b).Formed := by
  rw [Reader.stepReady]
  split
  · exact Formed.goTo h trivial
  next hhash =>
    split
    · exact Formed.goTo h trivial
    next hbracket =>
      split
      next hkey =>
        obtain ⟨hsharp, hsemi⟩ := not_or.mp hhash
        exact Formed.goTo h ⟨hsharp, hsemi, hbracket, hkey.2⟩
      · exact Formed.goTo h trivial

theorem formed_stepComment : (r.stepComment b).Formed := by
  rw [Reader.stepComment]
  split
  · exact Formed.goTo h trivial
  · exact Formed.goTo h trivial

theorem formed_stepName (hname : NameFormed token) (hstep : r.stepName b token = some r') : r'.Formed := by
  rw [Reader.stepName] at hstep
  split at hstep
  · obtain rfl := Option.some.inj hstep
    exact Formed.enter h hname
  next hroom =>
    split at hstep
    · cases hstep
    next hends =>
      obtain rfl := Option.some.inj hstep
      obtain ⟨hbracket, hlength⟩ := not_or.mp hroom
      have hshort : token.length < 255 := Nat.lt_of_le_of_ne hname.short hlength
      refine Formed.goTo h ⟨List.forall_mem_append.mpr ⟨hname.clean, List.forall_mem_singleton.mpr ⟨hbracket, ?_⟩⟩, ?_⟩
      · exact Bool.eq_false_iff.mpr hends
      · rw [List.length_append, List.length_singleton]
        exact hshort

theorem formed_stepGap (hkey : KeyFormed key) (hstep : r.stepGap b key = some r') : r'.Formed := by
  rw [Reader.stepGap] at hstep
  split at hstep
  · obtain rfl := Option.some.inj hstep
    exact Formed.goTo h hkey
  · split at hstep
    · cases hstep
    · obtain rfl := Option.some.inj hstep
      exact Formed.goTo h hkey

/-- A byte of a key goes to its end; the first one does not begin anything else. -/
theorem formed_stepKey (hkey : KeyFormed token) (first : token ≠ [] ∨ b ≠ '#'.toUInt8 ∧ b ≠ ';'.toUInt8 ∧ b ≠ '['.toUInt8)
    (hstep : r.stepKey b token = some r') : r'.Formed := by
  rw [Reader.stepKey] at hstep
  split at hstep
  · exact formed_stepGap h hkey hstep
  next hroom =>
    split at hstep
    · cases hstep
    next hends =>
      obtain rfl := Option.some.inj hstep
      obtain ⟨hspace, hrest⟩ := not_or.mp (not_or.mp hroom).1
      obtain ⟨htab, hequals⟩ := not_or.mp hrest
      have hb : b ≠ ' '.toUInt8 ∧ b ≠ '\t'.toUInt8 ∧ b ≠ '='.toUInt8 ∧ endsLine b = false :=
        ⟨hspace, htab, hequals, Bool.eq_false_iff.mpr hends⟩
      refine Formed.goTo h ⟨List.append_ne_nil_of_right_ne_nil _ (List.cons_ne_nil _ _), ?_⟩
      by_cases nonempty : token = []
      · subst nonempty
        refine ⟨List.forall_mem_singleton.mpr hb, ?_⟩
        rintro _ ⟨⟩
        exact first.resolve_left (not_not_intro rfl)
      · exact hkey.snoc nonempty hb

theorem formed_stepValue (hkey : KeyFormed key) (hvalue : ValueFormed token)
    (hhead : token ≠ [] ∨ b ≠ ' '.toUInt8 ∧ b ≠ '\t'.toUInt8) : (r.stepValue b key token).Formed := by
  rw [Reader.stepValue]
  split
  · exact Formed.enter h ⟨hkey, hvalue⟩
  next hends =>
    exact Formed.goTo h ⟨hkey, List.append_ne_nil_of_right_ne_nil _ (List.cons_ne_nil _ _), hvalue.snoc (Bool.eq_false_iff.mpr hends) hhead⟩

theorem formed_stepLead (hkey : KeyFormed key) : (r.stepLead b key).Formed := by
  rw [Reader.stepLead]
  split
  · exact Formed.goTo h hkey
  next hblank => exact formed_stepValue h hkey valueFormed_nil (Or.inr (not_or.mp hblank))

end Formed

theorem formed_stepOne (h : r.Formed) (hstep : r.stepOne b = some r') : r'.Formed := by
  obtain ⟨hplace, hentries⟩ := h
  obtain ⟨place, entries⟩ := r
  cases place with
  | ready =>
    obtain rfl := Option.some.inj hstep
    exact formed_stepReady hentries
  | hash | comment =>
    obtain rfl := Option.some.inj hstep
    exact formed_stepComment hentries
  | bracket => exact formed_stepName hentries nameFormed_nil hstep
  | name _ => exact formed_stepName hentries hplace hstep
  | began _ => cases hstep
  | key _ => exact formed_stepKey hentries hplace.2 (Or.inl hplace.1) hstep
  | gap _ => exact formed_stepGap hentries hplace hstep
  | equals _ | lead _ =>
    obtain rfl := Option.some.inj hstep
    exact formed_stepLead hentries hplace
  | value _ token =>
    obtain rfl := Option.some.inj hstep
    exact formed_stepValue hentries hplace.1 hplace.2.2 (Or.inl hplace.2.1)

theorem formed_step (h : r.Formed) (hstep : r.step b = some r') : r'.Formed := by
  rw [Reader.step] at hstep
  split at hstep
  next first hplace =>
    obtain ⟨r₁, hfirst, hb⟩ := Option.bind_eq_some_iff.mp hstep
    have hbegan : (Place.began first).Formed := hplace ▸ h.place
    exact formed_stepOne (formed_stepKey h.entries keyFormed_nil (Or.inr ⟨hbegan.1, hbegan.2.1, hbegan.2.2.1⟩) hfirst) hb
  · exact formed_stepOne h hstep

theorem formed_run (h : r.Formed) (hrun : Lts.run Reader.step r l = some r') : r'.Formed :=
  Lts.run_inv h (fun _ _ _ h hstep => formed_step h hstep) hrun

/-! ### What is stored -/

/-- A pair that is read again from its message. -/
structure IniKeyval.Printable (keyval : IniKeyval) : Prop where
  named : keyval.name ≠ []
  key : KeyFormed keyval.name
  value : ValueFormed keyval.value
  short : Short keyval.name keyval.value

structure IniSection.Printable (sec : IniSection) : Prop where
  named : sec.name ≠ []
  name : NameFormed sec.name
  filled : sec.keyvals ≠ []
  keyvals : ∀ keyval ∈ sec.keyvals, keyval.Printable

/-- The configurations that come out of texts. -/
structure Normal (cfg : IniConfig) : Prop where
  globals : ∀ keyval ∈ cfg.globalKeyvals, keyval.Printable
  sections : ∀ sec ∈ cfg.sections, sec.Printable
  distinct : (cfg.sections.map IniSection.name).Nodup

section Lists
variable {α : Type} {l : List α} {p : α → Bool} {i : Nat}

theorem modify_middle (f : α → α) (pre : List α) (a : α) (post : List α) :
    (pre ++ a :: post).modify pre.length f = pre ++ f a :: post := by
  induction pre with
  | nil => rfl
  | cons b pre ih => rw [List.cons_append, List.length_cons, List.modify_succ_cons, ih, List.cons_append]

/-- The first element with a property splits the list. -/
theorem findIdx?_split (h : l.findIdx? p = some i) : ∃ pre a post, l = pre ++ a :: post ∧ p a = true ∧ pre.length = i ∧
    ∀ b ∈ pre, p b = false := by
  obtain ⟨hlt, hi, hbefore⟩ := List.findIdx?_eq_some_iff_getElem.mp h
  refine ⟨l.take i, l[i], l.drop (i + 1), ?_, hi, List.length_take_of_le (Nat.le_of_lt hlt), fun b hb => ?_⟩
  · rw [← List.drop_eq_getElem_cons, List.take_append_drop]
  · obtain ⟨j, hj, rfl⟩ := List.mem_take_iff_getElem.mp hb
    exact Bool.eq_false_iff.mpr (hbefore j (by omega))

end Lists

section Stored
variable {cfg : IniConfig} {name value : List UInt8} {keyval : IniKeyval} {stack : Stack} {current : Option (List UInt8)}

/-- The first section of the name gets the pair; if there is none, a new one does. -/
theorem assigned_section (cfg : IniConfig) (hkey : key ≠ []) (named : name ≠ []) (value : List UInt8) :
    (∃ pre sec post, cfg.sections = pre ++ sec :: post ∧ sec.name = name ∧ (∀ sec ∈ pre, sec.name ≠ name) ∧
      assignKeyval true true cfg (some name) key value = { cfg with sections := pre ++ sec.push ⟨key, value⟩ :: post }) ∨
    ((∀ sec ∈ cfg.sections, sec.name ≠ name) ∧ assignKeyval true true cfg (some name) key value =
      { cfg with sections := cfg.sections ++ [⟨name, [⟨key, value⟩]⟩] }) := by
  simp only [assignKeyval, if_neg hkey, findOrCreateSection, if_neg named, assignKeyvalToSection_named _ hkey]
  cases hfind : cfg.sections.findIdx? fun sec => sec.name = name with
  | some i =>
    obtain ⟨pre, sec, post, hsplit, hsec, hi, hpre⟩ := findIdx?_split hfind
    refine Or.inl ⟨pre, sec, post, hsplit, of_decide_eq_true hsec, fun sec hsec => of_decide_eq_false (hpre sec hsec), ?_⟩
    dsimp only
    rw [hsplit, ← hi, modify_middle]
  | none =>
    refine Or.inr ⟨fun sec hsec => ?_, ?_⟩
    · exact of_decide_eq_false (List.findIdx?_eq_none_iff.mp hfind sec hsec)
    · exact congrArg (fun sections => { cfg with sections }) (modify_middle _ cfg.sections ⟨name, []⟩ [])

theorem push_printable {sec : IniSection} (hsec : sec.Printable) (hkeyval : keyval.Printable) : (sec.push keyval).Printable where
  named := hsec.named
  name := hsec.name
  filled := List.append_ne_nil_of_right_ne_nil _ (List.cons_ne_nil _ _)
  keyvals := List.forall_mem_append.mpr ⟨hsec.keyvals, List.forall_mem_singleton.mpr hkeyval⟩

theorem Normal.assign (h : Normal cfg) (keyval : IniKeyval) (hkeyval : keyval.Printable) (hcurrent : ∀ name ∈ current, name ≠ [] ∧ NameFormed name) :
    Normal (assignKeyval true true cfg current keyval.name keyval.value) := by
  cases current with
  | none =>
    have hassign : assignKeyval true true cfg none keyval.name keyval.value =
        { cfg with globalKeyvals := cfg.globalKeyvals ++ [keyval] } := by
      simp only [assignKeyval, if_neg hkeyval.named, assignKeyvalToRoot]
      rfl
    rw [hassign]
    exact ⟨List.forall_mem_append.mpr ⟨h.globals, List.forall_mem_singleton.mpr hkeyval⟩, h.sections, h.distinct⟩
  | some name =>
    obtain ⟨named, hname⟩ := hcurrent name rfl
    rcases assigned_section cfg hkeyval.named named keyval.value with ⟨pre, sec, post, hsplit, -, -, hassign⟩ | ⟨hother, hassign⟩
    · obtain ⟨hglobals, hsections, hdistinct⟩ := h
      rw [hsplit] at hsections hdistinct
      obtain ⟨hpre, hsec, hpost⟩ := List.forall_mem_append.mp hsections |>.imp_right List.forall_mem_cons.mp
      rw [hassign]
      refine ⟨hglobals, List.forall_mem_append.mpr ⟨hpre, List.forall_mem_cons.mpr ⟨push_printable hsec hkeyval, hpost⟩⟩, ?_⟩
      rw [List.map_append, List.map_cons] at hdistinct ⊢
      exact hdistinct
    · rw [hassign]
      refine ⟨h.globals, List.forall_mem_append.mpr ⟨h.sections, List.forall_mem_singleton.mpr ?_⟩, ?_⟩
      · exact ⟨named, hname, List.cons_ne_nil _ _, List.forall_mem_singleton.mpr hkeyval⟩
      · rw [List.map_append, List.nodup_append]
        refine ⟨h.distinct, List.nodup_singleton _, fun a ha b hb => ?_⟩
        obtain ⟨sec, hsec, rfl⟩ := List.mem_map.mp ha
        rw [List.mem_singleton.mp hb]
        exact hother sec hsec

/-- What an entry puts into a configuration is normal again. -/
theorem Normal.apply {s : Option (List UInt8) × IniConfig} {entry : Entry} (h : Normal s.2)
    (hcurrent : ∀ name ∈ s.1, name ≠ [] ∧ NameFormed name) (formed : entry.Formed) (short : entry.Short) :
    Normal (entry.apply stack s).2 ∧ ∀ name ∈ (entry.apply stack s).1, name ≠ [] ∧ NameFormed name := by
  cases entry with
  | header name =>
    refine ⟨h, fun name' hname' => ?_⟩
    rw [Entry.apply] at hname'
    split at hname'
    · cases hname'
    next named =>
      obtain rfl := Option.some.inj hname'
      exact ⟨named, formed⟩
  | pair key value =>
    refine ⟨?_, hcurrent⟩
    rw [Entry.apply, held, held, if_pos (Nat.lt_succ_of_le short.1), if_pos (Nat.lt_succ_of_le short.2)]
    by_cases named : key = []
    · simp only [assignKeyval, if_pos named]
      exact h
    · exact h.assign ⟨key, value⟩ ⟨named, formed.1, formed.2, short⟩ hcurrent

theorem normal_foldl {s : Option (List UInt8) × IniConfig} (h : Normal s.2) (hcurrent : ∀ name ∈ s.1, name ≠ [] ∧ NameFormed name)
    (formed : ∀ entry ∈ entries, entry.Formed) (short : ∀ entry ∈ entries, entry.Short) :
    Normal (entries.foldl (Entry.apply stack) s).2 := by
  induction entries generalizing s with
  | nil => exact h
  | cons entry entries ih =>
    obtain ⟨hfirst, formed⟩ := List.forall_mem_cons.mp formed
    obtain ⟨hshort, short⟩ := List.forall_mem_cons.mp short
    obtain ⟨hnext, hcurrent⟩ := h.apply hcurrent hfirst hshort
    exact ih hnext hcurrent formed short

theorem normal_stored (formed : ∀ entry ∈ entries, entry.Formed) (short : ∀ entry ∈ entries, entry.Short) :
    Normal (stored stack entries).2 :=
  normal_foldl ⟨List.forall_mem_nil _, List.forall_mem_nil _, List.nodup_nil⟩ (fun _ h => by cases h) formed short

/-! ### What is printed -/

def IniKeyval.entry (keyval : IniKeyval) : Entry := .pair keyval.name keyval.value

def IniSection.printed (sec : IniSection) : List Entry := .header sec.name :: sec.keyvals.map IniKeyval.entry

/-- A pair that is printable is stored as it is. -/
theorem apply_entry (hkeyval : keyval.Printable) (current : Option (List UInt8)) (cfg : IniConfig) :
    keyval.entry.apply stack (current, cfg) = (current, assignKeyval true true cfg current keyval.name keyval.value) := by
  rw [IniKeyval.entry, Entry.apply, held, held, if_pos (Nat.lt_succ_of_le hkeyval.short.1), if_pos (Nat.lt_succ_of_le hkeyval.short.2)]

theorem foldl_globals {keyvals : List IniKeyval} (h : ∀ keyval ∈ keyvals, keyval.Printable) (cfg : IniConfig) :
    (keyvals.map IniKeyval.entry).foldl (Entry.apply stack) (none, cfg) =
      (none, { cfg with globalKeyvals := cfg.globalKeyvals ++ keyvals }) := by
  induction keyvals generalizing cfg with
  | nil => rw [List.append_nil]; rfl
  | cons keyval keyvals ih =>
    obtain ⟨hkeyval, hrest⟩ := List.forall_mem_cons.mp h
    rw [List.map_cons, List.foldl_cons, apply_entry hkeyval]
    simp only [assignKeyval, if_neg hkeyval.named, assignKeyvalToRoot]
    rw [ih hrest, List.append_cons]
    rfl

/-- The pairs behind a heading are added to its section, which is the last one. -/
theorem foldl_keyvals {keyvals : List IniKeyval} (h : ∀ keyval ∈ keyvals, keyval.Printable) (named : name ≠ [])
    {pre : List IniSection} (other : ∀ sec ∈ pre, sec.name ≠ name) (before : List IniKeyval) (globalKeyvals : List IniKeyval) :
    (keyvals.map IniKeyval.entry).foldl (Entry.apply stack) (some name, ⟨pre ++ [⟨name, before⟩], globalKeyvals⟩) =
      (some name, ⟨pre ++ [⟨name, before ++ keyvals⟩], globalKeyvals⟩) := by
  induction keyvals generalizing before with
  | nil => rw [List.append_nil]; rfl
  | cons keyval keyvals ih =>
    obtain ⟨hkeyval, hrest⟩ := List.forall_mem_cons.mp h
    have hassign : assignKeyval true true ⟨pre ++ [⟨name, before⟩], globalKeyvals⟩ (some name) keyval.name keyval.value =
        ⟨pre ++ [⟨name, before ++ [keyval]⟩], globalKeyvals⟩ := by
      have hpre : pre.findIdx? (fun sec : IniSection => sec.name = name) = none :=
        List.findIdx?_eq_none_iff.mpr fun sec hsec => decide_eq_false (other sec hsec)
      simp only [assignKeyval, if_neg hkeyval.named, findOrCreateSection, if_neg named, List.findIdx?_append, hpre,
        assignKeyvalToSection_named _ hkeyval.named, List.findIdx?_singleton, decide_true, if_true, Option.map_some, Option.none_or,
        Nat.zero_add]
      rw [modify_middle]
      rfl
    rw [List.map_cons, List.foldl_cons, apply_entry hkeyval, hassign, ih hrest, List.append_assoc]
    rfl

/-- A printed section is stored behind those in front of it. -/
theorem foldl_section {sec : IniSection} (h : sec.Printable) {pre : List IniSection} (other : ∀ sec' ∈ pre, sec'.name ≠ sec.name)
    (current : Option (List UInt8)) (globalKeyvals : List IniKeyval) :
    sec.printed.foldl (Entry.apply stack) (current, ⟨pre, globalKeyvals⟩) = (some sec.name, ⟨pre ++ [sec], globalKeyvals⟩) := by
  obtain ⟨name, keyvals⟩ := sec
  obtain ⟨keyval, keyvals, rfl⟩ := List.exists_cons_of_ne_nil h.filled
  obtain ⟨hkeyval, hrest⟩ := List.forall_mem_cons.mp h.keyvals
  have hassign : assignKeyval true true ⟨pre, globalKeyvals⟩ (some name) keyval.name keyval.value =
      ⟨pre ++ [⟨name, [keyval]⟩], globalKeyvals⟩ := by
    rcases assigned_section ⟨pre, globalKeyvals⟩ hkeyval.named h.named keyval.value with
      ⟨pre', sec, post, hsplit, hsec, -, -⟩ | ⟨-, hassign⟩
    · have hsplit : pre = pre' ++ sec :: post := hsplit
      rw [hsplit] at other
      exact absurd hsec (other sec (List.mem_append_right _ List.mem_cons_self))
    · exact hassign
  rw [IniSection.printed, List.foldl_cons, Entry.apply, if_neg h.named, List.map_cons, List.foldl_cons, apply_entry hkeyval, hassign,
    foldl_keyvals hrest h.named other]
  rfl

theorem foldl_sections {sections : List IniSection} (h : ∀ sec ∈ sections, sec.Printable) {pre : List IniSection}
    (distinct : ((pre ++ sections).map IniSection.name).Nodup) (current : Option (List UInt8)) (globalKeyvals : List IniKeyval) :
    ((sections.flatMap IniSection.printed).foldl (Entry.apply stack) (current, ⟨pre, globalKeyvals⟩)).2 =
      ⟨pre ++ sections, globalKeyvals⟩ := by
  induction sections generalizing pre current with
  | nil => rw [List.append_nil]; rfl
  | cons sec sections ih =>
    obtain ⟨hsec, hrest⟩ := List.forall_mem_cons.mp h
    have other : ∀ sec' ∈ pre, sec'.name ≠ sec.name := by
      rw [List.map_append, List.nodup_append] at distinct
      exact fun sec' hsec' => distinct.2.2 _ (List.mem_map_of_mem hsec') _ List.mem_cons_self
    rw [List.append_cons] at distinct
    rw [List.flatMap_cons, List.foldl_append, foldl_section hsec other, ih hrest distinct, ← List.append_cons]

/-- What is printed of a normal configuration is stored as that configuration. -/
theorem stored_printed (h : Normal cfg) :
    (stored stack (cfg.globalKeyvals.map IniKeyval.entry ++ cfg.sections.flatMap IniSection.printed)).2 = cfg := by
  rw [stored, List.foldl_append, foldl_globals h.globals]
  have distinct : (([] ++ cfg.sections).map IniSection.name).Nodup := h.distinct
  exact foldl_sections h.sections distinct none cfg.globalKeyvals

end Stored

/-! ### What is read -/

theorem run_key (clean : ∀ b ∈ l, b ≠ ' '.toUInt8 ∧ b ≠ '\t'.toUInt8 ∧ b ≠ '='.toUInt8 ∧ endsLine b = false)
    (room : token.length + l.length ≤ 256) :
    Lts.run Reader.step ⟨.key token, entries⟩ l = some ⟨.key (token ++ l), entries⟩ := by
  induction l generalizing token with
  | nil => rw [List.append_nil]; rfl
  | cons b l ih =>
    rw [List.length_cons] at room
    obtain ⟨⟨hspace, htab, hequals, hends⟩, hrest⟩ := List.forall_mem_cons.mp clean
    have hstop : ¬((b = ' '.toUInt8 ∨ b = '\t'.toUInt8 ∨ b = '='.toUInt8) ∨ token.length = 256) := by
      rintro ((h | h | h) | h)
      exacts [hspace h, htab h, hequals h, by omega]
    have hstep : Reader.step ⟨.key token, entries⟩ b = some ⟨.key (token ++ [b]), entries⟩ := by
      rw [Reader.step_key, Reader.stepKey, if_neg hstop, hends, if_neg Bool.false_ne_true]
      rfl
    rw [Lts.run, hstep, Option.bind_some, ih hrest, List.append_assoc]
    · rfl
    · rw [List.length_append, List.length_singleton]
      omega

theorem run_value (clean : ∀ b ∈ l, endsLine b = false) :
    Lts.run Reader.step ⟨.value key token, entries⟩ l = some ⟨.value key (token ++ l), entries⟩ := by
  induction l generalizing token with
  | nil => rw [List.append_nil]; rfl
  | cons b l ih =>
    obtain ⟨hends, hrest⟩ := List.forall_mem_cons.mp clean
    have hstep : Reader.step ⟨.value key token, entries⟩ b = some ⟨.value key (token ++ [b]), entries⟩ := by
      rw [Reader.step_value, Reader.stepValue, hends, if_neg Bool.false_ne_true]
      rfl
    rw [Lts.run, hstep, Option.bind_some, ih hrest, List.append_assoc]
    rfl

/-- A value that begins with no blank is read from behind the blanks, up to the end of its line. -/
theorem run_lead (h : ValueFormed l) :
    Lts.run Reader.step ⟨.lead key, entries⟩ (l ++ ['\n'.toUInt8]) = some ⟨.ready, entries ++ [.pair key l]⟩ := by
  cases l with
  | nil => rfl
  | cons b l =>
    obtain ⟨hends, hrest⟩ := List.forall_mem_cons.mp h.clean
    have hstep : Reader.step ⟨.lead key, entries⟩ b = some ⟨.value key [b], entries⟩ := by
      rw [Reader.step_lead, Reader.stepLead, if_neg (not_or.mpr (h.head b rfl)), Reader.stepValue, hends, if_neg Bool.false_ne_true]
      rfl
    rw [List.cons_append, Lts.run, hstep, Option.bind_some, Lts.run_append, run_value hrest]
    rfl

/-- The first byte of a key is not looked at before the second one. -/
theorem run_began (hb : b ≠ ' '.toUInt8 ∧ b ≠ '\t'.toUInt8 ∧ b ≠ '='.toUInt8 ∧ endsLine b = false) (nonempty : l ≠ []) :
    Lts.run Reader.step ⟨.began b, entries⟩ l = Lts.run Reader.step ⟨.key [b], entries⟩ l := by
  obtain ⟨c, l, rfl⟩ := List.exists_cons_of_ne_nil nonempty
  have hstop : ¬((b = ' '.toUInt8 ∨ b = '\t'.toUInt8 ∨ b = '='.toUInt8) ∨ ([] : List UInt8).length = 256) := by
    rintro ((h | h | h) | h)
    exacts [hb.1 h, hb.2.1 h, hb.2.2.1 h, by cases h]
  have hstep : Reader.step ⟨.began b, entries⟩ c = Reader.step ⟨.key [b], entries⟩ c := by
    rw [Reader.step_began, Reader.stepKey, if_neg hstop, hb.2.2.2, if_neg Bool.false_ne_true]
    rfl
  rw [Lts.run, hstep, Lts.run]

section Printed
variable {keyval : IniKeyval} {line : Line} {name : List UInt8} {lines : List Line} {stack : Stack} {past : Mem}

theorem read_message (h : keyval.Printable) (hline : line.bytes = keyval.message) : line.read = some [keyval.entry] := by
  obtain ⟨name, value⟩ := keyval
  obtain ⟨b, name, rfl⟩ := List.exists_cons_of_ne_nil h.named
  obtain ⟨hb, hname⟩ := List.forall_mem_cons.mp h.key.clean
  obtain ⟨hhash, hsemicolon, hbracket⟩ := h.key.head b rfl
  have hfirst : Reader.step start b = some ⟨.began b, []⟩ := by
    rw [start, Reader.step_ready, Reader.stepReady, if_neg (not_or.mpr ⟨hhash, hsemicolon⟩), if_neg hbracket,
      if_pos ⟨ne_lf_of_endsLine hb.2.2.2, hb.1⟩]
    rfl
  have hkey : Lts.run Reader.step ⟨.key [b], []⟩ name = some ⟨.key (b :: name), []⟩ :=
    run_key hname (by have hshort := h.short.1; rw [List.length_cons] at hshort; rw [List.length_singleton]; omega)
  have hgap (token : List UInt8) (rest : List UInt8) : Lts.run Reader.step ⟨.key token, []⟩
      (' '.toUInt8 :: '='.toUInt8 :: ' '.toUInt8 :: rest) = Lts.run Reader.step ⟨.lead token, []⟩ rest := rfl
  have hbytes : line.bytes ++ ['\n'.toUInt8] =
      b :: (name ++ (' '.toUInt8 :: '='.toUInt8 :: ' '.toUInt8 :: (value ++ ['\n'.toUInt8]))) := by
    rw [hline, IniKeyval.message, List.append_assoc]
    rfl
  have hrun : readAll (line.bytes ++ ['\n'.toUInt8]) = some ⟨.ready, [.pair (b :: name) value]⟩ := by
    rw [hbytes, readAll, Lts.run, hfirst, Option.bind_some,
      run_began hb (List.append_ne_nil_of_right_ne_nil _ (List.cons_ne_nil _ _)), Lts.run_append, hkey, Option.bind_some, hgap,
      run_lead h.value]
    rfl
  rw [Line.read, hrun]
  rfl

theorem read_heading (named : name ≠ []) (h : NameFormed name) (hline : line.bytes = '['.toUInt8 :: (name ++ [']'.toUInt8])) :
    line.read = some [.header name] := by
  have clean : ∀ b ∈ name, nameByte b = true := fun b hb => nameByte_iff.mpr (h.clean b hb)
  have room : ([] : List UInt8).length + name.length ≤ 255 := by rw [List.length_nil, Nat.zero_add]; exact h.short
  have hbracket : Lts.run Reader.step ⟨.bracket, []⟩ name = some ⟨.name name, []⟩ := by
    rw [run_bracket named, run_name clean room]
    rfl
  have hbytes : line.bytes ++ ['\n'.toUInt8] = '['.toUInt8 :: (name ++ [']'.toUInt8, '\n'.toUInt8]) := by
    rw [hline, List.cons_append, List.append_assoc]
    rfl
  have hrun : readAll (line.bytes ++ ['\n'.toUInt8]) = some ⟨.ready, [.header name]⟩ := by
    have hstart (rest : List UInt8) : Lts.run Reader.step start ('['.toUInt8 :: rest) = Lts.run Reader.step ⟨.bracket, []⟩ rest := rfl
    rw [hbytes, readAll, hstart, Lts.run_append, hbracket]
    rfl
  rw [Line.read, hrun]
  rfl

/-- The messages are lines, and the entries are read of them. -/
def Prints (messages : List (List UInt8)) (entries : List Entry) : Prop :=
  ∃ lines : List Line, lines.map Line.bytes = messages ∧ readLines lines = some entries

theorem Prints.append {messages messages' : List (List UInt8)} {entries entries' : List Entry} (h : Prints messages entries)
    (h' : Prints messages' entries') : Prints (messages ++ messages') (entries ++ entries') := by
  obtain ⟨lines, rfl, hread⟩ := h
  obtain ⟨lines', rfl, hread'⟩ := h'
  refine ⟨lines ++ lines', List.map_append, ?_⟩
  rw [readLines_append, hread, hread']
  rfl

theorem Prints.flatMap {α : Type} {l : List α} {f : α → List (List UInt8)} {g : α → List Entry} (h : ∀ a ∈ l, Prints (f a) (g a)) :
    Prints (l.flatMap f) (l.flatMap g) := by
  induction l with
  | nil => exact ⟨[], rfl, rfl⟩
  | cons a l ih =>
    obtain ⟨ha, hl⟩ := List.forall_mem_cons.mp h
    rw [List.flatMap_cons, List.flatMap_cons]
    exact ha.append (ih hl)

theorem prints_line {entry : Entry} (clean : ∀ b ∈ l, endsLine b = false) (h : ∀ line : Line, line.bytes = l → line.read = some [entry]) :
    Prints [l] [entry] := by
  let line : Line := ⟨l, fun b hb => ⟨ne_lf_of_endsLine (clean b hb), fun hzero => by cases hzero ▸ clean b hb⟩⟩
  refine ⟨[line], rfl, ?_⟩
  rw [readLines, h line rfl]
  rfl

theorem prints_keyval (h : keyval.Printable) : Prints [keyval.message] [keyval.entry] := by
  refine prints_line ?_ fun _ => read_message h
  rw [IniKeyval.message]
  refine List.forall_mem_append.mpr ⟨fun b hb => (h.key.clean b hb).2.2.2, ?_⟩
  simp only [List.forall_mem_cons]
  exact ⟨rfl, rfl, rfl, h.value.clean⟩

theorem prints_keyvals {keyvals : List IniKeyval} (h : ∀ keyval ∈ keyvals, keyval.Printable) :
    Prints (keyvals.map IniKeyval.message) (keyvals.map IniKeyval.entry) := by
  rw [List.map_eq_flatMap, List.map_eq_flatMap]
  exact Prints.flatMap fun keyval hkeyval => prints_keyval (h keyval hkeyval)

theorem prints_section {sec : IniSection} (h : sec.Printable) : Prints sec.messages sec.printed := by
  have hheading : Prints ['['.toUInt8 :: (sec.name ++ [']'.toUInt8])] [.header sec.name] := by
    refine prints_line ?_ fun _ => read_heading h.named h.name
    refine List.forall_mem_cons.mpr ⟨rfl, List.forall_mem_append.mpr ⟨fun b hb => (h.name.clean b hb).2, ?_⟩⟩
    exact List.forall_mem_singleton.mpr rfl
  exact hheading.append (prints_keyvals h.keyvals)

/-! ### The whole dump -/

/-- The configuration of a text whose tokens fit into the arrays of the parser. -/
theorem normal_accepted (accepted : Accepts stack past (linesText lines) cfg) (hold : ArraysHold stack past (linesText lines)) :
    Normal cfg := by
  obtain ⟨-, entries, hread, rfl⟩ := accepts_lines.mp accepted
  have hrun : readAll (linesText lines).bytes = some ⟨.ready, entries⟩ := by rw [readAll_lines, hread]; rfl
  have hstart : start.Formed := ⟨trivial, List.forall_mem_nil _⟩
  exact normal_stored (formed_run hstart hrun).entries ((arraysHold_lines hread).mp hold)

theorem short_printed {sec : IniSection} (h : sec.Printable) : ∀ entry ∈ sec.printed, entry.Short := by
  refine List.forall_mem_cons.mpr ⟨trivial, List.forall_mem_map.mpr fun keyval hkeyval => ?_⟩
  exact (h.keyvals keyval hkeyval).short

theorem heading_refused (h : line.bytes = dumpHeading ∨ line.bytes = globalHeading) : line.read = none := by
  obtain ⟨bytes, clean⟩ := line
  rcases h with rfl | rfl <;> rfl

/-- Behind its headings the dump of a configuration that was parsed is a text for the same configuration, whose tokens fit again;
    a text with one of the two headings in words is refused. -/
theorem dump_parsed (accepted : Accepts stack past (linesText lines) cfg) (hold : ArraysHold stack past (linesText lines)) :
    ∃ globals sections : List Line, iniDumpConfig (some cfg) =
      [dumpHeading, dumpRule] ++ (if globals = [] then [] else [globalHeading]) ++ (globals ++ sections).map Line.bytes ∧
    ∀ stack' past', (Accepts stack' past' (linesText (globals ++ sections)) cfg ↔ globals ++ sections ≠ []) ∧
      ArraysHold stack' past' (linesText (globals ++ sections)) ∧
      ∀ dumped : List Line, (∃ line ∈ dumped, line.bytes = dumpHeading ∨ line.bytes = globalHeading) →
        Rejects stack' past' (linesText dumped) := by
  have hnormal := normal_accepted accepted hold
  obtain ⟨globals, hglobals, hreadGlobals⟩ := prints_keyvals hnormal.globals
  obtain ⟨sections, hsections, hreadSections⟩ := Prints.flatMap fun sec hsec => prints_section (hnormal.sections sec hsec)
  have hread : readLines (globals ++ sections) =
      some (cfg.globalKeyvals.map IniKeyval.entry ++ cfg.sections.flatMap IniSection.printed) := by
    rw [readLines_append, hreadGlobals, hreadSections]
    rfl
  refine ⟨globals, sections, ?_, fun stack' past' => ⟨?_, (arraysHold_lines hread).mpr ?_, fun dumped hdumped => ?_⟩⟩
  · have hempty : cfg.globalKeyvals.isEmpty = true ↔ globals = [] := by
      rw [List.isEmpty_iff, ← List.map_eq_nil_iff (f := IniKeyval.message), ← hglobals, List.map_eq_nil_iff]
    rw [List.map_append, hglobals, hsections, List.append_assoc]
    simp only [iniDumpConfig, hempty]
    split
    next hnone => rw [← hglobals, hnone]; rfl
    · rfl
  · rw [accepts_lines, hread, and_iff_left_iff_imp]
    exact fun _ => ⟨_, rfl, (stored_printed hnormal).symm⟩
  · refine List.forall_mem_append.mpr ⟨List.forall_mem_map.mpr fun keyval hkeyval => (hnormal.globals keyval hkeyval).short, ?_⟩
    exact List.forall_mem_flatMap.mpr fun sec hsec => short_printed (hnormal.sections sec hsec)
  · obtain ⟨line, hline, hheading⟩ := hdumped
    rw [rejects_lines_iff (List.ne_nil_of_mem hline), readLines_eq_none]
    exact ⟨line, hline, heading_refused hheading⟩

/-- A global pair `a=b`, and a section `s` with `c=d`. -/
def sampleConfig : IniConfig := ⟨[⟨[115], [⟨[99], [100]⟩]⟩], [⟨[97], [98]⟩]⟩

theorem dump_parsed_sample : ∃ globals sections : List Line, iniDumpConfig (some sampleConfig) =
    [dumpHeading, dumpRule] ++ (if globals = [] then [] else [globalHeading]) ++ (globals ++ sections).map Line.bytes ∧
    ∀ stack past, (Accepts stack past (linesText (globals ++ sections)) sampleConfig ↔ globals ++ sections ≠ []) ∧
      ArraysHold stack past (linesText (globals ++ sections)) ∧
      ∀ dumped : List Line, (∃ line ∈ dumped, line.bytes = dumpHeading ∨ line.bytes = globalHeading) →
        Rejects stack past (linesText dumped) := by
  let pair : Line := ⟨[97, 61, 98], by decide +kernel⟩
  let header : Line := ⟨[91, 115, 93], by decide +kernel⟩
  let inside : Line := ⟨[99, 61, 100], by decide +kernel⟩
  let zero : Stack := ⟨fun _ => 0, fun _ => 0, fun _ => 0, fun _ => 0⟩
  have hread : readLines [pair, header, inside] = some [.pair [97] [98], .header [115], .pair [99] [100]] := rfl
  have hold : ArraysHold zero (fun _ => 0) (linesText [pair, header, inside]) := by
    rw [arraysHold_lines hread]
    simp [Entry.Short, Short]
  have hstored : sampleConfig = (stored zero [.pair [97] [98], .header [115], .pair [99] [100]]).2 := rfl
  exact dump_parsed (accepts_lines.mpr ⟨List.cons_ne_nil pair _, _, hread, hstored⟩) hold

end Printed
end Vcmp.Ini
