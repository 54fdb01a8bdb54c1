import Vcmp.Theorems.IniPairs

/-! Two lists of entries that give the same values. Keys come out of their array as they were read or, if they fill it,
    with the memory behind it; different keys stay different. -/

namespace Vcmp.Ini
open ByteMem CString

variable {r r' : Reader} {l : List UInt8} {b : UInt8} {stack : Stack} {entries : List Entry} {section_ current : Option (List UInt8)}
  {key value : List UInt8} {pairs : List (List UInt8 × List UInt8)}

/-! ### Keys -/

theorem held_inj (behind : Mem) {key' : List UInt8} (hkey : key.length ≤ 256) (hkey' : key'.length ≤ 256) :
    held behind key = held behind key' ↔ key = key' := by
  refine ⟨fun h => ?_, fun h => h ▸ rfl⟩
  rw [held, held] at h
  have hlength := congrArg List.length h
  split_ifs at h hlength with hshort hshort' hshort'
  · exact h
  · rw [List.length_append, List.length_take] at hlength
    omega
  · rw [List.length_append, List.length_take] at hlength
    omega
  · rw [List.take_of_length_le hkey, List.take_of_length_le hkey'] at h
    exact List.append_cancel_right h

def Entry.KeyFits : Entry → Prop
  | .header _ => True
  | .pair key _ => key.length ≤ 256

def Place.KeyFits : Place → Prop
  | .key key | .gap key | .equals key | .lead key | .value key _ => key.length ≤ 256
  | _ => True

/-- No key is longer than its array. -/
structure Reader.KeysFit (r : Reader) : Prop where
  place : r.place.KeyFits
  entries : ∀ entry ∈ r.entries, entry.KeyFits

section KeysFit
variable (h : ∀ entry ∈ r.entries, entry.KeyFits)
include h

theorem KeysFit.goTo {place : Place} (hplace : place.KeyFits) : (r.goTo place).KeysFit := ⟨hplace, h⟩

theorem KeysFit.enter {entry : Entry} (hentry : entry.KeyFits) : (r.enter entry).KeysFit :=
  ⟨trivial, List.forall_mem_append.mpr ⟨h, List.forall_mem_singleton.mpr hentry⟩⟩

theorem keysFit_stepGap (hkey : key.length ≤ 256) (hstep : r.stepGap b key = some r') : r'.KeysFit := by
  rw [Reader.stepGap] at hstep
  split at hstep
  · obtain rfl := Option.some.inj hstep
    exact KeysFit.goTo h hkey
  · split at hstep
    · cases hstep
    · obtain rfl := Option.some.inj hstep
      exact KeysFit.goTo h hkey

theorem keysFit_stepKey (hkey : key.length ≤ 256) (hstep : r.stepKey b key = some r') : r'.KeysFit := by
  rw [Reader.stepKey] at hstep
  split at hstep
  · exact keysFit_stepGap h hkey hstep
  next hroom =>
    split at hstep
    · cases hstep
    · obtain rfl := Option.some.inj hstep
      have hne : key.length ≠ 256 := fun heq => hroom (Or.inr heq)
      refine KeysFit.goTo h (show (key ++ [b]).length ≤ 256 from ?_)
      rw [List.length_append, List.length_singleton]
      omega

theorem keysFit_stepValue {token : List UInt8} (hkey : key.length ≤ 256) : (r.stepValue b key token).KeysFit := by
  rw [Reader.stepValue]
  split
  · exact KeysFit.enter h hkey
  · exact KeysFit.goTo h hkey

theorem keysFit_stepLead (hkey : key.length ≤ 256) : (r.stepLead b key).KeysFit := by
  rw [Reader.stepLead]
  split
  · exact KeysFit.goTo h hkey
  · exact keysFit_stepValue h hkey

theorem keysFit_stepName {token : List UInt8} (hstep : r.stepName b token = some r') : r'.KeysFit := by
  rw [Reader.stepName] at hstep
  split at hstep
  · obtain rfl := Option.some.inj hstep
    exact KeysFit.enter h trivial
  · split at hstep
    · cases hstep
    · obtain rfl := Option.some.inj hstep
      exact KeysFit.goTo h trivial

end KeysFit

theorem keysFit_stepOne (h : r.KeysFit) (hstep : r.stepOne b = some r') : r'.KeysFit := by
  obtain ⟨hplace, hentries⟩ := h
  obtain ⟨place, entries⟩ := r
  cases place with
  | ready =>
    obtain rfl := Option.some.inj hstep
    rw [Reader.stepReady]
    split_ifs <;> exact KeysFit.goTo hentries trivial
  | hash | comment =>
    obtain rfl := Option.some.inj hstep
    rw [Reader.stepComment]
    split_ifs <;> exact KeysFit.goTo hentries trivial
  | bracket | name _ => exact keysFit_stepName hentries hstep
  | began _ => cases hstep
  | key _ => exact keysFit_stepKey hentries hplace hstep
  | gap _ => exact keysFit_stepGap hentries hplace hstep
  | equals _ | lead _ =>
    obtain rfl := Option.some.inj hstep
    exact keysFit_stepLead hentries hplace
  | value _ _ =>
    obtain rfl := Option.some.inj hstep
    exact keysFit_stepValue hentries hplace

theorem keysFit_step (h : r.KeysFit) (hstep : r.step b = some r') : r'.KeysFit := by
  rw [Reader.step] at hstep
  split at hstep
  · obtain ⟨r₁, hfirst, hb⟩ := Option.bind_eq_some_iff.mp hstep
    exact keysFit_stepOne (keysFit_stepKey h.entries (Nat.zero_le _) hfirst) hb
  · exact keysFit_stepOne h hstep

theorem keysFit_run (h : r.KeysFit) (hrun : Lts.run Reader.step r l = some r') : r'.KeysFit := by
  induction l generalizing r with
  | nil =>
    obtain rfl := Option.some.inj hrun
    exact h
  | cons b l ih =>
    obtain ⟨r₁, hstep, hrest⟩ := Option.bind_eq_some_iff.mp hrun
    exact ih (keysFit_step h hstep) hrest

theorem keysFit_readAll (h : readAll l = some r) : r.KeysFit := by
  have hstart : start.KeysFit := ⟨trivial, List.forall_mem_nil _⟩
  exact keysFit_run hstart h

/-! ### Values -/

/-- The value of the first pair that has the key and stands in the section. -/
def valueUnder (entries : List Entry) (section_ : Option (List UInt8)) (key : List UInt8) : Option (List UInt8) :=
  ((pairsUnder section_ none entries).find? fun pair => pair.1 = key).map Prod.snd

theorem mem_pairsUnder (h : (key, value) ∈ pairsUnder section_ current entries) : key ≠ [] ∧ .pair key value ∈ entries := by
  induction entries generalizing current with
  | nil => cases h
  | cons entry entries ih =>
    cases entry with
    | header name =>
      obtain ⟨named, hmem⟩ := ih h
      exact ⟨named, List.mem_cons_of_mem _ hmem⟩
    | pair key' value' =>
      rw [pairsUnder] at h
      rcases List.mem_append.mp h with h | h
      · split at h
        next hnamed =>
          obtain ⟨rfl, rfl⟩ := Prod.mk.inj (List.mem_singleton.mp h)
          exact ⟨hnamed.1, List.mem_cons_self⟩
        · cases h
      · obtain ⟨named, hmem⟩ := ih h
        exact ⟨named, List.mem_cons_of_mem _ hmem⟩

/-- A key is looked up among the pairs as they were read. -/
theorem find?_keyval (fits : ∀ pair ∈ pairs, pair.1.length ≤ 256) (hkey : key.length ≤ 256) :
    valueIn (pairs.map stack.keyval) (held stack.currentKey key) =
      ((pairs.find? fun pair => pair.1 = key).map Prod.snd).map (held stack.currentValue) := by
  induction pairs with
  | nil => rfl
  | cons pair pairs ih =>
    have hpair := held_inj stack.currentKey (fits pair List.mem_cons_self) hkey
    have hrest := ih fun p hp => fits p (List.mem_cons_of_mem pair hp)
    rw [valueIn] at hrest ⊢
    rw [List.map_cons, List.find?_cons, List.find?_cons]
    by_cases heq : pair.1 = key
    · have hheld : decide ((stack.keyval pair).name = held stack.currentKey key) = true := decide_eq_true (hpair.mpr heq)
      rw [hheld, decide_eq_true heq]
      rfl
    · have hheld : decide ((stack.keyval pair).name = held stack.currentKey key) = false := decide_eq_false fun h => heq (hpair.mp h)
      rw [hheld, decide_eq_false heq]
      exact hrest

theorem lookup_stored (fits : ∀ entry ∈ entries, entry.KeyFits) (named : key ≠ []) (hkey : key.length ≤ 256) :
    iniGetValue (stored stack entries).2 section_ (held stack.currentKey key) =
      (valueUnder entries section_ key).map (held stack.currentValue) := by
  have hpairs : ∀ pair ∈ pairsUnder section_ none entries, pair.1.length ≤ 256 := fun pair hpair => fits _ (mem_pairsUnder hpair).2
  rw [iniGetValue_stored, if_neg fun h => named (held_eq_nil.mp h), find?_keyval hpairs hkey, valueUnder]

/-! ### Entries that change -/

/-- What a carriage return in front of the line feed makes of an entry. -/
def Entry.withReturn : Entry → Entry
  | .header name => .header name
  | .pair key value => .pair key (value ++ ['\r'.toUInt8])

theorem pairsUnder_withReturn (entries : List Entry) : pairsUnder section_ current (entries.map Entry.withReturn) =
    (pairsUnder section_ current entries).map fun pair => (pair.1, pair.2 ++ ['\r'.toUInt8]) := by
  induction entries generalizing current with
  | nil => rfl
  | cons entry entries ih =>
    cases entry with
    | header name => exact ih
    | pair key value =>
      rw [List.map_cons, Entry.withReturn, pairsUnder, ih, pairsUnder, List.map_append]
      split <;> rfl

/-- A value that fits shows a carriage return behind it. -/
theorem held_return {behind : Mem} (hshort : value.length ≤ 255) : held behind (value ++ ['\r'.toUInt8]) ≠ held behind value := by
  intro h
  have hheld : held behind value = value := if_pos (by omega)
  have hlength := congrArg List.length (h.trans hheld)
  rw [held] at hlength
  split at hlength
  · rw [List.length_append, List.length_singleton] at hlength
    omega
  · rw [List.length_append, List.length_take, List.length_append, List.length_singleton] at hlength
    omega

theorem valueUnder_some (h : valueUnder entries section_ key = some value) : key ≠ [] ∧ .pair key value ∈ entries := by
  obtain ⟨pair, hfind, rfl⟩ := Option.map_eq_some_iff.mp h
  have hkey := List.find?_some hfind
  obtain rfl : pair.1 = key := of_decide_eq_true hkey
  exact mem_pairsUnder (List.mem_of_find?_eq_some hfind)

theorem Entry.Short.keyFits {entry : Entry} (h : entry.Short) : entry.KeyFits := by
  cases entry with
  | header _ => trivial
  | pair key value => exact Nat.le_succ_of_le h.1

theorem valueIn_keyval (pairs : List (List UInt8 × List UInt8)) (name : List UInt8) : valueIn (pairs.map stack.keyval) name =
    (pairs.find? fun pair => held stack.currentKey pair.1 = name).map fun pair => held stack.currentValue pair.2 := by
  rw [valueIn, List.find?_map, Option.map_map]
  rfl

/-- A pair that is found by what comes out of the array is the first with its key. -/
theorem valueUnder_of_find {pair : List UInt8 × List UInt8} {name : List UInt8}
    (h : (pairsUnder section_ none entries).find? (fun pair => held stack.currentKey pair.1 = name) = some pair) :
    valueUnder entries section_ pair.1 = some pair.2 := by
  obtain ⟨hname, before, after, hsplit, hbefore⟩ := List.find?_eq_some_iff_append.mp h
  have hfind : (pairsUnder section_ none entries).find? (fun p => p.1 = pair.1) = some pair := by
    refine List.find?_eq_some_iff_append.mpr ⟨decide_eq_true rfl, before, after, hsplit, fun p hp => ?_⟩
    have hother := hbefore p hp
    rw [Bool.not_eq_true', decide_eq_false_iff_not] at hother ⊢
    exact fun heq => hother (heq ▸ of_decide_eq_true hname)
  rw [valueUnder, hfind]
  rfl

/-- All lookups are the same with carriage returns exactly if none of them finds a value. -/
theorem lookups_withReturn (short : ∀ entry ∈ entries, entry.Short) :
    (∀ section_ key, iniGetValue (stored stack (entries.map Entry.withReturn)).2 section_ key = iniGetValue (stored stack entries).2 section_ key) ↔
      ∀ section_ key, valueUnder entries section_ key = none := by
  have fits : ∀ entry ∈ entries, entry.KeyFits := fun entry hentry => (short entry hentry).keyFits
  constructor
  · intro h section_ key
    by_contra hfound
    obtain ⟨value, hvalue⟩ := Option.ne_none_iff_exists'.mp hfound
    obtain ⟨named, hmem⟩ := valueUnder_some hvalue
    obtain ⟨hkey, hvalueShort⟩ : Short key value := short _ hmem
    have fits' : ∀ entry ∈ entries.map Entry.withReturn, entry.KeyFits := by
      rw [List.forall_mem_map]
      intro entry hentry
      have hfits := fits entry hentry
      cases entry <;> exact hfits
    have hreturn : valueUnder (entries.map Entry.withReturn) section_ key = some (value ++ ['\r'.toUInt8]) := by
      obtain ⟨pair, hfind, rfl⟩ := Option.map_eq_some_iff.mp hvalue
      rw [valueUnder, pairsUnder_withReturn, List.find?_map, Option.map_map]
      exact congrArg (Option.map _) hfind
    have hsame := h section_ (held stack.currentKey key)
    rw [lookup_stored fits named (Nat.le_succ_of_le hkey), lookup_stored fits' named (Nat.le_succ_of_le hkey), hvalue, hreturn] at hsame
    exact held_return hvalueShort (Option.some.inj hsame)
  · intro h section_ key
    rw [iniGetValue_stored, iniGetValue_stored, pairsUnder_withReturn, valueIn_keyval, valueIn_keyval, List.find?_map, Option.map_map]
    split
    · rfl
    refine Option.map_congr fun pair hfind => ?_
    cases (h section_ pair.1).symm.trans (valueUnder_of_find hfind)

/-- A pair at the end changes no lookup exactly if it has no key, or its key is there already. -/
theorem lookups_pair (fits : ∀ entry ∈ entries, entry.KeyFits) (hkey : key.length ≤ 256) :
    (∀ section_ name, iniGetValue (stored stack (entries ++ [.pair key value])).2 section_ name =
      iniGetValue (stored stack entries).2 section_ name) ↔ key = [] ∨ (valueUnder entries (sectionBehind none entries) key).isSome := by
  have hunder (section_ : Option (List UInt8)) : pairsUnder section_ none (entries ++ [.pair key value]) = pairsUnder section_ none entries ++
      if key ≠ [] ∧ section_ = sectionBehind none entries then [(key, value)] else [] := by
    rw [pairsUnder_append, pairsUnder, pairsUnder, List.append_nil]
  constructor
  · rw [or_iff_not_imp_left]
    intro h named
    have hsame := h (sectionBehind none entries) (held stack.currentKey key)
    rw [lookup_stored fits named hkey, iniGetValue_stored, if_neg fun hnil => named (held_eq_nil.mp hnil), hunder, if_pos ⟨named, rfl⟩,
      valueIn_keyval, List.find?_append] at hsame
    have hsome := congrArg Option.isSome hsame
    rw [Option.isSome_map, Option.isSome_map, Option.isSome_or] at hsome
    rw [← hsome]
    simp
  · intro h section_ name
    rw [iniGetValue_stored, iniGetValue_stored, hunder]
    split
    · rfl
    split
    next hadded =>
      obtain ⟨named, rfl⟩ := hadded
      rw [valueIn_keyval, valueIn_keyval, List.find?_append]
      refine congrArg _ ?_
      have hsome := h.resolve_left named
      by_cases hname : held stack.currentKey key = name
      · rw [valueUnder, Option.isSome_map, List.find?_isSome] at hsome
        obtain ⟨pair, hmem, hpair⟩ := hsome
        have hfound : ((pairsUnder (sectionBehind none entries) none entries).find? fun pair => held stack.currentKey pair.1 = name).isSome := by
          rw [List.find?_isSome]
          exact ⟨pair, hmem, decide_eq_true (of_decide_eq_true hpair ▸ hname)⟩
        exact Option.or_of_isSome hfound
      · rw [List.find?_cons, decide_eq_false hname]
        exact Option.or_none
    · rw [List.append_nil]

end Vcmp.Ini
