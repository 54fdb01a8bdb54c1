import Vcmp.IniReader
import Vcmp.Lib.GoesOn
import Vcmp.Theorems.Ini

/-! The cases of the parser of configurations, byte by byte: each byte does to them what it does to the reader. -/

namespace Vcmp.Ini
open ByteMem CString

variable {m : Mem} {stop fails : UInt8 → Bool} {limit : Option Nat} {fuel i j n : Nat} {tmp : State} {stack : Stack}
  {mallocs : Mallocs} {r r' : Reader} {p q : Parser} {l word : List UInt8} {b : UInt8}

/-! ### The inner loops -/

theorem goesOn_skip_stop (h : stop (m j) = true) : GoesOn [j] m (skip stop fails (i + 1) j) (pure j) := by
  have hload : GoesOn [j] m (skip stop fails (i + 1) j) _ := goesOn_load j _
  rwa [h, if_pos rfl] at hload

theorem goesOn_skip_fail (h : stop (m j) = false) (hfail : fails (m j) = true) :
    GoesOn [j] m (skip stop fails (i + 1) j) (throw .fail) := by
  have hload : GoesOn [j] m (skip stop fails (i + 1) j) _ := goesOn_load j _
  rwa [h, if_neg Bool.false_ne_true, hfail, if_pos rfl] at hload

theorem goesOn_skip_next (h : stop (m j) = false) (hfail : fails (m j) = false) :
    GoesOn [j] m (skip stop fails (i + 1) j) (skip stop fails i (j + 1)) := by
  have hload : GoesOn [j] m (skip stop fails (i + 1) j) _ := goesOn_load j _
  rwa [h, if_neg Bool.false_ne_true, hfail, if_neg Bool.false_ne_true] at hload

theorem goesOn_fill_stop (h : stop (m j) = true ∨ limit = some n) :
    GoesOn [j] m (fill stop limit fails (i + 1) j n tmp) (pure (j, tmp)) := by
  have hload : GoesOn [j] m (fill stop limit fails (i + 1) j n tmp) _ := goesOn_load j _
  rwa [if_pos h] at hload

theorem goesOn_fill_fail (h : ¬(stop (m j) = true ∨ limit = some n)) (hfail : fails (m j) = true) :
    GoesOn [j] m (fill stop limit fails (i + 1) j n tmp) (throw .fail) := by
  have hload : GoesOn [j] m (fill stop limit fails (i + 1) j n tmp) _ := goesOn_load j _
  rwa [if_neg h, hfail, if_pos rfl] at hload

theorem goesOn_fill_next (h : ¬(stop (m j) = true ∨ limit = some n)) (hfail : fails (m j) = false) :
    GoesOn [j] m (fill stop limit fails (i + 1) j n tmp)
      (fill stop limit fails i (j + 1) (n + 1) ((store n (m j)).run tmp).2) := by
  have hload : GoesOn [j] m (fill stop limit fails (i + 1) j n tmp) _ := goesOn_load j _
  rwa [if_neg h, hfail, if_neg Bool.false_ne_true] at hload

theorem stops_iff {c : Prop} [Decidable c] {k : Nat} : decide c = true ∨ some n = some k ↔ c ∨ k = n := by
  rw [decide_eq_true_iff, Option.some_inj, eq_comm (a := n)]

/-! ### The parser and the reader -/

/-- The state of the parser at the head of its loop, or in the case it is in. -/
def Place.state : Place → ParserState
  | .ready => .readyForData
  | .hash | .comment => .comment
  | .bracket | .name _ => .sectionName
  | .began _ | .key _ | .gap _ => .key
  | .equals _ | .lead _ | .value _ _ => .value

/-- The bytes in `tmp`. -/
def Place.token : Place → List UInt8
  | .name token | .key token | .gap token | .value _ token => token
  | _ => []

/-- The key behind the equals sign. -/
def Place.keyed : Place → Option (List UInt8)
  | .equals keyName | .lead keyName | .value keyName _ => some keyName
  | _ => none

/-- The array `tmp` once the bytes were stored. -/
def written (p : Parser) (token : List UInt8) : State := ((storeBytes 0 token).run p.tmp).2

/-- The parser once the section name was copied. -/
def Parser.named (p : Parser) (j : Nat) (token : List UInt8) : Parser :=
  { p with
    state := .readyForData, bufp := j, tmp := clearTmp (written p token),
    currentSection := copyTmp (written p token) p.currentSection }

/-- The parser once the key was copied. -/
def Parser.keyed (p : Parser) (j : Nat) (token : List UInt8) : Parser :=
  { p with
    state := .value, bufp := j, tmp := clearTmp (written p token), currentKey := copyTmp (written p token) p.currentKey }

/-- The parser once the value was copied and assigned. -/
def Parser.valued (mallocs : Mallocs) (p : Parser) (j : Nat) (token : List UInt8) : Parser :=
  let currentValue := copyTmp (written p token) p.currentValue
  let cfg := assignKeyval (mallocs.section_ p.bufp) (mallocs.keyval p.bufp) p.cfg (sectionArg p.currentSection)
    (cstr p.currentKey 0 addressSpace) (cstr currentValue 0 addressSpace)
  { p with state := .readyForData, bufp := j, tmp := clearTmp (written p token), currentValue, cfg }

/-- What is left of a case when the byte at offset `j` is next. -/
def tail (mallocs : Mallocs) (fuel i : Nat) (p : Parser) (j : Nat) : Place → Parse Parser
  | .comment => do
    let bufp ← skip (fun b => b = '\r'.toUInt8 ∨ b = '\n'.toUInt8 ∨ b = '\t'.toUInt8 ∨ b = 0) (fun _ => false) i j
    return { p with state := .readyForData, bufp }
  | .name token => do
    let (bufp, tmp) ← fill (· = ']'.toUInt8) (some 255) endsLine i j token.length (written p token)
    return { p with state := .readyForData, bufp, tmp := clearTmp tmp, currentSection := copyTmp tmp p.currentSection }
  | .key token => do
    let (bufp, tmp) ← fill (fun b => b = ' '.toUInt8 ∨ b = '\t'.toUInt8 ∨ b = '='.toUInt8) (some 256) endsLine i j
      token.length (written p token)
    let bufp ← skip (· = '='.toUInt8) endsLine fuel bufp
    return { p with state := .value, bufp, tmp := clearTmp tmp, currentKey := copyTmp tmp p.currentKey }
  | .gap token => do
    let bufp ← skip (· = '='.toUInt8) endsLine i j
    return { p with state := .value, bufp, tmp := clearTmp (written p token), currentKey := copyTmp (written p token) p.currentKey }
  | .lead _ => do
    let bufp ← skip (fun b => ¬(b = ' '.toUInt8 ∨ b = '\t'.toUInt8)) (fun _ => false) i j
    let (bufp, tmp) ← fill endsLine none (fun _ => false) fuel bufp 0 p.tmp
    let currentValue := copyTmp tmp p.currentValue
    let cfg := assignKeyval (mallocs.section_ p.bufp) (mallocs.keyval p.bufp) p.cfg (sectionArg p.currentSection)
      (cstr p.currentKey 0 addressSpace) (cstr currentValue 0 addressSpace)
    return { p with state := .readyForData, bufp, tmp := clearTmp tmp, currentValue, cfg }
  | .value _ token => do
    let (bufp, tmp) ← fill endsLine none (fun _ => false) i j token.length (written p token)
    let currentValue := copyTmp tmp p.currentValue
    let cfg := assignKeyval (mallocs.section_ p.bufp) (mallocs.keyval p.bufp) p.cfg (sectionArg p.currentSection)
      (cstr p.currentKey 0 addressSpace) (cstr currentValue 0 addressSpace)
    return { p with state := .readyForData, bufp, tmp := clearTmp tmp, currentValue, cfg }
  | _ => pure p

/-- What the parser keeps while the reader is at `r`. -/
structure Inside (stack : Stack) (mallocs : Mallocs) (r : Reader) (p : Parser) : Prop where
  cleared : ∀ k < 256, p.tmp.mem k = 0
  current : sectionArg p.currentSection = (stored stack r.entries).1
  key : ∀ key ∈ r.place.keyed, cstr p.currentKey 0 addressSpace = held stack.currentKey key
  sectionEnds : Terminated p.currentSection 256
  keyEnds : ∀ key ∈ r.place.keyed, Terminated p.currentKey 256 ↔ key.length ≤ 255
  behindKey : ∀ k, p.currentKey (256 + k) = stack.currentKey k
  behindValue : ∀ k, p.currentValue (256 + k) = stack.currentValue k
  cfg : mallocs = ample → p.cfg = (stored stack r.entries).2
  zeroFree : 0 ∉ r.place.token
  short : ∀ token, r.place = .name token → token.length ≤ 255

/-- The parser at the head of its loop. -/
structure Head (stack : Stack) (mallocs : Mallocs) (m : Mem) (j : Nat) (r : Reader) (p : Parser) : Prop extends
    Inside stack mallocs r p where
  atTurn : r.place.atTurn = true
  state : p.state = r.place.state
  bufp : p.bufp = j
  first : ∀ first, r.place = .began first → 0 < j ∧ m (j - 1) = first

theorem written_nil (p : Parser) : written p [] = p.tmp := rfl

theorem written_snoc (p : Parser) (word : List UInt8) (b : UInt8) :
    ((store word.length b).run (written p word)).2 = written p (word ++ [b]) := by
  have hsnoc : ∀ (k : Nat) (s : State),
      ((storeBytes k (word ++ [b])).run s).2 = ((store (k + word.length) b).run ((storeBytes k word).run s).2).2 := by
    induction word with
    | nil => exact fun _ _ => rfl
    | cons c word ih =>
      intro k s
      rw [List.cons_append, storeBytes, Prog.run_bind, ih, List.length_cons, storeBytes, Prog.run_bind]
      rw [show k + 1 + word.length = k + (word.length + 1) by omega]
  rw [written, written, hsnoc, Nat.zero_add]

/-! ### The arrays -/

theorem copyTmp_of_le {k : Nat} (dest : Mem) (h : 256 ≤ k) : copyTmp tmp dest k = dest k := by
  simp only [copyTmp, put, Nat.zero_le, if_true, Nat.sub_zero]
  rw [List.getD_eq_default _ _ (by rwa [length_slice])]

theorem copyTmp_add (dest : Mem) (k : Nat) : copyTmp tmp dest (256 + k) = dest (256 + k) :=
  copyTmp_of_le dest (Nat.le_add_right 256 k)

/-- The string that was stored in the cleared `tmp` and copied, whatever its length. -/
theorem cstr_copyTmp_held {dest behind : Mem} (cleared : ∀ k < 256, p.tmp.mem k = 0) (clean : 0 ∉ word)
    (hbehind : ∀ k, dest (256 + k) = behind k) : cstr (copyTmp (written p word) dest) 0 addressSpace = held behind word := by
  rw [held]
  split
  next short => exact cstr_copyTmp dest cleared clean (Nat.le_of_lt_succ short)
  next long =>
    have hlength : (word.take 256).length = 256 := by
      rw [List.length_take]
      omega
    have hslice : slice (copyTmp (written p word) dest) 0 (word.take 256).length = word.take 256 := by
      rw [hlength, slice_congr fun k _ hk => copyTmp_of_lt dest (by omega), written, run_storeBytes, put_zero,
        slice_ofBytes (by omega), List.drop_zero]
    have hclean : 0 ∉ word.take 256 := fun hmem => clean (List.mem_of_mem_take hmem)
    have hcstr := cstr_slice (n := addressSpace - 256) hslice hclean
    have hlast : cstr (copyTmp (written p word) dest) 256 (addressSpace - 256) = cstr behind 0 (addressSpace - 256) := by
      refine cstr_congr fun k => ?_
      rw [copyTmp_add, hbehind, Nat.zero_add]
    rw [hlength, Nat.zero_add, hlast] at hcstr
    exact hcstr

theorem sectionArg_copyTmp_written (dest : Mem) (cleared : ∀ k < 256, p.tmp.mem k = 0) (clean : 0 ∉ word) (short : word.length ≤ 255) :
    sectionArg (copyTmp (written p word) dest) = if word = [] then none else some word := by
  split
  next hempty =>
    subst hempty
    have hzero : copyTmp (written p []) dest 0 = 0 := by
      rw [copyTmp_of_lt dest (by decide), written_nil, cleared 0 (by decide)]
    rw [sectionArg, if_pos hzero]
  next named => exact sectionArg_copyTmp dest cleared clean short named

/-- The copied bytes end in the array if they leave room for a zero. -/
theorem terminated_copyTmp (dest : Mem) (cleared : ∀ k < 256, p.tmp.mem k = 0) (clean : 0 ∉ word) :
    Terminated (copyTmp (written p word) dest) 256 ↔ word.length ≤ 255 := by
  have hget {k : Nat} (hk : k < 256) : copyTmp (written p word) dest k = ofBytes word (fun k => p.tmp.mem (word.length + k)) k := by
    rw [copyTmp_of_lt dest hk, written, run_storeBytes, put_zero]
  constructor
  · rintro ⟨k, hk, hzero⟩
    by_contra hlong
    rw [hget hk, ofBytes_of_lt (by omega)] at hzero
    exact clean (hzero ▸ List.getElem_mem _)
  · intro short
    refine ⟨word.length, by omega, ?_⟩
    rw [hget (by omega), ofBytes_of_le (Nat.le_refl _), Nat.sub_self]
    exact cleared _ (by omega)

theorem stored_snoc (stack : Stack) (entries : List Entry) (entry : Entry) :
    stored stack (entries ++ [entry]) = entry.apply stack (stored stack entries) := by
  rw [stored, stored, List.foldl_append]
  rfl

/-! ### One byte -/

/-- The offset `n` was loaded, and none behind it. -/
def Up (n : Nat) (more : List Nat) : Prop := n ∈ more ∧ ∀ k ∈ more, k ≤ n

theorem up_singleton (n : Nat) : Up n [n] := ⟨List.mem_singleton_self n, fun _ hk => (List.mem_singleton.mp hk).le⟩

theorem Up.append {more rest : List Nat} (h : Up n more) (hrest : Up n rest) : Up n (rest ++ more) := by
  refine ⟨List.mem_append_right rest h.1, fun k hk => ?_⟩
  rcases List.mem_append.mp hk with hk | hk
  · exact hrest.2 k hk
  · exact h.2 k hk

/-- What becomes of a case by the byte at offset `j`, and of the reader. -/
inductive Tail (stack : Stack) (mallocs : Mallocs) (m : Mem) (fuel i j : Nat) (p : Parser) (x : Parse Parser) :
    Option Reader → Prop
  | refused {more : List Nat} (up : Up j more) (goes : GoesOn more m x (throw .fail)) : Tail stack mallocs m fuel i j p x none
  | ended {more : List Nat} {q : Parser} {r : Reader} (up : Up j more) (goes : GoesOn more m x (pure q))
      (head : Head stack mallocs m (j + 1) r { q with bufp := q.bufp + 1 }) : Tail stack mallocs m fuel i j p x (some r)
  | inside {more : List Nat} {k : Nat} {r : Reader} (up : Up j more)
      (goes : GoesOn more m x (tail mallocs fuel k p (j + 1) r.place)) (left : i ≤ k + 1 ∧ k ≤ fuel)
      (inner : r.place.atTurn = false) (inside : Inside stack mallocs r p) : Tail stack mallocs m fuel i j p x (some r)

theorem Tail.of_goesOn {k : Nat} {x y : Parse Parser} {o : Option Reader} (h : GoesOn [j] m x y) (left : i ≤ k)
    (hy : Tail stack mallocs m fuel k j p y o) : Tail stack mallocs m fuel i j p x o := by
  cases hy with
  | refused up goes => exact .refused ((up_singleton j).append up) (h.trans goes)
  | ended up goes head => exact .ended ((up_singleton j).append up) (h.trans goes) head
  | inside up goes left' inner inside =>
    exact .inside ((up_singleton j).append up) (h.trans goes) ⟨left.trans left'.1, left'.2⟩ inner inside

/-- In places without a key, a name or a value nothing is kept but the entries. -/
theorem Inside.goTo (inside : Inside stack mallocs r p) (place : Place) (hkey : place.keyed = none ∨ place.keyed = r.place.keyed)
    (zeroFree : 0 ∉ place.token) (short : ∀ token, place = .name token → token.length ≤ 255) :
    Inside stack mallocs (r.goTo place) p := by
  have hmem {keyName : List UInt8} (h : keyName ∈ place.keyed) : keyName ∈ r.place.keyed := by
    rcases hkey with hkey | hkey
    · cases (hkey ▸ h : keyName ∈ (none : Option (List UInt8)))
    · exact hkey ▸ h
  exact { inside with
    key := fun keyName h => inside.key keyName (hmem h), keyEnds := fun keyName h => inside.keyEnds keyName (hmem h), zeroFree, short }

theorem not_mem_snoc (h : 0 ∉ word) (hb : b ≠ 0) : 0 ∉ word ++ [b] := by
  rw [List.mem_append, List.mem_singleton, not_or]
  exact ⟨h, hb.symm⟩

theorem ne_zero_of_endsLine (h : endsLine b = false) : b ≠ 0 := by
  rintro rfl
  exact absurd h (by decide)

theorem ne_lf_of_endsLine (h : endsLine b = false) : b ≠ '\n'.toUInt8 := by
  rintro rfl
  cases h

/-- Inside of a line a comment ends at a CR or a TAB only. -/
theorem Reader.stepComment_inside (r : Reader) (h : endsLine b = false) :
    r.stepComment b = if b = '\r'.toUInt8 ∨ b = '\t'.toUInt8 then r.goTo .ready else r.goTo .comment := by
  rw [Reader.stepComment]
  simp only [ne_zero_of_endsLine h, ne_lf_of_endsLine h, or_false, false_or]

theorem tail_comment (hfuel : i < fuel) (inside : Inside stack mallocs r p) :
    Tail stack mallocs m fuel (i + 1) j p (tail mallocs fuel (i + 1) p j .comment) (some (r.stepComment (m j))) := by
  rw [Reader.stepComment]
  split
  next hb =>
    refine .ended (up_singleton j) ((goesOn_skip_stop (decide_eq_true hb)).bind _) ?_
    exact { inside.goTo .ready (Or.inl rfl) List.not_mem_nil nofun with
      atTurn := rfl, state := rfl, bufp := rfl, first := nofun }
  next hb =>
    refine .inside (up_singleton j) ((goesOn_skip_next (decide_eq_false hb) rfl).bind _) ⟨Nat.le_refl _, hfuel.le⟩ rfl ?_
    exact inside.goTo .comment (Or.inl rfl) List.not_mem_nil nofun

/-- The section name is copied, and the entry read. -/
theorem head_header (inside : Inside stack mallocs r p) (zeroFree : 0 ∉ word) (short : word.length ≤ 255) :
    Head stack mallocs m (j + 1) (r.enter (.header word)) { p.named j word with bufp := j + 1 } where
  cleared := cleared_clearTmp (written p word)
  current := by
    rw [Reader.enter, stored_snoc]
    exact sectionArg_copyTmp_written _ inside.cleared zeroFree short
  key := nofun
  sectionEnds := (terminated_copyTmp _ inside.cleared zeroFree).mpr short
  keyEnds := nofun
  behindKey := inside.behindKey
  behindValue := inside.behindValue
  cfg h := by
    rw [Reader.enter, stored_snoc]
    exact inside.cfg h
  zeroFree := List.not_mem_nil
  short := nofun
  atTurn := rfl
  state := rfl
  bufp := rfl
  first := nofun

theorem tail_name (hfuel : i < fuel) (inside : Inside stack mallocs r p) (zeroFree : 0 ∉ word) (short : word.length ≤ 255) :
    Tail stack mallocs m fuel (i + 1) j p (tail mallocs fuel (i + 1) p j (.name word)) (r.stepName (m j) word) := by
  rw [Reader.stepName]
  split
  next hb =>
    rw [← stops_iff] at hb
    have hfill : GoesOn [j] m (fill (· = ']'.toUInt8) (some 255) endsLine (i + 1) j word.length (written p word)) _ :=
      goesOn_fill_stop hb
    have hgoes : GoesOn [j] m (tail mallocs fuel (i + 1) p j (.name word)) (pure (p.named j word)) := hfill.bind _
    exact .ended (up_singleton j) hgoes (head_header inside zeroFree short)
  next hb =>
    have hlong : word.length ≠ 255 := fun h => hb (Or.inr h)
    rw [← stops_iff] at hb
    cases hends : endsLine (m j) with
    | true =>
      rw [if_pos rfl]
      exact .refused (up_singleton j) ((goesOn_fill_fail hb hends).bind _)
    | false =>
      rw [if_neg Bool.false_ne_true]
      have hnext : GoesOn [j] m (tail mallocs fuel (i + 1) p j (.name word)) (tail mallocs fuel i p (j + 1) (.name (word ++ [m j]))) := by
        rw [tail, tail, ← written_snoc, List.length_append, List.length_singleton]
        exact (goesOn_fill_next hb hends).bind _
      refine .inside (up_singleton j) hnext ⟨Nat.le_refl _, hfuel.le⟩ rfl ?_
      refine inside.goTo _ (Or.inl rfl) (not_mem_snoc zeroFree (ne_zero_of_endsLine hends)) ?_
      rintro token ⟨⟩
      rw [List.length_append, List.length_singleton]
      omega

theorem head_equals (inside : Inside stack mallocs r p) (zeroFree : 0 ∉ word) :
    Head stack mallocs m (j + 1) (r.goTo (.equals word)) { p.keyed j word with bufp := j + 1 } where
  cleared := cleared_clearTmp (written p word)
  current := inside.current
  key := by
    rintro keyName ⟨⟩
    exact cstr_copyTmp_held inside.cleared zeroFree inside.behindKey
  sectionEnds := inside.sectionEnds
  keyEnds := by
    rintro keyName ⟨⟩
    exact terminated_copyTmp _ inside.cleared zeroFree
  behindKey k := (copyTmp_add _ k).trans (inside.behindKey k)
  behindValue := inside.behindValue
  cfg := inside.cfg
  zeroFree := List.not_mem_nil
  short := nofun
  atTurn := rfl
  state := rfl
  bufp := rfl
  first := nofun

theorem tail_gap (hfuel : i < fuel) (inside : Inside stack mallocs r p) (zeroFree : 0 ∉ word) :
    Tail stack mallocs m fuel (i + 1) j p (tail mallocs fuel (i + 1) p j (.gap word)) (r.stepGap (m j) word) := by
  rw [Reader.stepGap]
  split
  next hb =>
    have hgoes : GoesOn [j] m (tail mallocs fuel (i + 1) p j (.gap word)) (pure (p.keyed j word)) :=
      (goesOn_skip_stop (decide_eq_true hb)).bind _
    exact .ended (up_singleton j) hgoes (head_equals inside zeroFree)
  next hb =>
    cases hends : endsLine (m j) with
    | true =>
      rw [if_pos rfl]
      exact .refused (up_singleton j) ((goesOn_skip_fail (decide_eq_false hb) hends).bind _)
    | false =>
      rw [if_neg Bool.false_ne_true]
      have hnext : GoesOn [j] m (tail mallocs fuel (i + 1) p j (.gap word)) (tail mallocs fuel i p (j + 1) (.gap word)) :=
        (goesOn_skip_next (decide_eq_false hb) hends).bind _
      exact .inside (up_singleton j) hnext ⟨Nat.le_refl _, hfuel.le⟩ rfl (inside.goTo _ (Or.inl rfl) zeroFree nofun)

theorem tail_key (hfuel : i < fuel) (inside : Inside stack mallocs r p) (zeroFree : 0 ∉ word) :
    Tail stack mallocs m fuel (i + 1) j p (tail mallocs fuel (i + 1) p j (.key word)) (r.stepKey (m j) word) := by
  obtain ⟨fuel, rfl⟩ : ∃ k, fuel = k + 1 := ⟨fuel - 1, by omega⟩
  rw [Reader.stepKey]
  split
  next hb =>
    rw [← stops_iff] at hb
    have hgoes : GoesOn [j] m (tail mallocs (fuel + 1) (i + 1) p j (.key word)) (tail mallocs (fuel + 1) (fuel + 1) p j (.gap word)) :=
      (goesOn_fill_stop hb).bind _
    exact (tail_gap (Nat.lt_succ_self fuel) inside zeroFree).of_goesOn hgoes hfuel
  next hb =>
    rw [← stops_iff] at hb
    cases hends : endsLine (m j) with
    | true =>
      rw [if_pos rfl]
      exact .refused (up_singleton j) ((goesOn_fill_fail hb hends).bind _)
    | false =>
      rw [if_neg Bool.false_ne_true]
      have hnext : GoesOn [j] m (tail mallocs (fuel + 1) (i + 1) p j (.key word))
          (tail mallocs (fuel + 1) i p (j + 1) (.key (word ++ [m j]))) := by
        rw [tail, tail, ← written_snoc, List.length_append, List.length_singleton]
        exact (goesOn_fill_next hb hends).bind _
      have zeroFree' := not_mem_snoc zeroFree (ne_zero_of_endsLine hends)
      exact .inside (up_singleton j) hnext ⟨Nat.le_refl _, hfuel.le⟩ rfl (inside.goTo _ (Or.inl rfl) zeroFree' nofun)

theorem head_pair {keyName : List UInt8} (inside : Inside stack mallocs r p) (hkeyed : r.place.keyed = some keyName) (zeroFree : 0 ∉ word) :
    Head stack mallocs m (j + 1) (r.enter (.pair keyName word)) { p.valued mallocs j word with bufp := j + 1 } where
  cleared := cleared_clearTmp (written p word)
  current := by
    rw [Reader.enter, stored_snoc]
    exact inside.current
  key := nofun
  sectionEnds := inside.sectionEnds
  keyEnds := nofun
  behindKey := inside.behindKey
  behindValue k := (copyTmp_add _ k).trans (inside.behindValue k)
  cfg h := by
    have hkey := inside.key keyName (hkeyed ▸ rfl)
    have hvalue := cstr_copyTmp_held inside.cleared zeroFree inside.behindValue
    rw [Reader.enter, stored_snoc, Entry.apply, ← hkey, ← hvalue, ← inside.cfg h, ← inside.current, h]
    rfl
  zeroFree := List.not_mem_nil
  short := nofun
  atTurn := rfl
  state := rfl
  bufp := rfl
  first := nofun

theorem tail_value {keyName : List UInt8} (hfuel : i < fuel) (inside : Inside stack mallocs r p) (hkeyed : r.place.keyed = some keyName)
    (zeroFree : 0 ∉ word) : Tail stack mallocs m fuel (i + 1) j p (tail mallocs fuel (i + 1) p j (.value keyName word))
      (some (r.stepValue (m j) keyName word)) := by
  rw [Reader.stepValue]
  cases hends : endsLine (m j) with
  | true =>
    rw [if_pos rfl]
    have hgoes : GoesOn [j] m (tail mallocs fuel (i + 1) p j (.value keyName word)) (pure (p.valued mallocs j word)) :=
      (goesOn_fill_stop (Or.inl hends)).bind _
    exact .ended (up_singleton j) hgoes (head_pair inside hkeyed zeroFree)
  | false =>
    rw [if_neg Bool.false_ne_true]
    have hstop : ¬(endsLine (m j) = true ∨ none = some word.length) := by simp [hends]
    have hnext : GoesOn [j] m (tail mallocs fuel (i + 1) p j (.value keyName word))
        (tail mallocs fuel i p (j + 1) (.value keyName (word ++ [m j]))) := by
      rw [tail, tail, ← written_snoc, List.length_append, List.length_singleton]
      exact (goesOn_fill_next hstop rfl).bind _
    have zeroFree' := not_mem_snoc zeroFree (ne_zero_of_endsLine hends)
    exact .inside (up_singleton j) hnext ⟨Nat.le_refl _, hfuel.le⟩ rfl (inside.goTo _ (Or.inr hkeyed.symm) zeroFree' nofun)

theorem tail_lead {keyName : List UInt8} (hfuel : i < fuel) (inside : Inside stack mallocs r p) (hkeyed : r.place.keyed = some keyName) :
    Tail stack mallocs m fuel (i + 1) j p (tail mallocs fuel (i + 1) p j (.lead keyName)) (some (r.stepLead (m j) keyName)) := by
  obtain ⟨fuel, rfl⟩ : ∃ k, fuel = k + 1 := ⟨fuel - 1, by omega⟩
  rw [Reader.stepLead]
  split
  next hb =>
    have hnext : GoesOn [j] m (tail mallocs (fuel + 1) (i + 1) p j (.lead keyName)) (tail mallocs (fuel + 1) i p (j + 1) (.lead keyName)) :=
      (goesOn_skip_next (decide_eq_false (not_not_intro hb)) rfl).bind _
    exact .inside (up_singleton j) hnext ⟨Nat.le_refl _, hfuel.le⟩ rfl (inside.goTo _ (Or.inr hkeyed.symm) List.not_mem_nil nofun)
  next hb =>
    have hgoes : GoesOn [j] m (tail mallocs (fuel + 1) (i + 1) p j (.lead keyName))
        (tail mallocs (fuel + 1) (fuel + 1) p j (.value keyName [])) := (goesOn_skip_stop (decide_eq_true hb)).bind _
    exact (tail_value (Nat.lt_succ_self fuel) inside hkeyed List.not_mem_nil).of_goesOn hgoes hfuel

/-- In a case of the parser one byte does what it does to the reader. -/
theorem tail_step (hi : 0 < i) (hfuel : i ≤ fuel) (inside : Inside stack mallocs r p) (hinner : r.place.atTurn = false) :
    Tail stack mallocs m fuel i j p (tail mallocs fuel i p j r.place) (r.step (m j)) := by
  obtain ⟨i, rfl⟩ : ∃ k, i = k + 1 := ⟨i - 1, by omega⟩
  obtain ⟨place, entries⟩ := r
  cases place with
  | comment => exact tail_comment hfuel inside
  | name token => exact tail_name hfuel inside inside.zeroFree (inside.short token rfl)
  | key token => exact tail_key hfuel inside inside.zeroFree
  | gap token => exact tail_gap hfuel inside inside.zeroFree
  | lead keyName => exact tail_lead hfuel inside rfl
  | value keyName token => exact tail_value hfuel inside rfl inside.zeroFree
  | ready | hash | bracket | began _ | equals _ => cases hinner

end Vcmp.Ini
