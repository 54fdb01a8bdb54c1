import Vcmp.Theorems.IniCases

/-! The parser of configurations does what the reader does: one turn of its loop, then a whole text. -/

namespace Vcmp.Ini
open ByteMem CString

variable {m : Mem} {fuel i j n : Nat} {stack : Stack} {mallocs : Mallocs} {r r' : Reader} {p q : Parser} {l : List UInt8} {b : UInt8}

/-! ### One turn -/

/-- The turns of the loop that a place can take without a byte, and one more. -/
def Place.turns : Place → Nat
  | .began _ => 2
  | _ => 1

theorem Place.turns_pos (place : Place) : 1 ≤ place.turns := by
  unfold turns
  split <;> omega

theorem Place.turns_le (place : Place) : place.turns ≤ 2 := by
  unfold turns
  split <;> omega

theorem ne_began {place : Place} (inner : place.atTurn = false) (b : UInt8) : place ≠ .began b := by
  rintro rfl
  cases inner

/-- Between the first byte and the last one the reader is in places inside. -/
def Crosses (r : Reader) (l : List UInt8) : Prop := ∀ u v, l = u ++ v → u ≠ [] → v ≠ [] →
  ∀ r', Lts.run Reader.step r u = some r' → r'.place.atTurn = false

theorem crosses_nil (r : Reader) : Crosses r [] := fun _ _ h hu => absurd (List.append_eq_nil_iff.mp h.symm).1 hu

theorem crosses_singleton (r : Reader) (b : UInt8) : Crosses r [b] := by
  intro u v h hu hv
  rcases List.append_eq_singleton_iff.mp h.symm with ⟨rfl, -⟩ | ⟨-, rfl⟩
  · exact absurd rfl hu
  · exact absurd rfl hv

theorem Crosses.cons (step : r.step b = some r') (inner : r'.place.atTurn = false) (h : Crosses r' l) : Crosses r (b :: l) := by
  intro u v hsplit hu hv r'' hrun
  obtain ⟨c, u, rfl⟩ := List.exists_cons_of_ne_nil hu
  obtain ⟨rfl, rfl⟩ := List.cons.inj hsplit
  rw [Lts.run, step, Option.bind_some] at hrun
  cases u with
  | nil =>
    obtain rfl := Option.some.inj hrun
    exact inner
  | cons c u => exact h (c :: u) v rfl (List.cons_ne_nil c u) hv r'' hrun

theorem crosses_of_refused (h : r.step b = none) : Crosses r (b :: l) := by
  intro u v hsplit hu _ r' hrun
  obtain ⟨c, u, rfl⟩ := List.exists_cons_of_ne_nil hu
  obtain ⟨rfl, -⟩ := List.cons.inj hsplit
  rw [Lts.run, h] at hrun
  cases hrun

/-- What becomes of a case by the text `l` at offset `j` and the zero behind it, and of the reader. Where an equals sign begins
    a line its key is read without a further byte. -/
inductive Turn (stack : Stack) (mallocs : Mallocs) (m : Mem) (j : Nat) (l : List UInt8) (r : Reader) (x : Parse Parser) : Prop
  | refused {more : List Nat} (first : r.place ≠ .began '='.toUInt8) (run : Lts.run Reader.step r l = none) (crosses : Crosses r l)
      (goes : GoesOn more m x (throw .fail)) (bound : ∀ k ∈ more, k < j + l.length)
  | ended {more : List Nat} {q : Parser} {r' : Reader} {w rest : List UInt8} (split : l = w ++ rest) (nonempty : w ≠ [])
      (first : r.place ≠ .began '='.toUInt8) (run : Lts.run Reader.step r w = some r') (crosses : Crosses r w)
      (goes : GoesOn more m x (pure q)) (bound : ∀ k ∈ more, k < j + w.length)
      (head : Head stack mallocs m (j + w.length) r' { q with bufp := q.bufp + 1 })
  | keyless {more : List Nat} {q : Parser} (first : r.place = .began '='.toUInt8) (goes : GoesOn more m x (pure q))
      (bound : ∀ k ∈ more, k < j) (head : Head stack mallocs m j (r.goTo (.equals [])) { q with bufp := q.bufp + 1 })
  | cut {more : List Nat} {r' : Reader} (first : r.place ≠ .began '='.toUInt8) (run : Lts.run Reader.step r l = some r')
      (crosses : Crosses r l) (inner : r'.place.atTurn = false) (step : r'.step 0 = none) (goes : GoesOn more m x (throw .fail))
      (up : Up (j + l.length) more)
  | overrun {more : List Nat} {q : Parser} {r' r'' : Reader} (first : r.place ≠ .began '='.toUInt8) (run : Lts.run Reader.step r l = some r')
      (crosses : Crosses r l) (inner : r'.place.atTurn = false) (step : r'.step 0 = some r'') (goes : GoesOn more m x (pure q))
      (up : Up (j + l.length) more) (head : Head stack mallocs m (j + l.length + 1) r'' { q with bufp := q.bufp + 1 })

theorem run_keyless (h : r.place = .began '='.toUInt8) (hl : l ≠ []) :
    Lts.run Reader.step r l = Lts.run Reader.step (r.goTo (.equals [])) l := by
  obtain ⟨b, l, rfl⟩ := List.exists_cons_of_ne_nil hl
  obtain ⟨place, entries⟩ := r
  obtain rfl : place = .began '='.toUInt8 := h
  rfl

theorem Crosses.congr {r₂ : Reader} (h : ∀ u ≠ [], Lts.run Reader.step r u = Lts.run Reader.step r₂ u) (crosses : Crosses r₂ l) :
    Crosses r l := fun u v hsplit hu hv r' hrun => crosses u v hsplit hu hv r' (h u hu ▸ hrun)

theorem Turn.congr {r₂ : Reader} {x : Parse Parser} (h : ∀ u ≠ [], Lts.run Reader.step r u = Lts.run Reader.step r₂ u) (nonempty : l ≠ [])
    (inner : r₂.place.atTurn = false) (first : r.place ≠ .began '='.toUInt8) (turn : Turn stack mallocs m j l r₂ x) :
    Turn stack mallocs m j l r x := by
  cases turn with
  | refused _ run crosses goes bound => exact .refused first ((h l nonempty).trans run) (crosses.congr h) goes bound
  | ended split nonempty' _ run crosses goes bound head =>
    exact .ended split nonempty' first ((h _ nonempty').trans run) (crosses.congr h) goes bound head
  | keyless first' _ _ _ => exact absurd first' (ne_began inner _)
  | cut _ run crosses inner step goes up => exact .cut first ((h l nonempty).trans run) (crosses.congr h) inner step goes up
  | overrun _ run crosses inner step goes up head =>
    exact .overrun first ((h l nonempty).trans run) (crosses.congr h) inner step goes up head

theorem Turn.ended_one {more : List Nat} {x : Parse Parser} (first : r.place ≠ .began '='.toUInt8) (step : r.step b = some r')
    (goes : GoesOn more m x (pure q)) (bound : ∀ k ∈ more, k < j + 1)
    (head : Head stack mallocs m (j + 1) r' { q with bufp := q.bufp + 1 }) : Turn stack mallocs m j (b :: l) r x :=
  .ended (w := [b]) rfl (List.cons_ne_nil b []) first (by rw [Lts.run, step, Option.bind_some, Lts.run]) (crosses_singleton r b) goes
    bound head

theorem Turn.of_goesOn {more : List Nat} {x y : Parse Parser} (goes : GoesOn more m x y) (before : ∀ k ∈ more, k < j)
    (turn : Turn stack mallocs m j l r y) : Turn stack mallocs m j l r x := by
  have hbound {rest : List Nat} {k : Nat} (h : ∀ i ∈ rest, i < j + k) : ∀ i ∈ rest ++ more, i < j + k := by
    intro i hi
    rcases List.mem_append.mp hi with hi | hi
    · exact h i hi
    · exact (before i hi).trans_le (Nat.le_add_right j k)
  have hup {rest : List Nat} (h : Up (j + l.length) rest) : Up (j + l.length) (rest ++ more) := by
    refine ⟨List.mem_append_left more h.1, fun k hk => ?_⟩
    rcases List.mem_append.mp hk with hk | hk
    · exact h.2 k hk
    · exact (before k hk).le.trans (Nat.le_add_right j l.length)
  cases turn with
  | refused first run crosses goes' bound => exact .refused first run crosses (goes.trans goes') (hbound bound)
  | ended split nonempty first run crosses goes' bound head =>
    exact .ended split nonempty first run crosses (goes.trans goes') (hbound bound) head
  | keyless first goes' bound head => exact .keyless first (goes.trans goes') (hbound (k := 0) bound) head
  | cut first run crosses inner step goes' up => exact .cut first run crosses inner step (goes.trans goes') (hup up)
  | overrun first run crosses inner step goes' up head => exact .overrun first run crosses inner step (goes.trans goes') (hup up) head

theorem Turn.cons {x : Parse Parser} (inner : r.place.atTurn = false) (step : r.step b = some r') (inner' : r'.place.atTurn = false)
    (turn : Turn stack mallocs m (j + 1) l r' x) : Turn stack mallocs m j (b :: l) r x := by
  have hrun (u : List UInt8) : Lts.run Reader.step r (b :: u) = Lts.run Reader.step r' u := by rw [Lts.run, step, Option.bind_some]
  have hlength (u : List UInt8) : j + 1 + u.length = j + (b :: u).length := by rw [List.length_cons]; omega
  cases turn with
  | refused _ run crosses goes bound =>
    exact .refused (ne_began inner _) ((hrun l).trans run) (crosses.cons step inner') goes (hlength l ▸ bound)
  | @ended _ _ _ w _ split _ _ run crosses goes bound head =>
    exact .ended (w := b :: w) (congrArg (b :: ·) split) (List.cons_ne_nil b w) (ne_began inner _) ((hrun w).trans run)
      (crosses.cons step inner') goes (hlength w ▸ bound) (hlength w ▸ head)
  | keyless first _ _ _ => exact absurd first (ne_began inner' _)
  | cut _ run crosses inner'' step' goes up =>
    exact .cut (ne_began inner _) ((hrun l).trans run) (crosses.cons step inner') inner'' step' goes (hlength l ▸ up)
  | overrun _ run crosses inner'' step' goes up head =>
    exact .overrun (ne_began inner _) ((hrun l).trans run) (crosses.cons step inner') inner'' step' goes (hlength l ▸ up) (hlength l ▸ head)

/-- Behind a zero only a new line begins. -/
theorem step_zero (inner : r.place.atTurn = false) (h : r.step 0 = some r') : r'.place = .ready := by
  obtain ⟨place, entries⟩ := r
  cases place with
  | comment | lead _ | value _ _ =>
    obtain rfl := Option.some.inj h
    rfl
  | name token | key token =>
    simp only [Reader.step, Reader.stepOne, Reader.stepName, Reader.stepKey, Reader.stepGap] at h
    split at h
    · first
      | obtain rfl := Option.some.inj h
        rfl
      | cases h
    · cases h
  | gap token => cases h
  | ready | hash | bracket | began _ | equals _ => cases inner

theorem stepOne_lf (h : r.stepOne '\n'.toUInt8 = some r') : r'.place = .ready := by
  obtain ⟨place, entries⟩ := r
  cases place with
  | ready | hash | comment | equals _ | lead _ | value _ _ =>
    obtain rfl := Option.some.inj h
    rfl
  | began _ | bracket | gap _ => cases h
  | name token =>
    simp only [Reader.stepOne, Reader.stepName] at h
    split at h
    · obtain rfl := Option.some.inj h
      rfl
    · cases h
  | key token =>
    simp only [Reader.stepOne, Reader.stepKey] at h
    split at h <;> cases h

/-- A line feed ends a line, whatever the line is. -/
theorem step_lf (h : r.step '\n'.toUInt8 = some r') : r'.place = .ready := by
  rw [Reader.step] at h
  split at h
  · obtain ⟨r₁, -, h⟩ := Option.bind_eq_some_iff.mp h
    exact stepOne_lf h
  · exact stepOne_lf h

theorem stepName_zero (r : Reader) (token : List UInt8) :
    r.stepName 0 token = if token.length = 255 then some (r.enter (.header token)) else none := by
  have hbracket : (0 : UInt8) ≠ ']'.toUInt8 := by decide
  simp only [Reader.stepName, hbracket, false_or]
  rfl

theorem stepKey_zero (r : Reader) (token : List UInt8) : r.stepKey 0 token = none := ite_self none

theorem runsOver_iff : r.place.runsOver = true ↔ r.place.atTurn = false ∧ r.step 0 ≠ none := by
  obtain ⟨place, entries⟩ := r
  cases place with
  | comment | lead _ | value _ _ => exact iff_of_true rfl ⟨rfl, nofun⟩
  | ready | hash | bracket | began _ | equals _ => exact iff_of_false nofun nofun
  | gap token => exact iff_of_false nofun fun h => h.2 rfl
  | key token => exact iff_of_false nofun fun h => h.2 (stepKey_zero _ token)
  | name token =>
    have hstep : Reader.step ⟨.name token, entries⟩ 0 = _ := stepName_zero _ token
    rw [hstep]
    by_cases hlong : token.length = 255 <;> simp [Place.runsOver, Place.atTurn, hlong]

/-- Only where no byte of the text is refused is there a look at what lies behind it. -/
theorem tail_run (left : l.length < i) (hfuel : i ≤ fuel) (inside : Inside stack mallocs r p) (inner : r.place.atTurn = false)
    (h : slice m j l.length = l) (hend : Lts.run Reader.step r l ≠ none → m (j + l.length) = 0) :
    Turn stack mallocs m j l r (tail mallocs fuel i p j r.place) := by
  induction l generalizing i j r with
  | nil =>
    have hzero : m j = 0 := hend (Option.some_ne_none r)
    have hstep := tail_step (m := m) (j := j) (by omega) hfuel inside inner
    rw [hzero] at hstep
    generalize ho : r.step 0 = o at hstep
    cases hstep with
    | refused up goes => exact .cut (ne_began inner _) rfl (crosses_nil r) inner ho goes up
    | ended up goes head => exact .overrun (ne_began inner _) rfl (crosses_nil r) inner ho goes up head
    | inside _ _ _ inner' _ =>
      rw [step_zero inner ho] at inner'
      cases inner'
  | cons b l ih =>
    rw [List.length_cons, slice_succ] at h
    obtain ⟨hb, hl⟩ := List.cons.inj h
    have hstep := tail_step (m := m) (j := j) (by omega) hfuel inside inner
    rw [hb] at hstep
    rw [List.length_cons] at left hend
    generalize ho : r.step b = o at hstep
    cases hstep with
    | refused up goes =>
      refine .refused (ne_began inner _) (by rw [Lts.run, ho, Option.bind_none]) (crosses_of_refused ho) goes fun k hk => ?_
      exact (up.2 k hk).trans_lt (by simp)
    | ended up goes head =>
      refine .ended_one (ne_began inner _) ho goes (fun k hk => ?_) head
      exact Nat.lt_succ_of_le (up.2 k hk)
    | inside up goes left' inner' inside' =>
      rw [Lts.run, ho, Option.bind_some, Nat.add_comm l.length, ← Nat.add_assoc] at hend
      have hturn := ih (by omega) left'.2 inside' inner' hl hend
      exact (hturn.of_goesOn goes fun k hk => Nat.lt_succ_of_le (up.2 k hk)).cons inner ho inner'

theorem short_of_token {place : Place} (h : place.token = []) : ∀ token, place = .name token → token.length ≤ 255 := by
  rintro token rfl
  obtain rfl : token = [] := h
  exact Nat.zero_le 255

theorem ne_began_of_state {place : Place} (h : decide (place.state = .key) = false) (b : UInt8) : place ≠ .began b := by
  rintro rfl
  cases h

theorem Inside.head (place : Place) {state : ParserState} {bufp : Nat} (inside : Inside stack mallocs r p) (hkey : place.keyed = none)
    (htoken : place.token = []) (atTurn : place.atTurn = true) (hstate : state = place.state)
    (first : ∀ first, place = .began first → m bufp = first) : Head stack mallocs m (bufp + 1) (r.goTo place) { p with state, bufp := bufp + 1 } where
  toInside :=
    have h := inside.goTo place (Or.inl hkey) (htoken ▸ List.not_mem_nil) (short_of_token htoken)
    ⟨h.cleared, h.current, h.key, h.sectionEnds, h.keyEnds, h.behindKey, h.behindValue, h.cfg, h.zeroFree, h.short⟩
  atTurn := atTurn
  state := hstate
  bufp := rfl
  first b hb := ⟨Nat.succ_pos bufp, first b hb⟩

theorem turn_ready (fuel : Nat) (head : Head stack mallocs m j r p) (hplace : r.place = .ready) (hb : m j = b) :
    Turn stack mallocs m j (b :: l) r (parseCase mallocs fuel p) := by
  obtain rfl := head.bufp
  have hcase : parseCase mallocs fuel p = readyForData p := by rw [parseCase, head.state, hplace]; rfl
  have hload : GoesOn [p.bufp] m (readyForData p) _ := goesOn_load p.bufp _
  have hstep : r.step b = some (r.stepReady b) := by rw [Reader.step, Reader.stepOne, hplace]
  have hends {q : Parser} (goes : GoesOn [p.bufp] m (readyForData p) (pure q))
      (hhead : Head stack mallocs m (p.bufp + 1) (r.stepReady b) { q with bufp := q.bufp + 1 }) :
      Turn stack mallocs m p.bufp (b :: l) r (parseCase mallocs fuel p) := by
    rw [hcase]
    exact .ended_one (hplace ▸ ne_began_of_state rfl _) hstep goes (by simp) hhead
  rw [hb] at hload
  unfold Reader.stepReady at hends
  split_ifs at hload hends
  · exact hends hload (head.toInside.head _ rfl rfl rfl rfl fun b h => absurd h (ne_began_of_state rfl b))
  · exact hends hload (head.toInside.head _ rfl rfl rfl rfl fun b h => absurd h (ne_began_of_state rfl b))
  · refine hends hload (head.toInside.head _ rfl rfl rfl rfl ?_)
    rintro first ⟨⟩
    exact hb
  · refine hends hload (head.toInside.head .ready rfl rfl rfl ?_ fun b h => absurd h (ne_began_of_state rfl b))
    rw [head.state, hplace]

theorem step_of_stepKey {first : UInt8} (h : r.stepKey first [] = some r') : r'.step b = r'.stepOne b := by
  simp only [Reader.stepKey, Reader.stepGap] at h
  split_ifs at h <;> cases h <;> rfl

theorem stepKey_atTurn {first : UInt8} (h : r.stepKey first [] = some r') (hturn : r'.place.atTurn = true) :
    first = '='.toUInt8 ∧ r' = r.goTo (.equals []) := by
  simp only [Reader.stepKey, Reader.stepGap] at h
  split_ifs at h <;> cases h <;> first | exact ⟨by assumption, rfl⟩ | cases hturn

theorem stepKey_refused {first : UInt8} (h : r.stepKey first [] = none) : first ≠ '='.toUInt8 := by
  rintro rfl
  cases h

theorem stepKey_inner {first : UInt8} (h : r.stepKey first [] = some r') (inner : r'.place.atTurn = false) : first ≠ '='.toUInt8 := by
  rintro rfl
  obtain rfl : r.goTo (.equals []) = r' := Option.some.inj h
  cases inner

/-- A turn that goes into the case for the place behind the head. -/
theorem turn_into {place : Place} (head : Head stack mallocs m j r p) (hcase : parseCase mallocs fuel p = tail mallocs fuel fuel p p.bufp place)
    (hrun : ∀ u ≠ [], Lts.run Reader.step r u = Lts.run Reader.step (r.goTo place) u) (inner : place.atTurn = false) (nonempty : l ≠ [])
    (first : r.place ≠ .began '='.toUInt8) (hkey : place.keyed = none ∨ place.keyed = r.place.keyed) (htoken : place.token = []) (left : l.length < fuel)
    (h : slice m j l.length = l) (hend : Lts.run Reader.step r l ≠ none → m (j + l.length) = 0) :
    Turn stack mallocs m j l r (parseCase mallocs fuel p) := by
  have inside := head.toInside.goTo place hkey (htoken ▸ List.not_mem_nil) (short_of_token htoken)
  rw [hcase, head.bufp]
  rw [hrun l nonempty] at hend
  exact (tail_run left (Nat.le_refl fuel) inside inner h hend).congr hrun nonempty inner first

/-- One turn of the loop in front of a text does what the reader does. -/
theorem turn_run (fuel : Nat) (head : Head stack mallocs m j r p) (enough : l.length + r.place.turns ≤ fuel) (nonempty : l ≠ [])
    (h : slice m j l.length = l) (hend : Lts.run Reader.step r l ≠ none → m (j + l.length) = 0) :
    Turn stack mallocs m j l r (parseCase mallocs fuel p) := by
  obtain ⟨b, l', rfl⟩ := List.exists_cons_of_ne_nil nonempty
  obtain ⟨place, entries⟩ := r
  have hsame {place' : Place} (h : ∀ b, Reader.step ⟨place, entries⟩ b = Reader.step ⟨place', entries⟩ b) (u : List UInt8)
      (hu : u ≠ []) : Lts.run Reader.step ⟨place, entries⟩ u = Lts.run Reader.step ⟨place', entries⟩ u := by
    obtain ⟨c, u, rfl⟩ := List.exists_cons_of_ne_nil hu
    rw [Lts.run, Lts.run, h]
  have hstate := head.state
  have left : (b :: l').length < fuel := by
    have := place.turns_pos
    exact Nat.lt_of_lt_of_le (Nat.lt_add_of_pos_right this) enough
  cases place with
  | ready =>
    rw [List.length_cons, slice_succ] at h
    exact turn_ready fuel head rfl (List.cons.inj h).1
  | hash =>
    have hcase : parseCase mallocs fuel p = tail mallocs fuel fuel p p.bufp .comment := by rw [parseCase, hstate]; rfl
    exact turn_into head hcase (hsame fun _ => rfl) rfl nonempty (ne_began_of_state rfl _) (Or.inl rfl) rfl left h hend
  | bracket =>
    have hcase : parseCase mallocs fuel p = tail mallocs fuel fuel p p.bufp (.name []) := by rw [parseCase, hstate]; rfl
    exact turn_into head hcase (hsame fun _ => rfl) rfl nonempty (ne_began_of_state rfl _) (Or.inl rfl) rfl left h hend
  | equals keyName =>
    have hcase : parseCase mallocs fuel p = tail mallocs fuel fuel p p.bufp (.lead keyName) := by rw [parseCase, hstate]; rfl
    exact turn_into head hcase (hsame fun _ => rfl) rfl nonempty (ne_began_of_state rfl _) (Or.inr rfl) rfl left h hend
  | began first =>
    have hcase : parseCase mallocs fuel p = tail mallocs fuel fuel p (p.bufp - 1) (.key []) := by rw [parseCase, hstate]; rfl
    have enough : (b :: l').length + 2 ≤ fuel := enough
    obtain ⟨hpos, hfirst⟩ := head.first first rfl
    obtain ⟨j, rfl⟩ : ∃ k, j = k + 1 := ⟨j - 1, by omega⟩
    have inside := head.toInside.goTo (.key []) (Or.inl rfl) List.not_mem_nil (short_of_token rfl)
    have hstep : Tail stack mallocs m fuel fuel j p (tail mallocs fuel fuel p j (.key [])) (Reader.step _ (m j)) :=
      tail_step (by omega) (Nat.le_refl fuel) inside rfl
    rw [Nat.add_sub_cancel] at hfirst
    rw [hcase, head.bufp, Nat.add_sub_cancel]
    rw [hfirst] at hstep
    generalize ho : Reader.step (Reader.goTo ⟨.began first, entries⟩ (.key [])) first = o at hstep
    have hkey : Reader.stepKey ⟨.key [], entries⟩ first [] = o := ho
    have hrun (c : UInt8) : Reader.step ⟨.began first, entries⟩ c = o.bind fun r => r.stepOne c := by rw [← hkey]; rfl
    have hinto {r' : Reader} (heq : o = some r') (u : List UInt8) (hu : u ≠ []) :
        Lts.run Reader.step ⟨.began first, entries⟩ u = Lts.run Reader.step r' u := by
      obtain ⟨c, u, rfl⟩ := List.exists_cons_of_ne_nil hu
      rw [Lts.run, Lts.run, hrun, heq, Option.bind_some, step_of_stepKey (hkey.trans heq)]
    cases hstep with
    | refused up goes =>
      refine .refused (fun hfirst => stepKey_refused hkey (Place.began.inj hfirst)) ?_ (crosses_of_refused (hrun b)) goes fun k hk => ?_
      · rw [Lts.run, hrun]; rfl
      · exact (up.2 k hk).trans_lt (by omega)
    | ended up goes hhead =>
      obtain ⟨rfl, rfl⟩ := stepKey_atTurn hkey hhead.atTurn
      exact .keyless rfl goes (fun k hk => Nat.lt_succ_of_le (up.2 k hk)) hhead
    | @inside _ i' r' up goes left' inner' inside' =>
      rw [hinto rfl _ nonempty] at hend
      have hturn := tail_run (l := b :: l') (by omega) left'.2 inside' inner' h hend
      exact (hturn.of_goesOn goes fun k hk => Nat.lt_succ_of_le (up.2 k hk)).congr (hinto rfl) nonempty inner' fun hfirst =>
        stepKey_inner hkey inner' (Place.began.inj hfirst)
  | comment | name _ | key _ | gap _ | lead _ | value _ _ => cases head.atTurn

/-! ### The loop -/

/-- What becomes of the loop in front of a text that ends at offset `n`, and of the reader behind it; `fuel` turns are
    left for what lies behind the text. -/
inductive Fate (stack : Stack) (mallocs : Mallocs) (m : Mem) (n fuel : Nat) (x : Parse IniConfig) : Option Reader → Prop
  | refused {more : List Nat} (goes : GoesOn more m x (throw .fail)) (bound : ∀ k ∈ more, k < n) : Fate stack mallocs m n fuel x none
  | accepted {more : List Nat} {p : Parser} {r : Reader} (goes : GoesOn more m x (pure p.cfg)) (up : Up n more)
      (head : Head stack mallocs m n r p) : Fate stack mallocs m n fuel x (some r)
  | cut {more : List Nat} {r : Reader} (inner : r.place.atTurn = false) (step : r.step 0 = none) (goes : GoesOn more m x (throw .fail))
      (up : Up n more) : Fate stack mallocs m n fuel x (some r)
  | overrun {more : List Nat} {p : Parser} {r r' : Reader} {fuel' : Nat} (inner : r.place.atTurn = false) (step : r.step 0 = some r')
      (goes : GoesOn more m x (parseLoop mallocs fuel' p)) (up : Up n more) (head : Head stack mallocs m (n + 1) r' p)
      (left : fuel ≤ fuel') : Fate stack mallocs m n fuel x (some r)

theorem Fate.of_goesOn {more : List Nat} {x y : Parse IniConfig} {o : Option Reader} (goes : GoesOn more m x y)
    (before : ∀ k ∈ more, k < n) (fate : Fate stack mallocs m n fuel y o) : Fate stack mallocs m n fuel x o := by
  have hup {rest : List Nat} (h : Up n rest) : Up n (rest ++ more) := by
    refine ⟨List.mem_append_left more h.1, fun k hk => ?_⟩
    rcases List.mem_append.mp hk with hk | hk
    · exact h.2 k hk
    · exact (before k hk).le
  cases fate with
  | refused goes' bound =>
    refine .refused (goes.trans goes') fun k hk => ?_
    rcases List.mem_append.mp hk with hk | hk
    · exact bound k hk
    · exact before k hk
  | accepted goes' up head => exact .accepted (goes.trans goes') (hup up) head
  | cut inner step goes' up => exact .cut inner step (goes.trans goes') (hup up)
  | overrun inner step goes' up head left => exact .overrun inner step (goes.trans goes') (hup up) head left

/-- The loop does with a text what the reader does. -/
theorem parse_from (fuel rest : Nat) (head : Head stack mallocs m j r p) (enough : 2 * l.length + r.place.turns + rest ≤ fuel)
    (h : slice m j l.length = l) (hend : Lts.run Reader.step r l ≠ none → m (j + l.length) = 0) (zeroFree : 0 ∉ l) :
    Fate stack mallocs m (j + l.length) rest (parseLoop mallocs fuel p) (Lts.run Reader.step r l) := by
  induction fuel generalizing j l r p with
  | zero =>
    have := r.place.turns_pos
    omega
  | succ fuel ih =>
    obtain rfl := head.bufp
    have hload : GoesOn [p.bufp] m (parseLoop mallocs (fuel + 1) p) _ := goesOn_load p.bufp _
    cases l with
    | nil =>
      have hzero : m p.bufp = 0 := hend (Option.some_ne_none r)
      rw [if_pos hzero] at hload
      exact .accepted hload (up_singleton p.bufp) head
    | cons b l =>
      have hb : m p.bufp = b := by
        rw [List.length_cons, slice_succ] at h
        exact (List.cons.inj h).1
      have hne : b ≠ 0 := fun heq => zeroFree (heq ▸ List.mem_cons_self)
      rw [hb, if_neg hne] at hload
      have hlength : (b :: l).length = l.length + 1 := List.length_cons
      have hpos := r.place.turns_pos
      refine .of_goesOn hload (fun k hk => (List.mem_singleton.mp hk).trans_lt (by omega)) ?_
      have hbind {y : Parse Parser} {more : List Nat} (goes : GoesOn more m (parseCase mallocs fuel p) y) := goes.bind fun q =>
        parseLoop mallocs fuel { q with bufp := q.bufp + 1 }
      cases turn_run fuel head (by omega) (List.cons_ne_nil b l) h hend with
      | refused _ run _ goes bound =>
        rw [run]
        exact .refused (hbind goes) bound
      | @ended _ q r' w l' split hw _ run _ goes bound hhead =>
        rw [split, List.length_append] at enough h ⊢
        rw [split, Lts.run_append, run, Option.bind_some, List.length_append, ← Nat.add_assoc] at hend
        obtain ⟨-, hrest⟩ := slice_eq_append h
        have zeroFree' : 0 ∉ l' := fun hmem => zeroFree (split ▸ List.mem_append_right w hmem)
        have hwlength := List.length_pos_iff.mpr hw
        have hturns := r'.place.turns_le
        have hfate := ih hhead (by omega) hrest hend zeroFree'
        rw [Lts.run_append, run, Option.bind_some, ← Nat.add_assoc]
        exact hfate.of_goesOn (hbind goes) fun k hk => (bound k hk).trans_le (Nat.le_add_right _ _)
      | keyless first goes bound hhead =>
        have hturns : r.place.turns = 2 := by rw [first]; rfl
        have hequals : (r.goTo (.equals [])).place.turns = 1 := rfl
        rw [run_keyless first (List.cons_ne_nil b l)] at hend ⊢
        have hfate := ih hhead (by omega) h hend zeroFree
        exact hfate.of_goesOn (hbind goes) fun k hk => (bound k hk).trans_le (Nat.le_add_right _ _)
      | cut _ run _ inner step goes up =>
        rw [run]
        exact .cut inner step (hbind goes) up
      | overrun _ run _ inner step goes up hhead =>
        rw [run]
        exact .overrun inner step (hbind goes) up hhead (by omega)

/-! ### Whole buffers -/

theorem Text.slice_buffer (text : Text) (past : Mem) : slice (text.buffer past) 0 text.bytes.length = text.bytes :=
  slice_ofBytes_append [] text.bytes [0] past

theorem Text.buffer_end (text : Text) (past : Mem) : text.buffer past text.bytes.length = 0 :=
  ofBytes_shift (l := text.bytes) 0

theorem Text.buffer_past (text : Text) (past : Mem) (i : Nat) : text.buffer past (text.bytes.length + 1 + i) = past i := by
  have hlength : (text.bytes ++ [0]).length = text.bytes.length + 1 := by rw [List.length_append, List.length_singleton]
  rw [Text.buffer, ofBytes_of_le (by omega), hlength, Nat.add_sub_cancel_left]

/-- A second string can lie behind the first one. -/
theorem Text.slice_past (text behind : Text) (past : Mem) :
    slice (text.buffer (behind.buffer past)) (text.bytes.length + 1) behind.bytes.length = behind.bytes := by
  rw [← Nat.add_zero (text.bytes.length + 1), ← slice_shift, slice_congr fun k _ _ => text.buffer_past _ k, behind.slice_buffer]

theorem Text.past_end (text behind : Text) (past : Mem) :
    text.buffer (behind.buffer past) (text.bytes.length + 1 + behind.bytes.length) = 0 := by
  rw [text.buffer_past, behind.buffer_end]

theorem zeros_add (behind : Mem) (k : Nat) : zeros behind (256 + k) = behind k := by
  rw [zeros, ofBytes_of_le (by rw [List.length_replicate]; omega), List.length_replicate, Nat.add_sub_cancel_left]

/-- The parser when its loop begins. -/
def Parser.start (stack : Stack) : Parser :=
  ⟨.readyForData, 0, ⟨zeros stack.tmp, []⟩, zeros stack.currentSection, zeros stack.currentKey, zeros stack.currentValue, ⟨[], []⟩⟩

theorem head_start (stack : Stack) (mallocs : Mallocs) (m : Mem) : Head stack mallocs m 0 start (.start stack) where
  cleared := (ready_start stack ⟨[], []⟩).cleared
  current := (ready_start stack ⟨[], []⟩).current
  key := nofun
  sectionEnds := ⟨0, by decide, zeros_of_lt stack.currentSection (j := 0) (by decide)⟩
  keyEnds := nofun
  behindKey := zeros_add stack.currentKey
  behindValue := zeros_add stack.currentValue
  cfg _ := rfl
  zeroFree := List.not_mem_nil
  short := nofun
  atTurn := rfl
  state := rfl
  bufp := rfl
  first := nofun

/-- The parser refuses an empty buffer, and gives up where there is no memory for a configuration. -/
theorem parsebuf_refused (h : m 0 = 0 ∨ mallocs.config = false) : GoesOn [0] m (iniParsebuf stack mallocs fuel) (throw .fail) := by
  have hload : GoesOn [0] m (iniParsebuf stack mallocs fuel) _ := goesOn_load 0 _
  by_cases hfirst : m 0 = 0
  · rwa [if_pos hfirst] at hload
  · rwa [if_neg hfirst, h.resolve_left hfirst] at hload

theorem Text.buffer_empty {text : Text} (past : Mem) (h : text.bytes = []) : text.buffer past 0 = 0 := by
  have hend := text.buffer_end past
  rwa [h] at hend

/-- The parser does with a text what the reader does. -/
theorem parsebuf_fate {text : Text} (rest : Nat) (stack : Stack) (h : slice m 0 text.bytes.length = text.bytes)
    (hend : readAll text.bytes ≠ none → m text.bytes.length = 0) (nonempty : text.bytes ≠ []) (hconfig : mallocs.config = true)
    (enough : 2 * text.bytes.length + 1 + rest ≤ fuel) :
    Fate stack mallocs m text.bytes.length rest (iniParsebuf stack mallocs fuel) (readAll text.bytes) := by
  have hlength := List.length_pos_iff.mpr nonempty
  have hfirst : m 0 ≠ 0 := fun hzero => text.zeroFree (hzero ▸ mem_of_slice h hlength)
  have hload : GoesOn [0] m (iniParsebuf stack mallocs fuel) _ := goesOn_load 0 _
  rw [if_neg hfirst, hconfig] at hload
  rw [← Nat.zero_add text.bytes.length] at hend
  have hfate := parse_from fuel rest (head_start stack mallocs m) enough h hend text.zeroFree
  rw [Nat.zero_add] at hfate
  exact hfate.of_goesOn hload fun k hk => (List.mem_singleton.mp hk).trans_lt hlength

theorem buffer_fate (rest : Nat) (stack : Stack) (text : Text) (past : Mem) (nonempty : text.bytes ≠ [])
    (hconfig : mallocs.config = true) (enough : 2 * text.bytes.length + 1 + rest ≤ fuel) :
    Fate stack mallocs (text.buffer past) text.bytes.length rest (iniParsebuf stack mallocs fuel) (readAll text.bytes) :=
  parsebuf_fate rest stack (text.slice_buffer past) (fun _ => text.buffer_end past) nonempty hconfig enough

theorem nonempty_of_runsOver {text : Text} (h : text.runsOver = true) : text.bytes ≠ [] := by
  intro hempty
  rw [Text.runsOver, hempty] at h
  cases h

/-- With a second zero behind the text the loop ends there at the latest. -/
theorem Fate.ends {x : Parse IniConfig} (fate : Fate stack mallocs m n 1 x (some r)) (hzero : m (n + 1) = 0) :
    ∃ more o, n ∈ more ∧ (r.place.runsOver = true → n + 1 ∈ more) ∧ ∀ touched, x.run.run ⟨m, touched⟩ = (o, ⟨m, more ++ touched⟩) := by
  cases fate with
  | @accepted more p _ goes up head =>
    refine ⟨more, .ok p.cfg, up.1, fun hover => ?_, goes⟩
    exact absurd (head.atTurn.symm.trans (runsOver_iff.mp hover).1) nofun
  | @cut more _ inner step goes up =>
    exact ⟨more, .error .fail, up.1, fun hover => absurd step (runsOver_iff.mp hover).2, goes⟩
  | @overrun more p _ r' fuel' inner step goes up head left =>
    obtain ⟨fuel', rfl⟩ : ∃ k, fuel' = k + 1 := ⟨fuel' - 1, by omega⟩
    have hload : GoesOn [p.bufp] m (parseLoop mallocs (fuel' + 1) p) _ := goesOn_load p.bufp _
    rw [head.bufp, if_pos hzero] at hload
    exact ⟨(n + 1) :: more, .ok p.cfg, List.mem_cons_of_mem _ up.1, fun _ => List.mem_cons_self, goes.trans hload⟩

/-! ### Results -/

section Results
variable {text : Text} {past : Mem}

theorem parsebuf_ok (stack : Stack) (past : Mem) (nonempty : text.bytes ≠ []) (hread : readAll text.bytes = some r)
    (atTurn : r.place.atTurn = true) (enough : 2 * text.bytes.length + 1 ≤ fuel) :
    ((iniParsebuf stack ample fuel).run.run { mem := text.buffer past }).1 = .ok (stored stack r.entries).2 := by
  have fate := buffer_fate 0 stack text past nonempty (show ample.config = true from rfl) enough
  rw [hread] at fate
  cases fate with
  | accepted goes _ head => rw [goes.run_pure, head.cfg rfl]
  | cut inner | overrun inner => cases atTurn.symm.trans inner

theorem parsebuf_fail (stack : Stack) (mallocs : Mallocs) (past : Mem) (hread : ∀ r ∈ readAll text.bytes, r.place.atTurn = false ∧ r.place.runsOver = false)
    (enough : 2 * text.bytes.length + 1 ≤ fuel) :
    ((iniParsebuf stack mallocs fuel).run.run { mem := text.buffer past }).1 = .error .fail := by
  by_cases hrefused : text.bytes = [] ∨ mallocs.config = false
  · rw [(parsebuf_refused (hrefused.imp_left (text.buffer_empty past))).run_throw]
  obtain ⟨nonempty, hconfig⟩ := not_or.mp hrefused
  have fate := buffer_fate 0 stack text past nonempty (by simpa using hconfig) enough
  generalize readAll text.bytes = o at hread fate
  cases fate with
  | refused goes _ => rw [goes.run_throw]
  | cut _ _ goes _ => rw [goes.run_throw]
  | accepted _ _ head => cases head.atTurn.symm.trans (hread _ rfl).1
  | overrun inner step _ _ _ _ =>
    have hover := runsOver_iff.mpr ⟨inner, by rw [step]; exact Option.some_ne_none _⟩
    cases hover.symm.trans (hread _ rfl).2

end Results

end Vcmp.Ini
