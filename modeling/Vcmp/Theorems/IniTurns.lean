import Vcmp.Theorems.IniReader

/-! What holds of every turn of the parser's loop, and where in a text the turns begin. -/

namespace Vcmp.Ini
open ByteMem CString

variable {m : Mem} {fuel j : Nat} {stack : Stack} {mallocs : Mallocs} {P : Nat → Parser → Prop}
  {Q : List UInt8 → Reader → List UInt8 → Prop} {r r' : Reader} {p : Parser} {l rest u w text : List UInt8}

/-- `P` holds of every turn of the loop: of the turns that are left behind it, and of the parser at its head. -/
def EachTurn (mallocs : Mallocs) (m : Mem) (P : Nat → Parser → Prop) : Nat → Parser → Prop
  | 0, _ => True
  | fuel + 1, p => m p.bufp ≠ 0 → P fuel p ∧ ∀ q, ((parseCase mallocs fuel p).run.run { mem := m }).1 = .ok q →
      EachTurn mallocs m P fuel { q with bufp := q.bufp + 1 }

theorem eachTurn_zero (h : m p.bufp = 0) : EachTurn mallocs m P fuel p := by
  cases fuel with
  | zero => trivial
  | succ fuel => exact fun hne => absurd h hne

theorem eachTurn_failed {more : List Nat} (h : m p.bufp ≠ 0) (goes : GoesOn more m (parseCase mallocs fuel p) (throw .fail)) :
    EachTurn mallocs m P (fuel + 1) p ↔ P fuel p := by
  refine ⟨fun hturn => (hturn h).1, fun hp _ => ⟨hp, fun q hq => ?_⟩⟩
  rw [goes.run_throw] at hq
  cases hq

theorem eachTurn_next {more : List Nat} {q : Parser} (h : m p.bufp ≠ 0) (goes : GoesOn more m (parseCase mallocs fuel p) (pure q)) :
    EachTurn mallocs m P (fuel + 1) p ↔ P fuel p ∧ EachTurn mallocs m P fuel { q with bufp := q.bufp + 1 } := by
  rw [EachTurn, goes.run_pure]
  constructor
  · exact fun hturn => ⟨(hturn h).1, (hturn h).2 q rfl⟩
  · rintro ⟨hp, hnext⟩ -
    refine ⟨hp, fun q' hq' => ?_⟩
    obtain rfl := Except.ok.inj hq'
    exact hnext

/-! ### Where turns begin -/

/-- A turn begins behind the bytes `u` with the reader at `r'`. An equals sign at the beginning of a line is the whole of a
    turn without a byte of its own. -/
def StandsAt (r : Reader) (u : List UInt8) (r' : Reader) : Prop := ∃ r₁, Lts.run Reader.step r u = some r₁ ∧ r₁.place.atTurn = true ∧
  (r' = r₁ ∨ r₁.place = .began '='.toUInt8 ∧ r' = r₁.goTo (.equals []))

/-- `Q` holds wherever a turn begins in the bytes `l`: of those since a beginning, of the reader, and of those ahead. -/
def Ahead (Q : List UInt8 → Reader → List UInt8 → Prop) (w : List UInt8) (r : Reader) (l : List UInt8) : Prop :=
  ∀ u rest r', l = u ++ rest → rest ≠ [] → StandsAt r u r' → Q (w ++ u) r' rest

theorem StandsAt.self (h : r.place.atTurn = true) : StandsAt r [] r := ⟨r, rfl, h, Or.inl rfl⟩

theorem standsAt_nil (first : r.place ≠ .began '='.toUInt8) (h : StandsAt r [] r') : r' = r := by
  obtain ⟨r₁, hrun, -, hr'⟩ := h
  obtain rfl := Option.some.inj hrun
  exact hr'.resolve_right fun h => first h.1

theorem not_standsAt (crosses : Crosses r l) (h : l = u ++ rest) (hu : u ≠ []) (hrest : rest ≠ []) : ¬StandsAt r u r' := by
  rintro ⟨r₁, hrun, hturn, -⟩
  rw [crosses u rest h hu hrest r₁ hrun] at hturn
  cases hturn

theorem standsAt_append {r₁ : Reader} (h : Lts.run Reader.step r w = some r₁) : StandsAt r (w ++ u) r' ↔ StandsAt r₁ u r' := by
  rw [StandsAt, Lts.run_append, h]
  rfl

theorem ahead_nil : Ahead Q w r [] := fun _ _ _ h hrest _ => absurd (List.append_eq_nil_iff.mp h.symm).2 hrest

/-- No turn begins in what a turn takes. -/
theorem ahead_last (atTurn : r.place.atTurn = true) (first : r.place ≠ .began '='.toUInt8) (crosses : Crosses r l) (nonempty : l ≠ []) :
    Ahead Q w r l ↔ Q w r l := by
  constructor
  · intro h
    have hfirst := h [] l r rfl nonempty (.self atTurn)
    rwa [List.append_nil] at hfirst
  · intro h u rest r' hsplit hrest hstands
    by_cases hu : u = []
    · subst hu
      obtain rfl : l = rest := hsplit
      rwa [standsAt_nil first hstands, List.append_nil]
    · exact absurd hstands (not_standsAt crosses hsplit hu hrest)

theorem ahead_ended {l' : List UInt8} {r₁ : Reader} (atTurn : r.place.atTurn = true) (first : r.place ≠ .began '='.toUInt8)
    (hu : u ≠ []) (run : Lts.run Reader.step r u = some r₁) (crosses : Crosses r u) :
    Ahead Q w r (u ++ l') ↔ Q w r (u ++ l') ∧ Ahead Q (w ++ u) r₁ l' := by
  constructor
  · intro h
    constructor
    · have hfirst := h [] (u ++ l') r rfl (fun heq => hu (List.append_eq_nil_iff.mp heq).1) (.self atTurn)
      rwa [List.append_nil] at hfirst
    · intro v rest r' hsplit hrest hstands
      have hnext := h (u ++ v) rest r' (by rw [hsplit, List.append_assoc]) hrest ((standsAt_append run).mpr hstands)
      rwa [← List.append_assoc] at hnext
  · rintro ⟨hfirst, hnext⟩ v rest r' hsplit hrest hstands
    have hbehind (x : List UInt8) (hx : v = u ++ x) (hl' : l' = x ++ rest) : Q (w ++ v) r' rest := by
      subst hx
      rw [← List.append_assoc]
      exact hnext x rest r' hl' hrest ((standsAt_append run).mp hstands)
    rcases List.append_eq_append_iff.mp hsplit with ⟨x, hv, hl'⟩ | ⟨x, hu', hrest'⟩
    · exact hbehind x hv hl'
    by_cases hx : x = []
    · subst hx
      rw [List.append_nil] at hu'
      exact hbehind [] (by rw [hu', List.append_nil]) hrest'.symm
    by_cases hv : v = []
    · subst hv
      rw [standsAt_nil first hstands, List.append_nil, ← (show u ++ l' = rest from hsplit)]
      exact hfirst
    · exact absurd hstands (not_standsAt crosses hu' hv hx)

theorem ahead_keyless (first : r.place = .began '='.toUInt8) (nonempty : l ≠ []) :
    Ahead Q w r l ↔ Q w r l ∧ Ahead Q w (r.goTo (.equals [])) l := by
  have atTurn : r.place.atTurn = true := by rw [first]; rfl
  constructor
  · intro h
    constructor
    · have hfirst := h [] l r rfl nonempty (.self atTurn)
      rwa [List.append_nil] at hfirst
    · rintro u rest r' hsplit hrest ⟨r₁, hrun, hturn, hr'⟩
      refine h u rest r' hsplit hrest ?_
      by_cases hu : u = []
      · subst hu
        obtain rfl := Option.some.inj hrun
        exact ⟨r, rfl, atTurn, Or.inr ⟨first, hr'.resolve_right fun h => nomatch h.1⟩⟩
      · exact ⟨r₁, (run_keyless first hu).trans hrun, hturn, hr'⟩
  · rintro ⟨hfirst, hnext⟩ u rest r' hsplit hrest ⟨r₁, hrun, hturn, hr'⟩
    by_cases hu : u = []
    · subst hu
      obtain rfl := Option.some.inj hrun
      obtain rfl : l = rest := hsplit
      rcases hr' with rfl | ⟨-, rfl⟩
      · rwa [List.append_nil]
      · exact hnext [] l _ rfl nonempty (.self rfl)
    · exact hnext u rest r' hsplit hrest ⟨r₁, (run_keyless first hu).symm.trans hrun, hturn, hr'⟩

/-! ### The turns over a text -/

/-- Of the turns over a text holds what holds where they begin, unless the text is run over. -/
theorem eachTurn_iff (hP : ∀ {w rest r p fuel}, text = w ++ rest → rest ≠ [] → Head stack mallocs m (j + w.length) r p →
      2 * rest.length + r.place.turns ≤ fuel + 1 →
      (∀ r', Lts.run Reader.step r rest = some r' → r'.place.runsOver = false) → (P fuel p ↔ Q w r rest))
    (hslice : slice m j text.length = text) (hend : m (j + text.length) = 0) (zeroFree : 0 ∉ text)
    (hsplit : text = w ++ l) (head : Head stack mallocs m (j + w.length) r p) (enough : 2 * l.length + r.place.turns ≤ fuel)
    (stays : ∀ r', Lts.run Reader.step r l = some r' → r'.place.runsOver = false) :
    EachTurn mallocs m P fuel p ↔ Ahead Q w r l := by
  induction fuel generalizing w r l p with
  | zero =>
    have := r.place.turns_pos
    omega
  | succ fuel ih =>
    have hlength : text.length = w.length + l.length := by rw [hsplit, List.length_append]
    have hl : slice m (j + w.length) l.length = l := by
      rw [hlength, hsplit] at hslice
      exact (slice_eq_append hslice).2
    rw [hlength, ← Nat.add_assoc] at hend
    cases hcons : l with
    | nil =>
      subst hcons
      have hzero : m p.bufp = 0 := by rw [head.bufp]; exact hend
      exact iff_of_true (eachTurn_zero hzero) ahead_nil
    | cons b l' =>
      have nonempty : l ≠ [] := hcons ▸ List.cons_ne_nil b l'
      rw [← hcons]
      have hmem : m p.bufp ∈ l := head.bufp ▸ mem_of_slice hl (List.length_pos_iff.mpr nonempty)
      have hne : m p.bufp ≠ 0 := fun hzero => zeroFree (hzero ▸ hsplit ▸ List.mem_append_right w hmem)
      have hfirst := hP hsplit nonempty head enough stays
      have hlpos := List.length_pos_iff.mpr nonempty
      cases turn_run fuel head (by omega) nonempty hl (fun _ => hend) with
      | refused first run crosses goes bound => rw [eachTurn_failed hne goes, ahead_last head.atTurn first crosses nonempty, hfirst]
      | cut first run crosses inner step goes up => rw [eachTurn_failed hne goes, ahead_last head.atTurn first crosses nonempty, hfirst]
      | overrun first run crosses inner step goes up hhead =>
        have hover := runsOver_iff.mpr ⟨inner, by rw [step]; exact Option.some_ne_none _⟩
        exact absurd (hover.symm.trans (stays _ run)) nofun
      | keyless first goes bound hhead =>
        rw [run_keyless first nonempty] at stays
        have hturns : r.place.turns = 2 := by rw [first]; rfl
        have hequals : (r.goTo (.equals [])).place.turns = 1 := rfl
        rw [eachTurn_next hne goes, ahead_keyless first nonempty, hfirst, ih hsplit hhead (by omega) stays]
      | @ended _ q r' u l'' split hu first run crosses goes bound hhead =>
        rw [split] at hfirst hsplit enough stays ⊢
        rw [Lts.run_append, run, Option.bind_some] at stays
        rw [List.length_append] at enough
        have hulength := List.length_pos_iff.mpr hu
        have hturns := r'.place.turns_le
        have hpos := r.place.turns_pos
        rw [Nat.add_assoc, ← List.length_append] at hhead
        rw [← List.append_assoc] at hsplit
        rw [eachTurn_next hne goes, ahead_ended head.atTurn first hu run crosses, hfirst, ih hsplit hhead (by omega) stays]

/-- The turns of a text that is run over go on behind the terminator. -/
theorem EachTurn.overrun (left : Nat) (h : EachTurn mallocs m P fuel p) (head : Head stack mallocs m j r p)
    (enough : 2 * l.length + r.place.turns + left ≤ fuel) (hslice : slice m j l.length = l) (hend : m (j + l.length) = 0)
    (zeroFree : 0 ∉ l) (run : Lts.run Reader.step r l = some r') (hover : r'.place.runsOver = true) :
    ∃ fuel' q r'', left ≤ fuel' ∧ r''.place = .ready ∧ Head stack mallocs m (j + l.length + 1) r'' q ∧ EachTurn mallocs m P fuel' q := by
  induction fuel generalizing j r l p with
  | zero =>
    have := r.place.turns_pos
    omega
  | succ fuel ih =>
    have nonempty : l ≠ [] := by
      rintro rfl
      obtain rfl := Option.some.inj run
      exact absurd (head.atTurn.symm.trans (runsOver_iff.mp hover).1) nofun
    have hlpos := List.length_pos_iff.mpr nonempty
    have hmem : m p.bufp ∈ l := head.bufp ▸ mem_of_slice hslice hlpos
    have hne : m p.bufp ≠ 0 := fun hzero => zeroFree (hzero ▸ hmem)
    have hpos := r.place.turns_pos
    cases turn_run fuel head (by omega) nonempty hslice (fun _ => hend) with
    | refused _ run' _ _ _ => cases run'.symm.trans run
    | cut _ run' _ _ step _ _ =>
      obtain rfl := Option.some.inj (run'.symm.trans run)
      exact absurd step (runsOver_iff.mp hover).2
    | overrun _ run' _ inner step goes _ hhead =>
      exact ⟨fuel, _, _, by omega, step_zero inner step, hhead, ((eachTurn_next hne goes).mp h).2⟩
    | keyless first goes _ hhead =>
      have hturns : r.place.turns = 2 := by rw [first]; rfl
      have hequals : (r.goTo (.equals [])).place.turns = 1 := rfl
      rw [run_keyless first nonempty] at run
      exact ih ((eachTurn_next hne goes).mp h).2 hhead (by omega) hslice hend zeroFree run
    | @ended _ q r₁ u l' split hu _ run' _ goes _ hhead =>
      subst split
      rw [Lts.run_append, run', Option.bind_some] at run
      rw [List.length_append] at hslice hend enough ⊢
      rw [← Nat.add_assoc] at hend ⊢
      have hulength := List.length_pos_iff.mpr hu
      have hturns := r₁.place.turns_le
      exact ih ((eachTurn_next hne goes).mp h).2 hhead (by omega) (slice_eq_append hslice).2 hend
        (fun hzero => zeroFree (List.mem_append_right u hzero)) run

end Vcmp.Ini
