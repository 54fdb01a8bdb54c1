import Vcmp.Theorems.IniTurns
import Mathlib.Data.List.TakeWhile

/-! Where the turns of the parser of configurations store, and the values they store. -/

namespace Vcmp.Ini
open ByteMem CString

variable {m : Mem} {stop fails : UInt8 → Bool} {limit : Option Nat} {fuel bufp i j n : Nat} {tmp s t : State} {stack : Stack}
  {mallocs : Mallocs} {r : Reader} {p q : Parser} {l rest : List UInt8}

/-! ### The stores of a turn -/

/-- The indices at which `fill` stores, whether it stops or fails. -/
def fillStores (stop : UInt8 → Bool) (limit : Option Nat) (fails : UInt8 → Bool) (m : Mem) : Nat → Nat → Nat → List Nat
  | 0, _, _ => []
  | fuel + 1, bufp, i =>
    if stop (m bufp) ∨ limit = some i then []
    else if fails (m bufp) then []
    else i :: fillStores stop limit fails m fuel (bufp + 1) (i + 1)

/-- Where `skip` stops that does not fail. -/
def skipTo (stop : UInt8 → Bool) (m : Mem) : Nat → Nat → Nat
  | 0, bufp => bufp
  | fuel + 1, bufp => if stop (m bufp) then bufp else skipTo stop m fuel (bufp + 1)

/-- The indices at which a turn stores to `tmp`, those of a turn that fails included; `memset` is not counted. -/
def tmpStores (m : Mem) (fuel : Nat) (p : Parser) : List Nat :=
  match p.state with
  | .readyForData | .comment => []
  | .sectionName => fillStores (· = ']'.toUInt8) (some 255) endsLine m fuel p.bufp 0
  | .key =>
    fillStores (fun b => b = ' '.toUInt8 ∨ b = '\t'.toUInt8 ∨ b = '='.toUInt8) (some 256) endsLine m fuel (p.bufp - 1) 0
  | .value =>
    fillStores endsLine none (fun _ => false) m fuel
      (skipTo (fun b => ¬(b = ' '.toUInt8 ∨ b = '\t'.toUInt8)) m fuel p.bufp) 0

/-- What `fill` touched in `tmp` where it stops. -/
theorem touched_fill {tmp' : State} {bufp' : Nat}
    (h : (fill stop limit fails fuel bufp i tmp).run.run s = (.ok (bufp', tmp'), t)) :
    tmp'.touched = (fillStores stop limit fails s.mem fuel bufp i).reverse ++ tmp.touched := by
  induction fuel generalizing bufp i tmp s with
  | zero => cases h
  | succ fuel ih =>
    have hload : GoesOn [bufp] s.mem (fill stop limit fails (fuel + 1) bufp i tmp) _ := goesOn_load bufp _
    rw [hload s.touched] at h
    rw [fillStores]
    split_ifs at h ⊢
    · obtain ⟨-, rfl⟩ := Prod.mk.inj (Except.ok.inj (Prod.mk.inj h).1)
      rfl
    · cases h
    · rw [ih h, List.reverse_cons, List.append_assoc]
      rfl

/-- `skip` leaves the memory as it is, and without bytes that fail it stops where `skipTo` does. -/
theorem skip_eq_ok {bufp' : Nat} (h : (skip stop (fun _ => false) fuel bufp).run.run s = (.ok bufp', t)) :
    bufp' = skipTo stop s.mem fuel bufp ∧ t.mem = s.mem := by
  induction fuel generalizing bufp s with
  | zero => cases h
  | succ fuel ih =>
    have hload : GoesOn [bufp] s.mem (skip stop (fun _ => false) (fuel + 1) bufp) _ := goesOn_load bufp _
    rw [hload s.touched, if_neg (show ¬(false = true) from Bool.false_ne_true)] at h
    rw [skipTo]
    split_ifs at h ⊢
    · obtain ⟨hbufp, rfl⟩ := Prod.mk.inj h
      exact ⟨(Except.ok.inj hbufp).symm, rfl⟩
    · obtain ⟨hstop, hmem⟩ := ih h
      exact ⟨hstop, hmem⟩

/-- What `memset` touches. -/
theorem touched_clearTmp (tmp : State) : (clearTmp tmp).touched = (List.range' 0 256).reverse ++ tmp.touched := by
  rw [clearTmp, touched_storeBytes, List.length_replicate]

/-- A turn that goes on touches in `tmp` what it stores, and behind that what `memset` clears, which is inside of the array. -/
theorem touched_turn (h : (parseCase mallocs fuel p).run.run s = (.ok q, t)) : ∃ cleared,
    q.tmp.touched = cleared ++ ((tmpStores s.mem fuel p).reverse ++ p.tmp.touched) ∧ ∀ i ∈ cleared, i < 256 := by
  have hinside : ∀ i ∈ (List.range' 0 256).reverse, i < 256 := fun i hi => (List.mem_range'_1.mp (List.mem_reverse.mp hi)).2
  unfold parseCase at h
  unfold tmpStores
  cases hstate : p.state <;> simp only [hstate] at h ⊢
  case readyForData =>
    obtain ⟨b, s', -, h⟩ := bind_eq_ok h
    refine ⟨[], ?_, List.forall_mem_nil _⟩
    split_ifs at h <;> obtain rfl := Except.ok.inj (Prod.mk.inj h).1 <;> rfl
  case comment =>
    obtain ⟨bufp, s', -, h⟩ := bind_eq_ok h
    obtain rfl := Except.ok.inj (Prod.mk.inj h).1
    exact ⟨[], rfl, List.forall_mem_nil _⟩
  case sectionName =>
    obtain ⟨⟨bufp, tmp⟩, s', hfill, h⟩ := bind_eq_ok h
    obtain rfl := Except.ok.inj (Prod.mk.inj h).1
    exact ⟨_, by rw [touched_clearTmp, touched_fill hfill], hinside⟩
  case key =>
    obtain ⟨⟨bufp, tmp⟩, s', hfill, h⟩ := bind_eq_ok h
    obtain ⟨bufp', s', -, h⟩ := bind_eq_ok h
    obtain rfl := Except.ok.inj (Prod.mk.inj h).1
    exact ⟨_, by rw [touched_clearTmp, touched_fill hfill], hinside⟩
  case value =>
    obtain ⟨bufp, s', hskip, h⟩ := bind_eq_ok h
    obtain ⟨rfl, hmem⟩ := skip_eq_ok hskip
    obtain ⟨⟨bufp', tmp⟩, s', hfill, h⟩ := bind_eq_ok h
    obtain rfl := Except.ok.inj (Prod.mk.inj h).1
    exact ⟨_, by rw [touched_clearTmp, touched_fill hfill, hmem], hinside⟩
/-- With a limit the stores stay below it. -/
theorem fillStores_limit (h : i ≤ n) : ∀ k ∈ fillStores stop (some n) fails m fuel bufp i, k < n := by
  induction fuel generalizing bufp i with
  | zero => exact nofun
  | succ fuel ih =>
    intro k hk
    rw [fillStores] at hk
    split_ifs at hk with hstop
    · cases hk
    · cases hk
    have hne : n ≠ i := fun heq => hstop (Or.inr (congrArg some heq))
    rcases List.mem_cons.mp hk with rfl | hk
    · omega
    · exact ih (by omega) k hk

theorem fillStores_eq (h : slice m bufp l.length = l) (hstop : stop (m (bufp + l.length)) = true) (clean : ∀ b ∈ l, stop b = false)
    (enough : l.length < fuel) : fillStores stop none (fun _ => false) m fuel bufp i = List.range' i l.length := by
  have hfill : Ends (fill stop none (fun _ => false) fuel bufp i { mem := m }) m _ :=
    ends_fill h hstop (fun b hb => ⟨clean b hb, rfl⟩) (fun n hn => by cases hn) enough
  obtain ⟨touched, hrun⟩ := hfill []
  have hstores := touched_fill hrun
  rw [touched_storeBytes, List.append_nil, List.append_nil] at hstores
  exact (List.reverse_injective hstores).symm

theorem skipTo_eq (h : slice m bufp l.length = l) (hstop : stop (m (bufp + l.length)) = true) (clean : ∀ b ∈ l, stop b = false)
    (enough : l.length < fuel) : skipTo stop m fuel bufp = bufp + l.length := by
  have hskip : Ends (skip stop (fun _ => false) fuel bufp) m _ := ends_skip h hstop (fun b hb => ⟨clean b hb, rfl⟩) enough
  obtain ⟨touched, hrun⟩ := hskip []
  exact (skip_eq_ok hrun).1.symm

/-! ### Values -/

def blank (b : UInt8) : Bool := b = ' '.toUInt8 ∨ b = '\t'.toUInt8

/-- The value that the bytes behind an equals sign begin with. -/
def valueAhead (rest : List UInt8) : List UInt8 := (rest.dropWhile blank).takeWhile fun b => !endsLine b

theorem slice_takeWhile (f : UInt8 → Bool) (h : slice m j l.length = l) : slice m j (l.takeWhile f).length = l.takeWhile f ∧
    slice m (j + (l.takeWhile f).length) (l.dropWhile f).length = l.dropWhile f := by
  have hl : l.takeWhile f ++ l.dropWhile f = l := List.takeWhile_append_dropWhile
  refine slice_eq_append ?_
  rw [← List.length_append, hl, h]

theorem length_takeWhile_add (f : UInt8 → Bool) (l : List UInt8) : (l.takeWhile f).length + (l.dropWhile f).length = l.length := by
  rw [← List.length_append, List.takeWhile_append_dropWhile]

/-- The byte that ends a run of bytes, in the text or behind it. -/
theorem ends_takeWhile {f : UInt8 → Bool} (h : slice m j l.length = l) (hend : m (j + l.length) = 0) (hzero : f 0 = false) :
    f (m (j + (l.takeWhile f).length)) = false := by
  induction l generalizing j with
  | nil =>
    have hj : m j = 0 := hend
    rw [List.takeWhile_nil, List.length_nil, Nat.add_zero, hj, hzero]
  | cons b l ih =>
    rw [List.length_cons] at h hend
    rw [slice_succ] at h
    obtain ⟨hb, hl⟩ := List.cons.inj h
    cases hf : f b with
    | false => rw [List.takeWhile_cons_of_neg (by rw [hf]; exact Bool.false_ne_true), List.length_nil, Nat.add_zero, hb, hf]
    | true =>
      rw [List.takeWhile_cons_of_pos hf, List.length_cons, Nat.add_comm _ 1, ← Nat.add_assoc]
      exact ih hl (by rwa [Nat.add_assoc, Nat.add_comm 1])

/-- The turn behind an equals sign stores the value ahead byte by byte, copies and assigns it. -/
theorem value_turn {keyName : List UInt8} (head : Head stack mallocs m j r p) (hplace : r.place = .equals keyName)
    (h : slice m j rest.length = rest) (hend : m (j + rest.length) = 0) (enough : rest.length < fuel) :
    tmpStores m fuel p = List.range' 0 (valueAhead rest).length ∧
      ∃ bufp, ((parseCase mallocs fuel p).run.run { mem := m }).1 = .ok (p.valued mallocs bufp (valueAhead rest)) := by
  have hstate : p.state = .value := by rw [head.state, hplace]; rfl
  obtain rfl := head.bufp
  obtain ⟨hblanks, hbehind⟩ := slice_takeWhile blank h
  have hlength := length_takeWhile_add blank rest
  have hend' : m (p.bufp + (rest.takeWhile blank).length + (rest.dropWhile blank).length) = 0 := by rwa [Nat.add_assoc, hlength]
  obtain ⟨hvalue, -⟩ := slice_takeWhile (fun b => !endsLine b) hbehind
  have hlength' := length_takeWhile_add (fun b => !endsLine b) (rest.dropWhile blank)
  have hfirst : (decide ¬(m (p.bufp + (rest.takeWhile blank).length) = ' '.toUInt8 ∨
      m (p.bufp + (rest.takeWhile blank).length) = '\t'.toUInt8)) = true :=
    decide_eq_true (of_decide_eq_false (ends_takeWhile (f := blank) h hend rfl))
  have hlast : endsLine (m (p.bufp + (rest.takeWhile blank).length + (valueAhead rest).length)) = true := by
    have hends := ends_takeWhile (f := fun b => !endsLine b) hbehind hend' rfl
    rwa [Bool.not_eq_false'] at hends
  have hskipped : ∀ b ∈ rest.takeWhile blank, (decide ¬(b = ' '.toUInt8 ∨ b = '\t'.toUInt8)) = false := by
    intro b hb
    have hblank := List.mem_takeWhile_imp hb
    rw [blank, decide_eq_true_iff] at hblank
    exact decide_eq_false (not_not_intro hblank)
  have hstored : ∀ b ∈ valueAhead rest, endsLine b = false := by
    intro b hb
    have hends := List.mem_takeWhile_imp hb
    rwa [Bool.not_eq_true'] at hends
  have hvalueLength : (valueAhead rest).length ≤ (rest.dropWhile blank).length := by
    rw [← hlength']
    exact Nat.le_add_right _ _
  have hvalue : slice m (p.bufp + (rest.takeWhile blank).length) (valueAhead rest).length = valueAhead rest := hvalue
  constructor
  · rw [tmpStores, hstate]
    simp only
    rw [skipTo_eq hblanks hfirst hskipped (by omega), fillStores_eq hvalue hlast hstored (by omega)]
  · have hskip : Ends (skip (fun b => ¬(b = ' '.toUInt8 ∨ b = '\t'.toUInt8)) (fun _ => false) fuel p.bufp) m _ :=
      ends_skip hblanks hfirst (fun b hb => ⟨hskipped b hb, rfl⟩) (by omega)
    have hfill : Ends (fill endsLine none (fun _ => false) fuel (p.bufp + (rest.takeWhile blank).length) 0 p.tmp) m _ :=
      ends_fill hvalue hlast (fun b hb => ⟨hstored b hb, rfl⟩) (fun n hn => by cases hn) (by omega)
    have hrun : Ends (value mallocs fuel p) m
        (.ok (p.valued mallocs (p.bufp + (rest.takeWhile blank).length + (valueAhead rest).length) (valueAhead rest))) :=
      hskip.bind (hfill.bind (ends_pure _))
    have hcase : parseCase mallocs fuel p = value mallocs fuel p := by rw [parseCase, hstate]
    rw [hcase]
    exact ⟨_, Gives.value hrun⟩

end Vcmp.Ini
