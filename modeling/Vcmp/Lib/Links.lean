import Mathlib.Data.List.Chain
import Mathlib.Data.List.Nodup
import Mathlib.Logic.Function.Basic

/-! Doubly linked lists: the links of all elements, and which elements make up a list. Those of other lists and those of none
have links too. -/

/-- The two links of each element. -/
structure Links (P : Type) where
  next : P → Option P
  prev : P → Option P

namespace Links
variable {P : Type}

/-- The links of the elements of `xs` go from each to the one behind it and back. -/
structure Listed (l : Links P) (xs : List P) : Prop where
  chain : xs.IsChain fun x y => l.next x = some y ∧ l.prev y = some x
  first : ∀ x, xs.head? = some x → l.prev x = none
  last : ∀ x, xs.getLast? = some x → l.next x = none
  nodup : xs.Nodup

/-- The links of the elements of `xs` are the same in both. -/
def Agree (l l' : Links P) (xs : List P) : Prop := ∀ x ∈ xs, l'.next x = l.next x ∧ l'.prev x = l.prev x

/-- A walk that begins with the first element of `xs` meets its elements and ends. -/
def Ahead (l : Links P) : List P → Prop
  | [] => True
  | x :: xs => l.next x = xs.head? ∧ l.Ahead xs

section Reading
variable {l l' l'' : Links P} {xs ys zs : List P} {x y : P}

theorem listed_nil (l : Links P) : l.Listed [] where
  chain := .nil
  first _ h := by cases h
  last _ h := by cases h
  nodup := .nil

theorem Listed.next_eq (h : l.Listed (ys ++ x :: zs)) : l.next x = zs.head? := by
  cases zs with
  | nil => exact h.last x (by simp)
  | cons z zs => exact (List.isChain_append_cons_cons.mp h.chain).2.1.1

theorem Listed.prev_eq (h : l.Listed (ys ++ x :: zs)) : l.prev x = ys.getLast? := by
  rcases List.eq_nil_or_concat ys with rfl | ⟨ys, y, rfl⟩
  · exact h.first x rfl
  · have hchain := h.chain
    rw [List.concat_append, List.isChain_append_cons_cons] at hchain
    rw [hchain.2.1.2, List.concat_eq_append, List.getLast?_concat]

theorem Listed.ahead_append (h : l.Listed (ys ++ zs)) : l.Ahead zs := by
  induction zs generalizing ys with
  | nil => trivial
  | cons z zs ih =>
    have hnext := h.next_eq
    rw [List.append_cons] at h
    exact ⟨hnext, ih h⟩

theorem Listed.ahead (h : l.Listed xs) : l.Ahead xs := Listed.ahead_append (l := l) (List.nil_append xs ▸ h)

theorem Ahead.congr (h : l.Ahead xs) (same : Agree l l' xs) : l'.Ahead xs := by
  induction xs with
  | nil => trivial
  | cons x xs ih =>
    refine ⟨(same x List.mem_cons_self).1.trans h.1, ih h.2 fun y hy => same y (List.mem_cons_of_mem x hy)⟩

theorem Agree.symm (h : Agree l l' xs) : Agree l' l xs := fun x hx => ⟨(h x hx).1.symm, (h x hx).2.symm⟩

theorem Agree.trans (h : Agree l l' xs) (h' : Agree l' l'' xs) : Agree l l'' xs := fun x hx =>
  ⟨(h' x hx).1.trans (h x hx).1, (h' x hx).2.trans (h x hx).2⟩

/-- Only the links of the elements themselves count. -/
theorem Listed.congr (h : l.Listed xs) (same : Agree l l' xs) : l'.Listed xs where
  chain := by
    refine h.chain.imp_of_mem_imp fun x y hx hy hlink => ?_
    exact ⟨(same x hx).1.trans hlink.1, (same y hy).2.trans hlink.2⟩
  first x hx := (same x (List.mem_of_mem_head? hx)).2.trans (h.first x hx)
  last x hx := (same x (List.mem_of_mem_getLast? hx)).1.trans (h.last x hx)
  nodup := h.nodup

/-- An element without neighbours is alone. -/
theorem Listed.alone_iff (h : l.Listed xs) (hx : x ∈ xs) : l.prev x = none ∧ l.next x = none ↔ xs = [x] := by
  obtain ⟨ys, zs, rfl⟩ := List.append_of_mem hx
  rw [h.prev_eq, h.next_eq, List.getLast?_eq_none_iff, List.head?_eq_none_iff]
  constructor
  · rintro ⟨rfl, rfl⟩
    rfl
  · intro heq
    have hlength := congrArg List.length heq
    simp only [List.length_append, List.length_cons, List.length_nil] at hlength
    exact ⟨List.length_eq_zero_iff.mp (by omega), List.length_eq_zero_iff.mp (by omega)⟩

end Reading

section Updates
variable [DecidableEq P]

def setNext (l : Links P) (x : P) (y : Option P) : Links P := { l with next := Function.update l.next x y }

def setPrev (l : Links P) (x : P) (y : Option P) : Links P := { l with prev := Function.update l.prev x y }

section Set
variable {l : Links P} {x z : P} {y : Option P}

@[simp] theorem setNext_prev : (l.setNext x y).prev z = l.prev z := rfl

@[simp] theorem setPrev_next : (l.setPrev x y).next z = l.next z := rfl

@[simp] theorem setNext_next : (l.setNext x y).next z = if z = x then y else l.next z := Function.update_apply _ _ _ _

@[simp] theorem setPrev_prev : (l.setPrev x y).prev z = if z = x then y else l.prev z := Function.update_apply _ _ _ _

end Set

/-- `x` in front of the list that begins with `head`. -/
def pushFront (l : Links P) (head : Option P) (x : P) : Links P :=
  let l := (l.setNext x head).setPrev x none
  match head with
  | none => l
  | some h => l.setPrev h (some x)

/-- `x` behind the list that ends with `tail`. -/
def append (l : Links P) (tail x : P) : Links P := ((l.setNext x none).setPrev x (some tail)).setNext tail (some x)

/-- The neighbours of `x` point to each other; `x` keeps its own links. -/
def unlink (l : Links P) (x : P) : Links P :=
  let l' :=
    match l.prev x with
    | none => l
    | some p => l.setNext p (l.next x)
  match l'.next x with
  | none => l'
  | some n => l'.setPrev n (l'.prev x)

variable {l : Links P} {xs ys zs : List P} {x y : P}

theorem pushFront_next {head : Option P} : (l.pushFront head x).next y = if y = x then head else l.next y := by
  cases head <;> simp [pushFront]

theorem pushFront_prev {head : Option P} :
    (l.pushFront head x).prev y = if head = some y then some x else if y = x then none else l.prev y := by
  cases head with
  | none => simp [pushFront]
  | some h => simp [pushFront, eq_comm]

theorem append_next {tail : P} :
    (l.append tail x).next y = if y = tail then some x else if y = x then none else l.next y := by
  simp [append]

theorem append_prev {tail : P} : (l.append tail x).prev y = if y = x then some tail else l.prev y := by
  simp [append]

theorem agree_pushFront {head : Option P} (hx : x ∉ ys) (hhead : ∀ h, head = some h → h ∉ ys) :
    Agree l (l.pushFront head x) ys := by
  intro y hy
  have hyx : y ≠ x := by
    rintro rfl
    exact hx hy
  rw [pushFront_next, pushFront_prev, if_neg hyx, if_neg hyx, if_neg fun h => hhead y h hy]
  exact ⟨rfl, rfl⟩

theorem Listed.pushFront (h : l.Listed xs) (hx : x ∉ xs) : (l.pushFront xs.head? x).Listed (x :: xs) := by
  have hne {y : P} (hy : y ∈ xs) : y ≠ x := by
    rintro rfl
    exact hx hy
  refine ⟨List.isChain_cons.mpr ⟨fun y (hy : xs.head? = some y) => ?_, h.chain.imp_of_mem_imp fun y z hy hz hlink => ?_⟩, ?_, ?_, ?_⟩
  · rw [pushFront_next, pushFront_prev, if_pos rfl, if_pos hy]
    exact ⟨hy, rfl⟩
  · have hhead : xs.head? ≠ some z := by
      intro hhead
      rw [h.first z hhead] at hlink
      cases hlink.2
    rw [pushFront_next, pushFront_prev, if_neg (hne hy), if_neg (hne hz), if_neg hhead]
    exact hlink
  · intro y hy
    obtain rfl := Option.some.inj hy
    have hhead : xs.head? ≠ some x := fun hhead => hx (List.mem_of_mem_head? hhead)
    rw [pushFront_prev, if_neg hhead, if_pos rfl]
  · intro y hy
    rw [pushFront_next]
    split
    · rename_i heq
      subst heq
      cases xs with
      | nil => rfl
      | cons z xs =>
        rw [List.getLast?_cons_cons] at hy
        exact absurd (List.mem_of_mem_getLast? hy) hx
    · rename_i hyx
      cases xs with
      | nil => exact absurd (Option.some.inj hy).symm hyx
      | cons z xs =>
        rw [List.getLast?_cons_cons] at hy
        exact h.last y hy
  · exact List.nodup_cons.mpr ⟨hx, h.nodup⟩

theorem Listed.append {tail : P} (h : l.Listed xs) (htail : xs.getLast? = some tail) (hx : x ∉ xs) :
    (l.append tail x).Listed (xs ++ [x]) := by
  have hne {y : P} (hy : y ∈ xs) : y ≠ x := by
    rintro rfl
    exact hx hy
  have htx : x ≠ tail := (hne (List.mem_of_mem_getLast? htail)).symm
  refine ⟨List.isChain_append.mpr ⟨h.chain.imp_of_mem_imp fun y z hy hz hlink => ?_, .singleton x, ?_⟩, ?_, ?_, ?_⟩
  · have hyt : y ≠ tail := by
      rintro rfl
      rw [h.last y htail] at hlink
      cases hlink.1
    rw [append_next, append_prev, if_neg hyt, if_neg (hne hy), if_neg (hne hz)]
    exact hlink
  · intro y hy z hz
    obtain rfl : y = tail := Option.some.inj (hy.symm.trans htail)
    obtain rfl := Option.some.inj hz
    rw [append_next, append_prev, if_pos rfl, if_pos rfl]
    exact ⟨rfl, rfl⟩
  · intro y hy
    have hnil : xs ≠ [] := by
      rintro rfl
      cases htail
    rw [List.head?_append_of_ne_nil xs hnil] at hy
    rw [append_prev, if_neg (hne (List.mem_of_mem_head? hy))]
    exact h.first y hy
  · intro y hy
    rw [List.getLast?_concat] at hy
    obtain rfl := Option.some.inj hy
    rw [append_next, if_neg htx, if_pos rfl]
  · exact List.nodup_append.mpr ⟨h.nodup, List.nodup_singleton x, fun y hy z hz =>
      (List.mem_singleton.mp hz).symm ▸ hne hy⟩

section Unlink
variable (h : l.Listed (ys ++ x :: zs))
include h

theorem Listed.unlink_links :
    (∀ y, (l.unlink x).next y = if ys.getLast? = some y then zs.head? else l.next y) ∧
      ∀ y, (l.unlink x).prev y = if zs.head? = some y then ys.getLast? else l.prev y := by
  have hself : ys.getLast? ≠ some x := fun hlast =>
    (List.nodup_append.mp h.nodup).2.2 x (List.mem_of_mem_getLast? hlast) x List.mem_cons_self rfl
  have hprev := h.prev_eq
  have hnext := h.next_eq
  rw [unlink, hprev]
  cases hlast : ys.getLast? with
  | none =>
    simp only [hnext]
    cases hhead : zs.head? with
    | none => simp
    | some n => simp [hprev, hlast, eq_comm]
  | some p =>
    have hpx : x ≠ p := fun heq => hself (heq ▸ hlast)
    simp only [setNext_next, if_neg hpx, hnext]
    cases hhead : zs.head? with
    | none => simp [eq_comm]
    | some n => simp [hprev, hlast, eq_comm]

theorem Listed.agree_unlink {ws : List P} (apart : ∀ y ∈ ws, y ∉ ys ++ x :: zs) : Agree l (l.unlink x) ws := by
  obtain ⟨hnext, hprev⟩ := h.unlink_links
  intro y hy
  have hy' := apart y hy
  rw [List.mem_append, List.mem_cons, not_or, not_or] at hy'
  have hlast : ys.getLast? ≠ some y := fun hlast => hy'.1 (List.mem_of_mem_getLast? hlast)
  have hhead : zs.head? ≠ some y := fun hhead => hy'.2.2 (List.mem_of_mem_head? hhead)
  rw [hnext, hprev, if_neg hlast, if_neg hhead]
  exact ⟨rfl, rfl⟩

theorem Listed.unlink : (l.unlink x).Listed (ys ++ zs) := by
  obtain ⟨hnext, hprev⟩ := h.unlink_links
  obtain ⟨hys, hzs, hdisjoint⟩ := List.nodup_append.mp h.nodup
  obtain ⟨hchain, hchain', hlink⟩ := List.isChain_append.mp h.chain
  have hapart {y z : P} (hy : y ∈ ys) (hz : z ∈ zs) : y ≠ z := hdisjoint y hy z (List.mem_cons_of_mem x hz)
  have hnotLast {z : P} (hz : z ∈ zs) : ys.getLast? ≠ some z := fun hlast => hapart (List.mem_of_mem_getLast? hlast) hz rfl
  have hnotHead {y : P} (hy : y ∈ ys) : zs.head? ≠ some y := fun hhead => hapart hy (List.mem_of_mem_head? hhead) rfl
  have hbefore : ys.IsChain fun y z => (l.unlink x).next y = some z ∧ (l.unlink x).prev z = some y := by
    refine hchain.imp_of_mem_imp fun y z hy hz hyz => ?_
    have hlast : ys.getLast? ≠ some y := by
      intro hlast
      rw [(hlink y hlast x rfl).1] at hyz
      exact hdisjoint z hz x List.mem_cons_self (Option.some.inj hyz.1).symm
    rw [hnext, hprev, if_neg hlast, if_neg (hnotHead hz)]
    exact hyz
  have hbehind : zs.IsChain fun y z => (l.unlink x).next y = some z ∧ (l.unlink x).prev z = some y := by
    refine hchain'.tail.imp_of_mem_imp fun y z hy hz hyz => ?_
    have hhead : zs.head? ≠ some z := by
      intro hhead
      have hx := (List.isChain_cons.mp hchain').1 z hhead
      rw [hx.2] at hyz
      exact (List.nodup_cons.mp hzs).1 (Option.some.inj hyz.2 ▸ hy)
    rw [hnext, hprev, if_neg (hnotLast hy), if_neg hhead]
    exact hyz
  refine ⟨List.isChain_append.mpr ⟨hbefore, hbehind, ?_⟩, fun y hy => ?_, fun y hy => ?_, ?_⟩
  · intro y (hy : ys.getLast? = some y) z (hz : zs.head? = some z)
    rw [hnext, hprev, if_pos hy, if_pos hz]
    exact ⟨hz, hy⟩
  · rw [hprev]
    cases ys with
    | nil => exact if_pos hy
    | cons z ys =>
      have hmem : y ∈ z :: ys := List.mem_of_mem_head? hy
      rw [if_neg (hnotHead hmem)]
      exact h.first y hy
  · rw [hnext]
    cases zs with
    | nil =>
      rw [List.append_nil] at hy
      exact if_pos hy
    | cons z zs =>
      rw [List.getLast?_append_cons] at hy
      rw [if_neg (hnotLast (List.mem_of_mem_getLast? hy))]
      refine h.last y ?_
      rwa [List.getLast?_append_cons, List.getLast?_cons_cons]
  · exact List.nodup_append.mpr ⟨hys, (List.nodup_cons.mp hzs).2, fun y hy z hz => hapart hy hz⟩

end Unlink
end Updates
end Links
