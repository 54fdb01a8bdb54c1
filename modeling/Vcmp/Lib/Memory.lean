import Vcmp.Lib.ByteOrder
import Mathlib.Data.List.GetD
import Mathlib.Logic.Function.Basic

/-! Byte memory behind a pointer, and programs that load from it and store to it.

A pointer gives access to a byte at every offset: past the end of the object it points into lies
whatever memory follows. A program over such a memory keeps the offsets it touched, so that what it
computes and where it reaches are read off the same run. -/

namespace ByteMem
open ByteOrder

/-- The byte at each offset from a pointer. -/
abbrev Mem := Nat → UInt8

/-- The bytes of an object, with `past` behind its end. -/
def ofBytes (bytes : List UInt8) (past : Mem) : Mem := fun i => bytes.getD i (past (i - bytes.length))

/-- The `n` bytes from offset `i` on. -/
def slice (m : Mem) (i n : Nat) : List UInt8 := (List.range' i n).map m

section Slices
variable {m m' : Mem} {i n : Nat}

@[simp] theorem length_slice : (slice m i n).length = n := by simp [slice]

theorem slice_succ : slice m i (n + 1) = m i :: slice m (i + 1) n := by
  simp [slice, List.range'_succ]

theorem slice_congr (h : ∀ j, i ≤ j → j < i + n → m j = m' j) : slice m i n = slice m' i n := by
  unfold slice
  refine List.map_congr_left fun j hj => ?_
  rw [List.mem_range'_1] at hj
  exact h j hj.1 hj.2

theorem slice_append {k : Nat} : slice m i (n + k) = slice m i n ++ slice m (i + n) k := by
  rw [slice, ← List.range'_append_1, List.map_append]
  rfl

theorem slice_eq_append {l r : List UInt8} (h : slice m i (l.length + r.length) = l ++ r) :
    slice m i l.length = l ∧ slice m (i + l.length) r.length = r := by
  rw [slice_append] at h
  exact List.append_inj h length_slice

theorem slice_shift (m : Mem) (k i n : Nat) : slice (fun j => m (k + j)) i n = slice m (k + i) n := by
  induction n generalizing i with
  | zero => rfl
  | succ n ih => rw [slice_succ, slice_succ, ih, Nat.add_assoc]

theorem getElem?_slice {j : Nat} (h : j < n) : (slice m i n)[j]? = some (m (i + j)) := by
  simp [slice, h]

theorem mem_of_slice {l : List UInt8} (h : slice m i l.length = l) {j : Nat} (hj : j < l.length) : m (i + j) ∈ l := by
  have hget := getElem?_slice (m := m) (i := i) hj
  rw [h] at hget
  exact List.mem_of_getElem? hget

theorem drop_slice {k : Nat} (h : k ≤ n) : (slice m i n).drop k = slice m (i + k) (n - k) := by
  obtain ⟨r, rfl⟩ := Nat.exists_eq_add_of_le h
  rw [slice_append, List.drop_left' length_slice, Nat.add_sub_cancel_left]

end Slices

section OfBytes
variable {bytes l r : List UInt8} {past : Mem}

theorem ofBytes_of_lt {i : Nat} (h : i < bytes.length) : ofBytes bytes past i = bytes[i] := by
  simp [ofBytes, List.getD, h]

theorem ofBytes_of_le {i : Nat} (h : bytes.length ≤ i) : ofBytes bytes past i = past (i - bytes.length) := by
  simp [ofBytes, List.getD, h]

theorem ofBytes_append : ofBytes (l ++ r) past = ofBytes l (ofBytes r past) := by
  funext i
  rcases Nat.lt_or_ge i l.length with h | h
  · rw [ofBytes_of_lt h, ofBytes_of_lt (by rw [List.length_append]; omega), List.getElem_append_left h]
  · rw [ofBytes_of_le h]
    rcases Nat.lt_or_ge i (l ++ r).length with h' | h'
    · have hr : i - l.length < r.length := by rw [List.length_append] at h'; omega
      rw [ofBytes_of_lt h', ofBytes_of_lt hr, List.getElem_append_right h]
    · have hr : r.length ≤ i - l.length := by rw [List.length_append] at h'; omega
      rw [ofBytes_of_le h', ofBytes_of_le hr, List.length_append, Nat.sub_add_eq]

theorem slice_ofBytes {i n : Nat} (h : i + n ≤ bytes.length) :
    slice (ofBytes bytes past) i n = (bytes.drop i).take n := by
  refine List.ext_getElem? fun j => ?_
  rcases Nat.lt_or_ge j n with hj | hj
  · rw [getElem?_slice hj, ofBytes_of_lt (by omega), List.getElem?_take_of_lt hj, List.getElem?_drop,
      List.getElem?_eq_getElem]
  · rw [List.getElem?_eq_none (by simpa using hj), List.getElem?_eq_none (by simp; omega)]

theorem slice_ofBytes_self : slice (ofBytes bytes past) 0 bytes.length = bytes := by
  rw [slice_ofBytes (by omega), List.drop_zero, List.take_length]

theorem ofBytes_shift (i : Nat) : ofBytes (l ++ r) past (l.length + i) = ofBytes r past i := by
  rw [ofBytes_append, ofBytes_of_le (Nat.le_add_right _ _), Nat.add_sub_cancel_left]

theorem slice_ofBytes_append (l r t : List UInt8) (past : Mem) :
    slice (ofBytes (l ++ (r ++ t)) past) l.length r.length = r := by
  rw [slice_ofBytes (by simp only [List.length_append]; omega), List.drop_left, List.take_left]

/-- The bytes can be followed by memory such that `p` lies at their beginning if neither contradicts the other. -/
theorem exists_past_iff {p : List UInt8} : (∃ past, slice (ofBytes l past) 0 p.length = p) ↔ l <+: p ∨ p <+: l := by
  constructor
  · rintro ⟨past, h⟩
    rcases Nat.le_total l.length p.length with hle | hle
    · obtain ⟨k, hk⟩ := Nat.exists_eq_add_of_le hle
      rw [hk, slice_append, slice_ofBytes_self] at h
      exact Or.inl ⟨_, h⟩
    · rw [slice_ofBytes (by omega), List.drop_zero] at h
      exact Or.inr (h ▸ List.take_prefix _ l)
  · rintro (⟨r, rfl⟩ | ⟨r, rfl⟩)
    · refine ⟨ofBytes r fun _ => 0, ?_⟩
      rw [← ofBytes_append, slice_ofBytes_self]
    · exact ⟨fun _ => 0, slice_ofBytes_append [] p r _⟩

end OfBytes

/-- A memory with the bytes from offset `i` on replaced. -/
def put (m : Mem) (i : Nat) (bytes : List UInt8) : Mem := fun j => if i ≤ j then bytes.getD (j - i) (m j) else m j

section Put
variable {m : Mem} {i : Nat} {l r : List UInt8}

theorem put_nil : put m i [] = m := by
  funext j
  simp [put]

theorem put_cons (b : UInt8) : put (Function.update m i b) (i + 1) l = put m i (b :: l) := by
  funext j
  rcases Nat.lt_trichotomy j i with h | rfl | h
  · simp only [put]
    rw [if_neg (by omega), if_neg (by omega), Function.update_of_ne (by omega)]
  · simp [put]
  · obtain ⟨k, rfl⟩ : ∃ k, j = i + 1 + k := Nat.exists_eq_add_of_le h
    simp only [put]
    rw [if_pos (by omega), if_pos (by omega), Function.update_of_ne (by omega), Nat.add_sub_cancel_left,
      show i + 1 + k - i = k + 1 by omega, List.getD_cons_succ]

theorem put_append : put (put m i l) (i + l.length) r = put m i (l ++ r) := by
  induction l generalizing m i with
  | nil => rw [put_nil, List.length_nil, Nat.add_zero, List.nil_append]
  | cons b l ih =>
    rw [← put_cons, List.length_cons, List.cons_append, ← put_cons, show i + (l.length + 1) = i + 1 + l.length by omega,
      ih]

theorem put_put : put (put m (i + l.length) r) i l = put m i (l ++ r) := by
  funext j
  simp only [put]
  rcases Nat.lt_or_ge j i with hlt | hge
  · rw [if_neg (by omega), if_neg (by omega), if_neg (by omega)]
  rw [if_pos hge, if_pos hge]
  rcases Nat.lt_or_ge (j - i) l.length with h | h
  · rw [List.getD_append _ _ _ _ h, List.getD_eq_getElem _ _ h, List.getD_eq_getElem _ _ h]
  · rw [List.getD_append_right _ _ _ _ h, List.getD_eq_default _ _ h, if_pos (by omega), Nat.sub_add_eq]

theorem put_zero : put m 0 l = ofBytes l fun j => m (l.length + j) := by
  funext j
  rcases Nat.lt_or_ge j l.length with h | h
  · simp [put, ofBytes, h]
  · rw [ofBytes_of_le h, Nat.add_sub_cancel' h]
    simp [put, h]

theorem slice_put : slice (put m 0 l) 0 l.length = l := by
  rw [put_zero, slice_ofBytes_self]

theorem slice_put_congr {m' : Mem} {n : Nat} (h : ∀ j, l.length ≤ j → j < n → m j = m' j) :
    slice (put m 0 l) 0 n = slice (put m' 0 l) 0 n := by
  refine slice_congr fun j _ hj => ?_
  simp only [put, Nat.zero_le, if_true, Nat.sub_zero]
  rcases Nat.lt_or_ge j l.length with hlt | hge
  · rw [List.getD_eq_getElem _ _ hlt, List.getD_eq_getElem _ _ hlt]
  · rw [List.getD_eq_default _ _ hge, List.getD_eq_default _ _ hge, h j hge (by omega)]

end Put

/-! ### Programs -/

/-- A memory and the offsets touched so far, the latest first. -/
structure State where
  mem : Mem
  touched : List Nat := []

structure Prog (α : Type) where
  run : State → α × State

namespace Prog
variable {α β : Type}

instance : Monad Prog where
  pure a := ⟨fun s => (a, s)⟩
  bind x f := ⟨fun s => (f (x.run s).1).run (x.run s).2⟩

@[simp] theorem run_pure (a : α) (s : State) : (pure a : Prog α).run s = (a, s) := rfl

@[simp] theorem run_bind (x : Prog α) (f : α → Prog β) (s : State) :
    (x >>= f).run s = (f (x.run s).1).run (x.run s).2 := rfl

end Prog

def load (i : Nat) : Prog UInt8 := ⟨fun s => (s.mem i, { s with touched := i :: s.touched })⟩

def store (i : Nat) (v : UInt8) : Prog Unit :=
  ⟨fun s => ((), { mem := Function.update s.mem i v, touched := i :: s.touched })⟩

def loadBytes (i : Nat) : Nat → Prog (List UInt8)
  | 0 => pure []
  | n + 1 => do
    let b ← load i
    let rest ← loadBytes (i + 1) n
    return b :: rest

def storeBytes (i : Nat) : List UInt8 → Prog Unit
  | [] => pure ()
  | b :: rest => do
    store i b
    storeBytes (i + 1) rest

/-- `for (j = i; j < i + n; j++) body(j)` -/
def forRange (body : Nat → Prog Unit) (i : Nat) : Nat → Prog Unit
  | 0 => pure ()
  | n + 1 => do
    body i
    forRange body (i + 1) n

@[simp] theorem run_load (i : Nat) (s : State) :
    (load i).run s = (s.mem i, { s with touched := i :: s.touched }) := rfl

@[simp] theorem run_store (i : Nat) (v : UInt8) (s : State) :
    (store i v).run s = ((), { mem := Function.update s.mem i v, touched := i :: s.touched }) := rfl

@[simp] theorem run_loadBytes (i n : Nat) (s : State) :
    (loadBytes i n).run s =
      (slice s.mem i n, { s with touched := (List.range' i n).reverse ++ s.touched }) := by
  induction n generalizing i s with
  | zero => rfl
  | succ n ih => simp [loadBytes, ih, slice_succ, List.range'_succ]

@[simp] theorem run_storeBytes (i : Nat) (bytes : List UInt8) (s : State) :
    ((storeBytes i bytes).run s).2.mem = put s.mem i bytes := by
  induction bytes generalizing i s with
  | nil => exact put_nil.symm
  | cons b rest ih =>
    rw [storeBytes, Prog.run_bind, ih]
    exact put_cons b

theorem touched_storeBytes (i : Nat) (bytes : List UInt8) (s : State) :
    ((storeBytes i bytes).run s).2.touched = (List.range' i bytes.length).reverse ++ s.touched := by
  induction bytes generalizing i s with
  | nil => rfl
  | cons b rest ih => simp [storeBytes, ih, List.range'_succ]

/-- What holds at the start of a loop and is kept by each turn holds at its end. -/
theorem forRange_inv {body : Nat → Prog Unit} (I : Nat → State → Prop) {i n : Nat} {s : State} (start : I i s)
    (turn : ∀ j s, i ≤ j → j < i + n → I j s → I (j + 1) ((body j).run s).2) :
    I (i + n) ((forRange body i n).run s).2 := by
  induction n generalizing i s with
  | zero => exact start
  | succ n ih =>
    have first : I (i + 1) ((body i).run s).2 := turn i s (Nat.le_refl i) (by omega) start
    have rest := ih first fun j t hj hn => turn j t (by omega) (by omega)
    rwa [show i + 1 + n = i + (n + 1) by omega] at rest

def Within (n : Nat) (s : State) : Prop := ∀ i ∈ s.touched, i < n

end ByteMem
