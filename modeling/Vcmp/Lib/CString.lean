import Vcmp.Lib.Memory

/-! Strings of C: bytes up to the first zero. -/

namespace CString
open ByteMem

/-- No object is longer than the address space, so no string is. -/
def addressSpace : Nat := 2 ^ 64

/-- The string at offset `i`, cut off after `n` bytes. -/
def cstr (m : Mem) (i : Nat) : Nat → List UInt8
  | 0 => []
  | n + 1 => if m i = 0 then [] else m i :: cstr m (i + 1) n

/-- An array of `n` bytes holds a string. -/
def Terminated (m : Mem) (n : Nat) : Prop := ∃ i < n, m i = 0

/-- Loads the string at offset `i`, at most `n` bytes and its zero if that is among them. -/
def loadString (i : Nat) : Nat → Prog (List UInt8)
  | 0 => pure []
  | n + 1 => do
    let b ← load i
    if b = 0 then return [] else
    let rest ← loadString (i + 1) n
    return b :: rest

/-- `strncpy` of a loaded string: its bytes and then zeros, `n` bytes in all from offset `i` on. -/
def strncpy (dest : Mem) (i : Nat) (string : List UInt8) (n : Nat) : Mem := fun j =>
  if i ≤ j ∧ j < i + n then string.getD (j - i) 0 else dest j

/-! ### Strings in memory -/

section Strings
variable {m : Mem} {i n : Nat} {l : List UInt8}

/-- A string begins with the bytes that lie there, if none of them ends it. -/
theorem cstr_slice (h : slice m i l.length = l) (clean : 0 ∉ l) : cstr m i (l.length + n) = l ++ cstr m (i + l.length) n := by
  induction l generalizing i with
  | nil => simp
  | cons b l ih =>
    rw [List.length_cons, slice_succ] at h
    obtain ⟨hb, hl⟩ := List.cons.inj h
    have hne : m i ≠ 0 := fun hzero => clean (hzero ▸ hb ▸ List.mem_cons_self)
    rw [List.length_cons, Nat.add_right_comm, cstr, if_neg hne, hb,
      ih hl fun hmem => clean (List.mem_cons_of_mem b hmem), List.cons_append, Nat.add_assoc, Nat.add_comm 1]

theorem cstr_self (h : slice m i l.length = l) (clean : 0 ∉ l) : cstr m i l.length = l := by
  have hn := cstr_slice (n := 0) h clean
  rwa [Nat.add_zero, cstr, List.append_nil] at hn

theorem cstr_congr {m' : Mem} {i' : Nat} (h : ∀ k, m (i + k) = m' (i' + k)) : cstr m i n = cstr m' i' n := by
  induction n generalizing i i' with
  | zero => rfl
  | succ n ih =>
    have hrest : ∀ k, m (i + 1 + k) = m' (i' + 1 + k) := fun k => by
      have hk := h (1 + k)
      rwa [← Nat.add_assoc, ← Nat.add_assoc] at hk
    have hfirst : m i = m' i' := h 0
    rw [cstr, cstr, hfirst, ih hrest]

theorem cstr_eq_iff (clean : 0 ∉ l) (h : l.length < n) : cstr m i n = l ↔ slice m i (l.length + 1) = l ++ [0] := by
  induction l generalizing i n with
  | nil =>
    obtain ⟨n, rfl⟩ := Nat.exists_eq_add_of_lt h
    simp only [List.length_nil, Nat.zero_add, cstr, slice_succ, List.nil_append]
    by_cases hzero : m i = 0
    · simp [hzero, slice]
    · simp [hzero]
  | cons b l ih =>
    obtain ⟨n, rfl⟩ : ∃ k, n = k + 1 := ⟨n - 1, by omega⟩
    have hb : b ≠ 0 := fun hzero => clean (hzero ▸ List.mem_cons_self)
    rw [cstr, List.length_cons, slice_succ, List.cons_append, List.cons.injEq]
    rw [← ih (n := n) (fun hmem => clean (List.mem_cons_of_mem b hmem)) (by rw [List.length_cons] at h; omega)]
    by_cases hzero : m i = 0
    · rw [if_pos hzero, hzero]
      refine iff_of_false (List.cons_ne_nil b l ·.symm) fun h' => hb h'.1.symm
    · rw [if_neg hzero, List.cons.injEq]

theorem run_loadString (i n : Nat) (s : State) :
    ∃ touched, (loadString i n).run s = (cstr s.mem i n, { s with touched }) := by
  induction n generalizing i s with
  | zero => exact ⟨s.touched, rfl⟩
  | succ n ih =>
    rw [loadString, cstr, Prog.run_bind, run_load]
    by_cases hzero : s.mem i = 0
    · rw [if_pos hzero, if_pos hzero]
      exact ⟨_, rfl⟩
    · rw [if_neg hzero, if_neg hzero]
      obtain ⟨touched, hrun⟩ := ih (i + 1) { s with touched := i :: s.touched }
      exact ⟨touched, by rw [Prog.run_bind, hrun]; rfl⟩

theorem strncpy_of_lt {dest : Mem} {j : Nat} (h : j < i) : strncpy dest i l n j = dest j :=
  if_neg fun hj => Nat.not_le_of_lt h hj.1

theorem strncpy_of_le {dest : Mem} {j : Nat} (h : i + n ≤ j) : strncpy dest i l n j = dest j :=
  if_neg fun hj => Nat.not_le_of_lt hj.2 h

theorem slice_strncpy (dest : Mem) : slice (strncpy dest i l l.length) i l.length = l := by
  refine List.ext_getElem length_slice fun j hj hj' => ?_
  have hget := getElem?_slice (m := strncpy dest i l l.length) (i := i) hj'
  rw [List.getElem?_eq_getElem hj, strncpy, if_pos ⟨Nat.le_add_right i j, Nat.add_lt_add_left hj' i⟩,
    Nat.add_sub_cancel_left, List.getD_eq_getElem _ _ hj'] at hget
  exact Option.some.inj hget

/-- Nothing ends a copied string but what lies behind it. -/
theorem cstr_strncpy_iff {dest : Mem} (clean : 0 ∉ l) (h : l.length < n) :
    cstr (strncpy dest i l l.length) i n = l ↔ dest (i + l.length) = 0 := by
  rw [cstr_eq_iff clean h, slice_append, slice_strncpy, slice_succ, strncpy_of_le (Nat.le_refl _),
    List.append_cancel_left_eq]
  simp [slice]

end Strings

end CString
