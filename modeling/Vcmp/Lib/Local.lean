import Vcmp.Lib.CString

/-! Programs that see of the memory only what they touch. -/

namespace ByteMem
open CString

variable {α β : Type}

/-- Memories that agree where the program touches one of them make it do the same, and it changes nothing else. -/
structure Local (x : Prog α) : Prop where
  grows : ∀ s, ∀ i ∈ s.touched, i ∈ (x.run s).2.touched
  keeps : ∀ s i, i ∉ (x.run s).2.touched → (x.run s).2.mem i = s.mem i
  agrees : ∀ m m' t, (∀ i ∈ (x.run ⟨m, t⟩).2.touched, m i = m' i) →
    (x.run ⟨m', t⟩).1 = (x.run ⟨m, t⟩).1 ∧ (x.run ⟨m', t⟩).2.touched = (x.run ⟨m, t⟩).2.touched ∧
      ∀ i, m i = m' i → (x.run ⟨m, t⟩).2.mem i = (x.run ⟨m', t⟩).2.mem i

theorem local_pure (a : α) : Local (pure a) where
  grows _ _ hi := hi
  keeps _ _ _ := rfl
  agrees _ _ _ _ := ⟨rfl, rfl, fun _ hi => hi⟩

theorem local_load (i : Nat) : Local (load i) where
  grows _ _ hi := List.mem_cons_of_mem _ hi
  keeps _ _ _ := rfl
  agrees _ _ _ h := ⟨(h i List.mem_cons_self).symm, rfl, fun _ hi => hi⟩

theorem local_store (i : Nat) (v : UInt8) : Local (store i v) where
  grows _ _ hi := List.mem_cons_of_mem _ hi
  keeps s j hj := by
    have hne : j ≠ i := fun heq => hj (heq ▸ List.mem_cons_self)
    exact Function.update_of_ne hne v s.mem
  agrees m m' t _ := by
    refine ⟨rfl, rfl, fun j hj => ?_⟩
    simp only [run_store, Function.update_apply, hj]

theorem Local.bind {x : Prog α} {f : α → Prog β} (hx : Local x) (hf : ∀ a, Local (f a)) : Local (x >>= f) where
  grows s i hi := (hf _).grows _ i (hx.grows s i hi)
  keeps s i hi := by
    have hfirst : i ∉ (x.run s).2.touched := fun hmem => hi ((hf _).grows _ i hmem)
    exact ((hf _).keeps _ i hi).trans (hx.keeps s i hfirst)
  agrees m m' t h := by
    have hgrows := (hf (x.run ⟨m, t⟩).1).grows (x.run ⟨m, t⟩).2
    obtain ⟨hvalue, htouched, hmem⟩ := hx.agrees m m' t fun i hi => h i (hgrows i hi)
    obtain ⟨hvalue', htouched', hmem'⟩ := (hf (x.run ⟨m, t⟩).1).agrees (x.run ⟨m, t⟩).2.mem (x.run ⟨m', t⟩).2.mem
      (x.run ⟨m, t⟩).2.touched fun i hi => hmem i (h i hi)
    have hrun : (x >>= f).run ⟨m', t⟩ = (f (x.run ⟨m, t⟩).1).run ⟨(x.run ⟨m', t⟩).2.mem, (x.run ⟨m, t⟩).2.touched⟩ := by
      rw [Prog.run_bind, hvalue, ← htouched]
    rw [hrun]
    exact ⟨hvalue', htouched', fun i hi => hmem' i (hmem i hi)⟩

theorem Local.ite {c : Prop} [Decidable c] {x y : Prog α} (hx : c → Local x) (hy : ¬c → Local y) :
    Local (if c then x else y) := by
  by_cases hc : c
  · rw [if_pos hc]
    exact hx hc
  · rw [if_neg hc]
    exact hy hc

theorem local_loadBytes (i n : Nat) : Local (loadBytes i n) := by
  induction n generalizing i with
  | zero => exact local_pure []
  | succ n ih => exact (local_load i).bind fun b => (ih (i + 1)).bind fun rest => local_pure (b :: rest)

theorem local_loadString (i n : Nat) : Local (loadString i n) := by
  induction n generalizing i with
  | zero => exact local_pure []
  | succ n ih =>
    exact (local_load i).bind fun b =>
      Local.ite (fun _ => local_pure []) fun _ => (ih (i + 1)).bind fun rest => local_pure (b :: rest)

theorem local_forRange {body : Nat → Prog Unit} (h : ∀ i, Local (body i)) (i n : Nat) : Local (forRange body i n) := by
  induction n generalizing i with
  | zero => exact local_pure ()
  | succ n ih => exact (h i).bind fun _ => ih (i + 1)

/-- A program that stays below `n` does the same where only the bytes from `n` on are different, and leaves those as
    they are. -/
theorem Local.below {x : Prog α} (hx : Local x) {m m' : Mem} {n : Nat} (inside : Within n (x.run { mem := m }).2)
    (h : ∀ i, i < n → m i = m' i) :
    (x.run { mem := m' }).1 = (x.run { mem := m }).1 ∧
      (∀ i, i < n → (x.run { mem := m' }).2.mem i = (x.run { mem := m }).2.mem i) ∧
      ∀ i, n ≤ i → (x.run { mem := m' }).2.mem i = m' i := by
  obtain ⟨hvalue, htouched, hmem⟩ := hx.agrees m m' [] fun i hi => h i (inside i hi)
  refine ⟨hvalue, fun i hi => (hmem i (h i hi)).symm, fun i hi => hx.keeps _ i fun hmem' => ?_⟩
  rw [htouched] at hmem'
  exact Nat.not_le_of_lt (inside i hmem') hi

end ByteMem
