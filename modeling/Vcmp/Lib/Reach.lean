import Vcmp.Lib.Loads
import Vcmp.Lib.Local

/-! How far a program reaches that only loads. -/

namespace ByteMem
open CString

variable {α β : Type} {m : Mem} {n : Nat} {a : α} {b : β} {p q : Prop}

/-- The program gives `a` in the memory `m`, leaves the memory as it is, and stays below `n` exactly if `p` holds. -/
def Reaches (n : Nat) (x : Prog α) (m : Mem) (a : α) (p : Prop) : Prop :=
  ∀ touched, ∃ touched', x.run ⟨m, touched⟩ = (a, ⟨m, touched'⟩) ∧ ((∀ i ∈ touched', i < n) ↔ (∀ i ∈ touched, i < n) ∧ p)

theorem reaches_pure (a : α) : Reaches n (pure a) m a True := fun touched => ⟨touched, rfl, (and_iff_left trivial).symm⟩

theorem reaches_load (i : Nat) : Reaches n (load i) m (m i) (i < n) := fun touched =>
  ⟨i :: touched, rfl, by rw [List.forall_mem_cons, and_comm]⟩

theorem Reaches.bind {x : Prog α} {f : α → Prog β} (hx : Reaches n x m a p) (hf : Reaches n (f a) m b q) :
    Reaches n (x >>= f) m b (p ∧ q) := by
  intro touched
  obtain ⟨t₁, h₁, hp⟩ := hx touched
  obtain ⟨t₂, h₂, hq⟩ := hf t₁
  exact ⟨t₂, by rw [Prog.run_bind, h₁, h₂], by rw [hq, hp, and_assoc]⟩

theorem Reaches.ite {c : Prop} [Decidable c] {x y : Prog α} {a' : α} (hx : Reaches n x m a p) (hy : Reaches n y m a' q) :
    Reaches n (if c then x else y) m (if c then a else a') ((c → p) ∧ (¬c → q)) := by
  by_cases hc : c
  · rw [if_pos hc, if_pos hc, eq_true hc]
    simpa using hx
  · rw [if_neg hc, if_neg hc, eq_false hc]
    simpa using hy

theorem Reaches.congr {x : Prog α} (hx : Reaches n x m a p) (h : p ↔ q) : Reaches n x m a q := by
  rwa [← propext h]

theorem Reaches.gives {x : Prog α} (hx : Reaches n x m a p) : Gives x m a := by
  intro touched
  obtain ⟨touched', hrun, -⟩ := hx touched
  exact ⟨touched', hrun⟩

theorem reaches_loadBytes (i k : Nat) : Reaches n (loadBytes i k) m (slice m i k) (k = 0 ∨ i + k ≤ n) := by
  induction k generalizing i with
  | zero => exact (reaches_pure []).congr (by simp)
  | succ k ih =>
    rw [slice_succ]
    refine ((reaches_load i).bind ((ih (i + 1)).bind (reaches_pure (m i :: slice m (i + 1) k)))).congr ?_
    rw [and_iff_left trivial]
    omega

/-- A string ends with its bound, or with a zero. -/
theorem reaches_loadString (i k : Nat) :
    Reaches n (loadString i k) m (cstr m i k) (k = 0 ∨ i + k ≤ n ∨ ∃ j, i ≤ j ∧ j < n ∧ m j = 0) := by
  induction k generalizing i with
  | zero => exact (reaches_pure []).congr (by simp)
  | succ k ih =>
    rw [cstr]
    refine ((reaches_load i).bind ((reaches_pure []).ite ((ih (i + 1)).bind (reaches_pure (m i :: cstr m (i + 1) k))))).congr ?_
    constructor
    · rintro ⟨hi, -, hrest⟩
      by_cases hzero : m i = 0
      · exact Or.inr (Or.inr ⟨i, Nat.le_refl i, hi, hzero⟩)
      · obtain ⟨h | h | ⟨j, hij, hjn, hj⟩, -⟩ := hrest hzero
        · exact Or.inr (Or.inl (by omega))
        · exact Or.inr (Or.inl (by omega))
        · exact Or.inr (Or.inr ⟨j, by omega, hjn, hj⟩)
    · rintro (h | h | ⟨j, hij, hjn, hj⟩)
      · exact absurd h (Nat.succ_ne_zero k)
      · exact ⟨by omega, fun _ => trivial, fun _ => ⟨Or.inr (Or.inl (by omega)), trivial⟩⟩
      · refine ⟨by omega, fun _ => trivial, fun hzero => ⟨Or.inr (Or.inr ⟨j, ?_, hjn, hj⟩), trivial⟩⟩
        have hne : i ≠ j := fun heq => hzero (heq ▸ hj)
        omega

/-! ### Whatever is computed -/

def Stays (n : Nat) (x : Prog α) (m : Mem) (p : Prop) : Prop := ∃ a, Reaches n x m a p

theorem stays_pure (a : α) : Stays n (pure a) m True := ⟨a, reaches_pure a⟩

theorem Reaches.stays {x : Prog α} {f : α → Prog β} (hx : Reaches n x m a p) (hf : Stays n (f a) m q) :
    Stays n (x >>= f) m (p ∧ q) := by
  obtain ⟨b, hb⟩ := hf
  exact ⟨b, hx.bind hb⟩

/-- A load behind the bound is not undone. -/
theorem stays_load_out {f : UInt8 → Prog β} {i : Nat} (hi : n ≤ i) (hf : ∀ b, Local (f b)) (hb : Gives (load i >>= f) m b) :
    Stays n (load i >>= f) m False := by
  refine ⟨b, fun touched => ?_⟩
  obtain ⟨touched', hrun⟩ := hb touched
  have hgrows := (hf (m i)).grows ⟨m, i :: touched⟩ i List.mem_cons_self
  rw [Prog.run_bind, run_load] at hrun
  rw [hrun] at hgrows
  exact ⟨touched', hrun, iff_of_false (fun h => Nat.not_lt_of_le hi (h i hgrows)) And.right⟩

theorem Stays.bind {x : Prog α} {f : α → Prog β} (hx : Stays n x m p) (hf : ∀ a, Stays n (f a) m True) :
    Stays n (x >>= f) m p := by
  obtain ⟨a, ha⟩ := hx
  obtain ⟨b, hb⟩ := hf a
  exact ⟨b, (ha.bind hb).congr (and_iff_left trivial)⟩

theorem Stays.ite {c : Prop} [Decidable c] {x y : Prog α} (hx : Stays n x m p) (hy : Stays n y m q) :
    Stays n (if c then x else y) m ((c → p) ∧ (¬c → q)) := by
  obtain ⟨a, ha⟩ := hx
  obtain ⟨b, hb⟩ := hy
  exact ⟨_, ha.ite hb⟩

theorem Stays.congr {x : Prog α} (hx : Stays n x m p) (h : p ↔ q) : Stays n x m q := by
  rwa [← propext h]

theorem Stays.reaches {x : Prog α} (hx : Stays n x m p) (ha : Gives x m a) : Reaches n x m a p := by
  obtain ⟨b, hb⟩ := hx
  intro touched
  obtain ⟨t₁, h₁, hp⟩ := hb touched
  obtain ⟨t₂, h₂⟩ := ha touched
  obtain ⟨hvalue, -⟩ := Prod.mk.inj (h₁.symm.trans h₂)
  exact ⟨t₁, hvalue ▸ h₁, hp⟩

theorem Stays.within {x : Prog α} (hx : Stays n x m p) : Within n (x.run { mem := m }).2 ↔ p := by
  obtain ⟨a, touched, hrun, hp⟩ : ∃ a, ∃ touched, x.run { mem := m } = (a, ⟨m, touched⟩) ∧ _ :=
    hx.imp fun a ha => ha []
  rw [hrun, Within, hp]
  exact and_iff_right (List.forall_mem_nil _)

end ByteMem
