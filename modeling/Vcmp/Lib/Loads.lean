import Vcmp.Lib.Memory

/-! What a program computes that only loads: the offsets it touches set aside. -/

namespace ByteMem
variable {α β ε : Type} {m : Mem} {a : α} {b : β} {r : Except ε β}

/-- The program gives `a` in the memory `m`, and leaves the memory as it is. -/
def Gives (x : Prog α) (m : Mem) (a : α) : Prop := ∀ touched, ∃ touched', x.run ⟨m, touched⟩ = (a, ⟨m, touched'⟩)

theorem gives_pure (a : α) : Gives (pure a) m a := fun touched => ⟨touched, rfl⟩

theorem gives_load (i : Nat) : Gives (load i) m (m i) := fun touched => ⟨i :: touched, rfl⟩

theorem Gives.bind {x : Prog α} {f : α → Prog β} (hx : Gives x m a) (hf : Gives (f a) m b) : Gives (x >>= f) m b := by
  intro touched
  obtain ⟨t₁, h₁⟩ := hx touched
  obtain ⟨t₂, h₂⟩ := hf t₁
  exact ⟨t₂, by rw [Prog.run_bind, h₁, h₂]⟩

theorem Gives.ite {c : Prop} [Decidable c] {x y : Prog α} {a a' : α} (hx : Gives x m a) (hy : Gives y m a') :
    Gives (if c then x else y) m (if c then a else a') := by
  by_cases hc : c
  · rwa [if_pos hc, if_pos hc]
  · rwa [if_neg hc, if_neg hc]

theorem Gives.value {x : Prog α} (h : Gives x m a) : (x.run { mem := m }).1 = a := by
  obtain ⟨touched, hrun⟩ := h []
  rw [hrun]

/-! ### Programs that may stop -/

/-- The program ends with `r` in the memory `m`. -/
def Ends (x : ExceptT ε Prog α) (m : Mem) (r : Except ε α) : Prop := Gives x.run m r

theorem ends_pure (a : α) : Ends (ε := ε) (pure a) m (.ok a) := gives_pure _

theorem Ends.bind {x : ExceptT ε Prog α} {f : α → ExceptT ε Prog β} (hx : Ends x m (.ok a)) (hf : Ends (f a) m r) :
    Ends (x >>= f) m r := Gives.bind hx hf

theorem ends_lift {x : Prog α} {f : α → ExceptT ε Prog β} (hx : Gives x m a) (hf : Ends (f a) m r) :
    Ends ((x : ExceptT ε Prog α) >>= f) m r :=
  Ends.bind (Gives.bind hx (gives_pure _)) hf

/-- What comes to a result comes to one in each of its two parts. -/
theorem ok_of_bind {x : Except ε α} {f : α → Except ε β} (h : (x >>= f) = .ok b) : ∃ a, x = .ok a ∧ f a = .ok b := by
  cases x with
  | error e => cases h
  | ok a => exact ⟨a, rfl, h⟩

theorem ends_except {x : Except ε α} {f : α → ExceptT ε Prog β} {g : α → Except ε β} (h : ∀ a, x = .ok a → Ends (f a) m (g a)) :
    Ends ((x : ExceptT ε Prog α) >>= f) m (x >>= g) := by
  cases x with
  | error e => exact gives_pure _
  | ok a => exact h a rfl

theorem ends_load {f : UInt8 → ExceptT ε Prog β} {i : Nat} (hf : Ends (f (m i)) m r) :
    Ends ((load i : ExceptT ε Prog UInt8) >>= f) m r := ends_lift (gives_load i) hf

end ByteMem
