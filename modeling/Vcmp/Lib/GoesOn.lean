import Vcmp.Lib.Loads

/-! Programs that go on as others do, once they have loaded some bytes. -/

namespace ByteMem
variable {α β ε : Type} {m : Mem} {more rest : List Nat} {x y z : ExceptT ε Prog α} {r : Except ε α}

/-- In the memory `m` the program `x` loads the offsets `more`, the latest first, and then does what `y` does. -/
def GoesOn (more : List Nat) (m : Mem) (x y : ExceptT ε Prog α) : Prop :=
  ∀ touched, x.run.run ⟨m, touched⟩ = y.run.run ⟨m, more ++ touched⟩

theorem GoesOn.refl (m : Mem) (x : ExceptT ε Prog α) : GoesOn [] m x x := fun _ => rfl

theorem GoesOn.trans (hx : GoesOn more m x y) (hy : GoesOn rest m y z) : GoesOn (rest ++ more) m x z := by
  intro touched
  rw [hx touched, hy (more ++ touched), List.append_assoc]

theorem goesOn_load (i : Nat) (f : UInt8 → ExceptT ε Prog β) :
    GoesOn [i] m ((load i : ExceptT ε Prog UInt8) >>= f) (f (m i)) := fun _ => rfl

theorem GoesOn.bind (h : GoesOn more m x y) (f : α → ExceptT ε Prog β) : GoesOn more m (x >>= f) (y >>= f) := by
  intro touched
  have hrun := h touched
  simp only [ExceptT.run_bind, Prog.run_bind, hrun]

theorem GoesOn.ends (h : GoesOn more m x y) (hy : Ends y m r) : Ends x m r := by
  intro touched
  obtain ⟨touched', hrun⟩ := hy (more ++ touched)
  exact ⟨touched', (h touched).trans hrun⟩

/-- What a program that comes to its result computes and touches. -/
theorem GoesOn.run_pure {a : α} (h : GoesOn more m x (pure a)) : x.run.run { mem := m } = (.ok a, ⟨m, more⟩) := by
  have hrun := h []
  rwa [List.append_nil] at hrun

theorem GoesOn.run_throw {e : ε} (h : GoesOn more m x (throw e)) : x.run.run { mem := m } = (.error e, ⟨m, more⟩) := by
  have hrun := h []
  rwa [List.append_nil] at hrun

/-- A program that comes to a result comes to one in each of its two parts. -/
theorem bind_eq_ok {x : ExceptT ε Prog α} {f : α → ExceptT ε Prog β} {s t : State} {b : β} (h : (x >>= f).run.run s = (.ok b, t)) :
    ∃ a s', x.run.run s = (.ok a, s') ∧ (f a).run.run s' = (.ok b, t) := by
  simp only [ExceptT.run_bind, Prog.run_bind] at h
  generalize x.run.run s = r at h ⊢
  obtain ⟨a | a, s'⟩ := r
  · cases h
  · exact ⟨a, s', rfl, h⟩

end ByteMem
