import Mathlib.Logic.Basic

/-! Deterministic machines driven by events: `step s e` is the state after event `e`, or nothing where the
    machine does not take `e`. What holds along every run follows from what one step keeps. -/

namespace Lts
variable {S E : Type} (step : S → E → Option S)

/-- The state after the events, if the machine takes them all. -/
def run (s : S) : List E → Option S
  | [] => some s
  | e :: es => (step s e).bind fun t => run t es

/-- `P` holds of every step of the run, up to the first event the machine does not take. -/
def EachStep (P : S → E → S → Prop) (s : S) : List E → Prop
  | [] => True
  | e :: es => ∀ t, step s e = some t → P s e t ∧ EachStep P t es

/-- `I` holds of every state of the run, the first included. -/
def EachState (I : S → Prop) (s : S) : List E → Prop
  | [] => I s
  | e :: es => I s ∧ ∀ t, step s e = some t → EachState I t es

variable {step} {I J : S → Prop} {P Q : S → E → S → Prop} {s t : S} {es : List E}

theorem eachStep_cons {e : E} : EachStep step P s (e :: es) ↔ ∀ t ∈ step s e, P s e t ∧ EachStep step P t es := Iff.rfl

theorem eachState_cons {e : E} : EachState step I s (e :: es) ↔ I s ∧ ∀ t ∈ step s e, EachState step I t es := Iff.rfl

theorem run_append {fs : List E} : run step s (es ++ fs) = (run step s es).bind fun t => run step t fs := by
  induction es generalizing s with
  | nil => rfl
  | cons e es ih =>
    simp only [List.cons_append, run, ih]
    cases step s e <;> rfl

/-- Two states whose steps stay related by `R` take the same events, and what `R` implies of them stays true. -/
theorem run_rel {R Q : S → S → Prop} (keep : ∀ s t e, R s t → Option.Rel R (step s e) (step t e))
    (weaken : ∀ s t, R s t → Q s t) (h : R s t) : Option.Rel Q (run step s es) (run step t es) := by
  induction es generalizing s t with
  | nil => exact .some (weaken s t h)
  | cons e es ih =>
    have hstep := keep s t e h
    rw [run, run]
    revert hstep
    cases step s e <;> cases step t e <;> intro hstep
    · exact .none
    · cases hstep
    · cases hstep
    · cases hstep with
      | some h => exact ih h

instance decidableEachStep [∀ s e t, Decidable (P s e t)] (s : S) (es : List E) : Decidable (EachStep step P s es) :=
  match es with
  | [] => isTrue trivial
  | _ :: es =>
    have (t : S) : Decidable (EachStep step P t es) := decidableEachStep t es
    decidable_of_iff _ eachStep_cons.symm

instance decidableEachState [DecidablePred I] (s : S) (es : List E) : Decidable (EachState step I s es) :=
  match es with
  | [] => inferInstanceAs (Decidable (I s))
  | _ :: es =>
    have (t : S) : Decidable (EachState step I t es) := decidableEachState t es
    decidable_of_iff _ eachState_cons.symm

theorem EachState.head (h : EachState step I s es) : I s := by
  cases es with
  | nil => exact h
  | cons e es => exact h.1

theorem EachState.last (h : EachState step I s es) (hr : run step s es = some t) : I t := by
  induction es generalizing s with
  | nil =>
    cases hr
    exact h
  | cons e es ih =>
    cases hs : step s e with
    | none => simp [run, hs] at hr
    | some u =>
      rw [run, hs] at hr
      exact ih (h.2 u hs) hr

theorem EachStep.after {e : E} {fs : List E} {u : S} (h : EachStep step P s (es ++ e :: fs)) (hr : run step s es = some t)
    (hs : step t e = some u) : P t e u := by
  induction es generalizing s with
  | nil =>
    cases hr
    exact (h u hs).1
  | cons e' es ih =>
    cases hs' : step s e' with
    | none => simp [run, hs'] at hr
    | some v =>
      rw [run, hs'] at hr
      exact ih (h v hs').2 hr

theorem EachState.mono (h : EachState step I s es) (hi : ∀ u, I u → J u) : EachState step J s es := by
  induction es generalizing s with
  | nil => exact hi s h
  | cons e es ih => exact ⟨hi s h.1, fun t ht => ih (h.2 t ht)⟩

theorem EachStep.mono (h : EachStep step P s es) (hi : ∀ s e t, step s e = some t → P s e t → Q s e t) :
    EachStep step Q s es := by
  induction es generalizing s with
  | nil => trivial
  | cons e es ih => exact fun t ht => ⟨hi s e t ht (h t ht).1, ih (h t ht).2⟩

theorem eachStep_of_forall (h : ∀ s e t, e ∈ es → step s e = some t → P s e t) : EachStep step P s es := by
  induction es generalizing s with
  | nil => trivial
  | cons e es ih =>
    intro t ht
    exact ⟨h s e t List.mem_cons_self ht, ih fun s e t he => h s e t (List.mem_cons_of_mem _ he)⟩

/-- An invariant that each step keeps when `P` holds of it holds throughout a run of such steps. -/
theorem eachState_of_eachStep (start : I s) (keep : ∀ s e t, I s → step s e = some t → P s e t → I t)
    (h : EachStep step P s es) : EachState step I s es := by
  induction es generalizing s with
  | nil => exact start
  | cons e es ih => exact ⟨start, fun t ht => ih (keep s e t start ht (h t ht).1) (h t ht).2⟩

/-- A relation of the events so far to the state that each event keeps holds at the end of a run. -/
theorem run_history {H : List E → S → Prop} {past : List E} (start : H past s)
    (keep : ∀ past s e t, H past s → step s e = some t → P s e t → H (past ++ [e]) t)
    (h : EachStep step P s es) (hr : run step s es = some t) : H (past ++ es) t := by
  induction es generalizing s past with
  | nil =>
    cases hr
    rwa [List.append_nil]
  | cons e es ih =>
    cases hs : step s e with
    | none => simp [run, hs] at hr
    | some u =>
      rw [run, hs] at hr
      have next := ih (keep past s e u start hs (h u hs).1) (h u hs).2 hr
      rwa [List.append_assoc] at next

/-- Two properties of steps that agree wherever the invariant holds hold of the same runs, if the invariant is
    kept as long as they do. -/
theorem eachStep_iff (start : I s) (keep : ∀ s e t, I s → step s e = some t → P s e t → I t)
    (iff : ∀ s e t, I s → step s e = some t → (P s e t ↔ Q s e t)) :
    EachStep step P s es ↔ EachStep step Q s es := by
  induction es generalizing s with
  | nil => exact Iff.rfl
  | cons e es ih =>
    refine forall_congr' fun t => forall_congr' fun ht => ?_
    rw [← iff s e t start ht]
    exact and_congr_right fun hp => ih (keep s e t start ht hp)

/-- Where a step from a state with `I` leads to one with `I` exactly when `P` holds of it, given an invariant
    `J` of the machine, the runs that stay in `I` are those all of whose steps satisfy `P`. -/
theorem eachState_iff (inv : J s) (kept : ∀ s e t, J s → step s e = some t → J t) (start : I s)
    (iff : ∀ s e t, e ∈ es → J s → I s → step s e = some t → (I t ↔ P s e t)) :
    EachState step I s es ↔ EachStep step P s es := by
  induction es generalizing s with
  | nil => exact iff_of_true start trivial
  | cons e es ih =>
    have rest := fun s e' t he => iff s e' t (List.mem_cons_of_mem e he)
    constructor
    · rintro ⟨-, h⟩ t ht
      have hi : I t := (h t ht).head
      exact ⟨(iff s e t List.mem_cons_self inv start ht).mp hi, (ih (kept s e t inv ht) hi rest).mp (h t ht)⟩
    · refine fun h => ⟨start, fun t ht => ?_⟩
      have hi : I t := (iff s e t List.mem_cons_self inv start ht).mpr (h t ht).1
      exact (ih (kept s e t inv ht) hi rest).mpr (h t ht).2

theorem EachState.before (h : EachState step I s es) : EachStep step (fun s _ _ => I s) s es := by
  induction es generalizing s with
  | nil => trivial
  | cons e es ih => exact fun t ht => ⟨h.1, ih (h.2 t ht)⟩

end Lts
