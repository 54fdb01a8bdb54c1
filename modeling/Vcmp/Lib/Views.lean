import Mathlib.Data.List.Basic
import Vcmp.Lib.Lts

/-! A machine watched through one of its parts. Each step of the machine is a step of the part, or leaves the part
    as it is; so what the part does in a run of the whole is a run of its own. -/

namespace Lts
variable {S E P F : Type}

/-- What every step keeps holds at the end of a run. -/
theorem run_inv {step : S → E → Option S} {I : S → Prop} {s t : S} {es : List E} (start : I s)
    (keep : ∀ s e t, I s → step s e = some t → I t) (hr : run step s es = some t) : I t :=
  (eachState_of_eachStep (P := fun _ _ _ => True) start (fun s e t h hstep _ => keep s e t h hstep)
    (eachStep_of_forall fun _ _ _ _ _ => trivial)).last hr

/-- The events that the part takes in a run of the machine. -/
def seen (step : S → E → Option S) (see : S → E → Option F) (s : S) : List E → List F
  | [] => []
  | e :: es => (see s e).toList ++ (step s e).elim [] fun t => seen step see t es

/-- `view` relates the states of the machine to those of the part, which is `none` before it comes into being as
    `fresh`; the part takes what is seen of each step. -/
structure Follows (step : S → E → Option S) (view : S → Option P → Prop) (see : S → E → Option F)
    (partStep : P → F → Option P) (fresh : P) : Prop where
  steps : ∀ s e t p, step s e = some t → view s (some p) →
    ∃ q, run partStep p (see s e).toList = some q ∧ view t (some q)
  begins : ∀ s e t, step s e = some t → view s none → see s e = none ∧ (view t none ∨ view t (some fresh))

section Follows
variable {step : S → E → Option S} {view : S → Option P → Prop} {see : S → E → Option F} {partStep : P → F → Option P}
  {fresh p : P} {s t : S} {es : List E}

theorem seen_cons {e : E} (h : step s e = some t) :
    seen step see s (e :: es) = (see s e).toList ++ seen step see t es := by
  rw [seen, h]
  rfl

/-- A part that is there runs on its own. -/
theorem Follows.run (h : Follows step view see partStep fresh) (hp : view s (some p)) (hr : run step s es = some t) :
    ∃ q, Lts.run partStep p (seen step see s es) = some q ∧ view t (some q) := by
  induction es generalizing s p with
  | nil =>
    cases hr
    exact ⟨p, rfl, hp⟩
  | cons e es ih =>
    rw [Lts.run, Option.bind_eq_some_iff] at hr
    obtain ⟨u, hu, hr⟩ := hr
    obtain ⟨q, hq, hview⟩ := h.steps s e u p hu hp
    obtain ⟨q', hq', hview'⟩ := ih hview hr
    refine ⟨q', ?_, hview'⟩
    rw [seen_cons hu, run_append, hq]
    exact hq'

/-- A part that is not there yet runs on its own from the time it begins. -/
theorem Follows.run_fresh (h : Follows step view see partStep fresh) (hs : view s none) (hr : Lts.run step s es = some t) :
    view t none ∨ ∃ q, Lts.run partStep fresh (seen step see s es) = some q ∧ view t (some q) := by
  induction es generalizing s with
  | nil =>
    cases hr
    exact Or.inl hs
  | cons e es ih =>
    rw [Lts.run, Option.bind_eq_some_iff] at hr
    obtain ⟨u, hu, hr⟩ := hr
    obtain ⟨hsee, hbegins⟩ := h.begins s e u hu hs
    rw [seen_cons hu, hsee, Option.toList_none, List.nil_append]
    rcases hbegins with hnone | hfresh
    · exact ih hnone hr
    · exact Or.inr (h.run hfresh hr)

end Follows

/-- One of several parts takes a step; each part sees its own. -/
theorem run_set {partStep : P → F → Option P} {parts : List P} {i j : Nat} {p q p' : P} {f : F} (hp : parts[i]? = some p)
    (hp' : parts[j]? = some p') (hq : partStep p' f = some q) :
    ∃ r, run partStep p (if i = j then some f else none).toList = some r ∧ (parts.set j q)[i]? = some r := by
  by_cases hi : i = j
  · subst hi
    obtain rfl := Option.some.inj (hp.symm.trans hp')
    refine ⟨q, ?_, List.getElem?_set_self (List.getElem?_eq_some_iff.mp hp).1⟩
    rw [if_pos rfl, Option.toList_some, run, hq]
    rfl
  · refine ⟨p, ?_, (List.getElem?_set_ne (Ne.symm hi)).trans hp⟩
    rw [if_neg hi]
    rfl

end Lts
