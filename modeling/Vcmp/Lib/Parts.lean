import Mathlib.Data.List.Basic

/-! Streams that arrive in parts. -/

namespace Parts
variable {α : Type} {parts : List (List α)} {a b : α} {first rest buf l r : List α}

/-! ### Few elements -/

theorem parts_nil (h : parts.flatten = []) (nonempty : ∀ part ∈ parts, part ≠ []) : parts = [] := by
  cases parts with
  | nil => rfl
  | cons part parts => exact absurd (List.append_eq_nil_iff.mp h).1 (nonempty part List.mem_cons_self)

theorem parts_singleton (h : parts.flatten = [a]) (nonempty : ∀ part ∈ parts, part ≠ []) : parts = [[a]] := by
  cases parts with
  | nil => cases h
  | cons part parts =>
    rcases List.append_eq_singleton_iff.mp h with ⟨hpart, -⟩ | ⟨rfl, hparts⟩
    · exact absurd hpart (nonempty part List.mem_cons_self)
    · rw [parts_nil hparts fun part hpart => nonempty part (List.mem_cons_of_mem _ hpart)]

theorem parts_pair (h : parts.flatten = [a, b]) (nonempty : ∀ part ∈ parts, part ≠ []) :
    parts = [[a, b]] ∨ parts = [[a], [b]] := by
  cases parts with
  | nil => cases h
  | cons part parts =>
    have hrest := fun part' hpart => nonempty part' (List.mem_cons_of_mem part hpart)
    rcases List.append_eq_cons_iff.mp h with ⟨hpart, -⟩ | ⟨tail, rfl, htail⟩
    · exact absurd hpart (nonempty part List.mem_cons_self)
    rcases List.append_eq_singleton_iff.mp htail.symm with ⟨rfl, hparts⟩ | ⟨rfl, hparts⟩
    · exact Or.inr (parts_singleton hparts hrest ▸ rfl)
    · exact Or.inl (parts_nil hparts hrest ▸ rfl)

/-! ### The first part -/

theorem exists_cons_iff {β : Type} {x : β} {xs : List β} {P : β → List β → Prop} :
    (∃ y ys, x :: xs = y :: ys ∧ P y ys) ↔ P x xs := by
  constructor
  · rintro ⟨_, _, heq, h⟩
    obtain ⟨rfl, rfl⟩ := List.cons.inj heq
    exact h
  · exact fun h => ⟨x, xs, rfl, h⟩

theorem not_exists_cons {β : Type} {P : β → List β → Prop} : ¬∃ y ys, [] = y :: ys ∧ P y ys := by
  rintro ⟨_, _, heq, -⟩
  cases heq

/-- What has arrived and is as long as the beginning of the stream holds it. -/
theorem prefix_append (h : buf <+: l ++ r) (hl : l.length ≤ buf.length) :
    ∃ u, buf = l ++ u ∧ u <+: r := by
  obtain ⟨u, rfl⟩ : l <+: buf := List.prefix_of_prefix_length_le (List.prefix_append l r) h hl
  exact ⟨u, rfl, (List.prefix_append_right_inj l).mp h⟩

/-- Taking bytes off the first part of a stream leaves what follows a prefix of it exactly if they are as many as
    the prefix has. -/
theorem drop_append_eq_iff (h : first ++ rest = l ++ r) (n : Nat) :
    first.drop n ++ rest = r ↔ min n first.length = l.length := by
  have hdrop : first.drop n ++ rest = (l ++ r).drop (min n first.length) := by
    rw [← h, List.drop_append_of_le_length (Nat.min_le_right n _), ← List.drop_eq_drop_min]
  have hlength := congrArg List.length h
  rw [List.length_append, List.length_append] at hlength
  rw [hdrop]
  constructor
  · intro heq
    have hrest := congrArg List.length heq
    rw [List.length_drop, List.length_append] at hrest
    omega
  · intro hmin
    rw [hmin, List.drop_left]

end Parts
