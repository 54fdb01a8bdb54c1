import Mathlib.Data.List.Basic

/-! Streams of frames whose size can be read from their beginning: `size? xs` is the size of the frame that
    `xs` begins with, once enough of it is there. -/

namespace Framing
variable {α : Type} (size? : List α → Option Nat)

/-- What was read of a size stays right as the stream goes on, and no frame is empty. -/
structure Stable : Prop where
  append {xs ys : List α} {n : Nat} : size? xs = some n → size? (xs ++ ys) = some n
  pos {xs : List α} {n : Nat} : size? xs = some n → 0 < n

/-- A concatenation of whole frames. -/
inductive Complete : List α → Prop
  | nil : Complete []
  | cons {frame rest : List α} (size : size? frame = some frame.length) (tail : Complete rest) : Complete (frame ++ rest)

variable {size?} {xs ys frame : List α}

theorem Complete.single (h : size? frame = some frame.length) : Complete size? frame :=
  List.append_nil frame ▸ .cons h .nil

theorem Complete.append (h : Complete size? xs) (h' : Complete size? ys) : Complete size? (xs ++ ys) := by
  induction h with
  | nil => exact h'
  | cons size tail ih =>
    rw [List.append_assoc]
    exact .cons size ih

theorem Stable.complete_cons (stable : Stable size?) (size : size? frame = some frame.length) :
    Complete size? (frame ++ ys) ↔ Complete size? ys := by
  refine ⟨fun h => ?_, .cons size⟩
  generalize heq : frame ++ ys = xs at h
  cases h with
  | nil =>
    obtain ⟨rfl, rfl⟩ := List.append_eq_nil_iff.mp heq
    exact .nil
  | @cons frame' rest size' tail =>
    have hsame : size? (frame ++ ys) = some frame'.length := heq ▸ stable.append size'
    rw [stable.append size, Option.some.injEq] at hsame
    obtain ⟨-, rfl⟩ := List.append_inj heq hsame
    exact tail

/-- What follows whole frames completes them exactly if it is complete itself. -/
theorem Stable.complete_append (stable : Stable size?) (h : Complete size? xs) :
    Complete size? (xs ++ ys) ↔ Complete size? ys := by
  induction h with
  | nil => exact Iff.rfl
  | cons size tail ih => rw [List.append_assoc, stable.complete_cons size, ih]

theorem Stable.not_complete (stable : Stable size?) {n : Nat} (size : size? xs = some n) (h : xs.length < n)
    (hne : xs ≠ []) : ¬Complete size? xs := by
  intro hc
  cases hc with
  | nil => exact hne rfl
  | @cons frame rest size' tail =>
    have hsame : size? (frame ++ rest) = some frame.length := stable.append size'
    rw [size, Option.some.injEq] at hsame
    rw [List.length_append] at h
    omega

end Framing
