import Mathlib.Algebra.Group.Int.Defs
import Mathlib.Algebra.Group.Nat.Defs

/-! The conversions between the integer types of a 64-bit C host. -/

namespace CInt

/-- A size stored in an `int`. -/
def toInt (n : Nat) : Int :=
  if n % 2 ^ 32 < 2 ^ 31 then (n % 2 ^ 32 : Nat) else (n % 2 ^ 32 : Nat) - 2 ^ 32

/-- An `int` where a `size_t` or a `uint64_t` is expected. -/
def toSize (i : Int) : Nat := (i % 2 ^ 64).toNat

theorem toInt_of_lt {n : Nat} (h : n < 2 ^ 31) : toInt n = n := by
  rw [toInt, Nat.mod_eq_of_lt (by omega), if_pos h]

theorem toSize_natCast {n : Nat} (h : n < 2 ^ 31) : toSize (n : Int) = n := by
  rw [toSize, Int.emod_eq_of_lt (Int.natCast_nonneg n) (by omega), Int.toNat_natCast]

theorem toSize_toInt {n : Nat} (h : n < 2 ^ 31) : toSize (toInt n) = n := by
  rw [toInt_of_lt h, toSize_natCast h]

theorem toSize_toInt_of_pos {n : Nat} (h : 0 < toInt n) : toSize (toInt n) = n % 2 ^ 32 ∧ n % 2 ^ 32 < 2 ^ 31 := by
  simp only [toSize, toInt] at h ⊢
  split at h
  · split <;> omega
  · omega

/-- What an `int` that holds a size takes off that size: all of it where the `int` is negative. -/
theorem min_toSize_toInt_eq {n k : Nat} (h : k < 2 ^ 31) : min (toSize (toInt n)) n = k ↔ n % 2 ^ 32 = k := by
  simp only [toSize, toInt]
  split <;> omega

theorem toSize_toInt_eq_iff {n k : Nat} (h : k < 2 ^ 63) : toSize (toInt n) = k ↔ n % 2 ^ 32 = k ∧ k < 2 ^ 31 := by
  simp only [toSize, toInt]
  split <;> omega

end CInt
