import Mathlib.Data.Nat.Digits.Lemmas
import Mathlib.Tactic.Ring

/-! Byte strings as numbers: little-endian and big-endian readings of a list of bytes, the fixed-width
    encodings that invert them, and the byte swap that turns one order into the other. -/

namespace ByteOrder

/-- The number whose little-endian bytes are given. -/
def ofLE (bytes : List UInt8) : Nat := Nat.ofDigits 256 (bytes.map UInt8.toNat)

def ofBE (bytes : List UInt8) : Nat := ofLE bytes.reverse

/-- The `w` little-endian bytes of a number; what does not fit is dropped. -/
def toLE : Nat → Nat → List UInt8
  | 0, _ => []
  | w + 1, n => UInt8.ofNat n :: toLE w (n / 256)

def toBE (w n : Nat) : List UInt8 := (toLE w n).reverse

/-- The number with the bytes of a `w`-byte number in the other order. -/
def swap (w n : Nat) : Nat := ofBE (toLE w n)

@[simp] theorem ofLE_nil : ofLE [] = 0 := rfl

@[simp] theorem ofLE_cons (b : UInt8) (bytes : List UInt8) : ofLE (b :: bytes) = b.toNat + 256 * ofLE bytes := by
  simp [ofLE, Nat.ofDigits_cons]

@[simp] theorem length_toLE (w n : Nat) : (toLE w n).length = w := by
  induction w generalizing n with
  | zero => rfl
  | succ w ih => simp [toLE, ih]

@[simp] theorem length_toBE (w n : Nat) : (toBE w n).length = w := by simp [toBE]

theorem ofLE_append (l r : List UInt8) : ofLE (l ++ r) = ofLE l + 256 ^ l.length * ofLE r := by
  simp [ofLE, Nat.ofDigits_append]

theorem ofBE_append (l r : List UInt8) : ofBE (l ++ r) = ofBE r + 256 ^ r.length * ofBE l := by
  rw [ofBE, List.reverse_append, ofLE_append, List.length_reverse, ofBE, ofBE]

theorem ofLE_lt (bytes : List UInt8) : ofLE bytes < 256 ^ bytes.length := by
  induction bytes with
  | nil => simp
  | cons b bytes ih =>
    have := b.toNat_lt
    rw [ofLE_cons, List.length_cons, Nat.pow_succ]
    omega

theorem ofBE_lt (bytes : List UInt8) : ofBE bytes < 256 ^ bytes.length := by
  have := ofLE_lt bytes.reverse
  rwa [List.length_reverse] at this

theorem ofLE_toLE (w n : Nat) : ofLE (toLE w n) = n % 256 ^ w := by
  induction w generalizing n with
  | zero => simp [toLE, Nat.mod_one]
  | succ w ih =>
    have byte : (UInt8.ofNat n).toNat = n % 256 := UInt8.toNat_ofNat'
    rw [toLE, ofLE_cons, ih, byte, Nat.pow_succ', Nat.mod_mul]

theorem ofBE_toBE (w n : Nat) : ofBE (toBE w n) = n % 256 ^ w := by
  rw [ofBE, toBE, List.reverse_reverse, ofLE_toLE]

theorem toLE_ofLE (bytes : List UInt8) : toLE bytes.length (ofLE bytes) = bytes := by
  induction bytes with
  | nil => rfl
  | cons b bytes ih =>
    have := b.toNat_lt
    rw [List.length_cons, toLE, ofLE_cons]
    congr 1
    · rw [← UInt8.toNat_inj, UInt8.toNat_ofNat']
      omega
    · rw [show (b.toNat + 256 * ofLE bytes) / 256 = ofLE bytes by omega, ih]

/-- Swapping the bytes of a number read in one order gives the number read in the other. -/
theorem swap_ofLE (bytes : List UInt8) : swap bytes.length (ofLE bytes) = ofBE bytes := by
  rw [swap, toLE_ofLE]

/-- Stored in one order, a number with swapped bytes lies in memory as the number does in the other. -/
theorem toLE_swap (w n : Nat) : toLE w (swap w n) = toBE w n := by
  have back := toLE_ofLE (toBE w n)
  rwa [length_toBE] at back

theorem swap_swap (w n : Nat) : swap w (swap w n) = n % 256 ^ w := by
  rw [swap, toLE_swap, ofBE_toBE]

theorem toBE_inj {w m n : Nat} (hm : m < 256 ^ w) (hn : n < 256 ^ w) : toBE w m = toBE w n ↔ m = n := by
  refine ⟨fun h => ?_, congrArg (toBE w)⟩
  have read := congrArg ofBE h
  rwa [ofBE_toBE, ofBE_toBE, Nat.mod_eq_of_lt hm, Nat.mod_eq_of_lt hn] at read

theorem swap_lt (w n : Nat) : swap w n < 256 ^ w := by
  have := ofBE_lt (toLE w n)
  rwa [length_toLE] at this

end ByteOrder
