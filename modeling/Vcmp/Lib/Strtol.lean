import Vcmp.Lib.CInt
import Mathlib.Data.List.TakeWhile

/-! `strtol` with base ten: the integer that a string begins with. -/

namespace CString

def isspace (b : UInt8) : Bool := b = ' '.toUInt8 ∨ '\t'.toUInt8 ≤ b ∧ b ≤ '\r'.toUInt8

def isdigit (b : UInt8) : Bool := '0'.toUInt8 ≤ b ∧ b ≤ '9'.toUInt8

/-- The value of some digits. -/
def decimal (digits : List UInt8) : Nat := digits.foldl (fun n b => 10 * n + (b - '0'.toUInt8).toNat) 0

/-- The integer behind white space and a sign, as far as there are digits; zero if there are none. -/
def number (s : List UInt8) : Int :=
  match s.dropWhile isspace with
  | [] => 0
  | b :: s =>
    if b = '-'.toUInt8 then -(decimal (s.takeWhile isdigit) : Int)
    else if b = '+'.toUInt8 then decimal (s.takeWhile isdigit)
    else decimal ((b :: s).takeWhile isdigit)

/-- `LONG_MAX` on a 64-bit host. -/
def longMax : Int := 2 ^ 63 - 1

/-- `LONG_MIN` -/
def longMin : Int := -2 ^ 63

/-- `strtol(s, NULL, 10)`, and whether it sets `errno`. -/
def strtol (s : List UInt8) : Int × Bool :=
  if longMax < number s then (longMax, true)
  else if number s < longMin then (longMin, true)
  else (number s, false)

/-! ### What it takes -/

variable {s : List UInt8}

def Overflows (s : List UInt8) : Prop := longMax < number s ∨ number s < longMin

theorem strtol_of_overflows (h : Overflows s) : (strtol s).2 = true := by
  rw [strtol]
  split
  · rfl
  · rw [if_pos (h.resolve_left ‹_›)]

theorem strtol_of_not_overflows (h : ¬Overflows s) : strtol s = (number s, false) := by
  obtain ⟨hmax, hmin⟩ := not_or.mp h
  rw [strtol, if_neg hmax, if_neg hmin]

/-- A decimal numeral: digits and nothing else. -/
def Numeral (s : List UInt8) : Prop := s ≠ [] ∧ ∀ b ∈ s, isdigit b = true

theorem number_of_numeral (h : Numeral s) : number s = decimal s := by
  obtain ⟨hnonempty, hdigits⟩ := h
  obtain ⟨b, s, rfl⟩ := List.exists_cons_of_ne_nil hnonempty
  have hb := hdigits b List.mem_cons_self
  have hspace : isspace b = false := by
    rw [isdigit, decide_eq_true_iff] at hb
    rw [isspace, decide_eq_false_iff_not]
    rintro (rfl | ⟨-, hr⟩)
    · exact absurd hb (by decide)
    · exact absurd (UInt8.le_trans hb.1 hr) (by decide)
  have hminus : b ≠ '-'.toUInt8 := by
    rintro rfl
    cases hb
  have hplus : b ≠ '+'.toUInt8 := by
    rintro rfl
    cases hb
  rw [number, List.dropWhile_cons_of_neg (by rw [hspace]; exact Bool.false_ne_true)]
  simp only [if_neg hminus, if_neg hplus]
  rw [List.takeWhile_eq_self_iff.mpr hdigits]

end CString
