import Mathlib.Data.List.Basic

/-! UTF-8: characters as sequences of bytes. -/

namespace Utf8

def encode (cs : List Char) : List UInt8 := cs.flatMap String.utf8EncodeChar

/-- The sequences of bytes that are one character: no longer than needed, no surrogate, and none past the last character. -/
inductive Sequence : List UInt8 → Prop where
  | one {b : UInt8} (h : b.toNat < 0x80) : Sequence [b]
  | two {b₀ b₁ : UInt8} (h₀ : 0xC2 ≤ b₀.toNat ∧ b₀.toNat < 0xE0) (h₁ : 0x80 ≤ b₁.toNat ∧ b₁.toNat < 0xC0) :
      Sequence [b₀, b₁]
  | three {b₀ b₁ b₂ : UInt8} (h₀ : 0xE0 ≤ b₀.toNat ∧ b₀.toNat < 0xF0) (h₁ : 0x80 ≤ b₁.toNat ∧ b₁.toNat < 0xC0)
      (h₂ : 0x80 ≤ b₂.toNat ∧ b₂.toNat < 0xC0) (long : b₀.toNat = 0xE0 → 0xA0 ≤ b₁.toNat)
      (surrogate : b₀.toNat = 0xED → b₁.toNat < 0xA0) : Sequence [b₀, b₁, b₂]
  | four {b₀ b₁ b₂ b₃ : UInt8} (h₀ : 0xF0 ≤ b₀.toNat ∧ b₀.toNat < 0xF5) (h₁ : 0x80 ≤ b₁.toNat ∧ b₁.toNat < 0xC0)
      (h₂ : 0x80 ≤ b₂.toNat ∧ b₂.toNat < 0xC0) (h₃ : 0x80 ≤ b₃.toNat ∧ b₃.toNat < 0xC0)
      (long : b₀.toNat = 0xF0 → 0x90 ≤ b₁.toNat) (last : b₀.toNat = 0xF4 → b₁.toNat < 0x90) : Sequence [b₀, b₁, b₂, b₃]

theorem encode_nil : encode [] = [] := rfl

theorem encode_cons (c : Char) (cs : List Char) : encode (c :: cs) = String.utf8EncodeChar c ++ encode cs := List.flatMap_cons

theorem encode_append (cs ds : List Char) : encode (cs ++ ds) = encode cs ++ encode ds := List.flatMap_append

theorem length_le_encode (cs : List Char) : cs.length ≤ (encode cs).length := by
  induction cs with
  | nil => exact Nat.le_refl 0
  | cons c cs ih =>
    have hpos := Char.utf8Size_pos c
    rw [encode_cons, List.length_append, String.length_utf8EncodeChar, List.length_cons]
    omega

theorem ofNat_eq {n : Nat} {b : UInt8} (h : n = b.toNat) : UInt8.ofNat n = b := by
  rw [h, UInt8.ofNat_toNat]

theorem val_ofNat {v : Nat} (h : v.isValidChar) : (Char.ofNat v).val.toNat = v := by
  unfold Char.ofNat
  rw [dif_pos h]
  rfl

/-- Each of the sequences is a character. -/
theorem Sequence.exists_char {l : List UInt8} (h : Sequence l) : ∃ c, String.utf8EncodeChar c = l := by
  cases h with
  | @one b h =>
    refine ⟨Char.ofNat b.toNat, ?_⟩
    have hval : (Char.ofNat b.toNat).val.toNat = b.toNat := val_ofNat (Or.inl (by omega))
    simp only [String.utf8EncodeChar, hval]
    rw [if_pos (by omega), UInt8.ofNat_toNat]
  | @two b₀ b₁ h₀ h₁ =>
    set v := (b₀.toNat - 0xC0) * 64 + (b₁.toNat - 0x80) with hv
    refine ⟨Char.ofNat v, ?_⟩
    have hval : (Char.ofNat v).val.toNat = v := val_ofNat (Or.inl (by omega))
    simp only [String.utf8EncodeChar, hval]
    rw [if_neg (by omega), if_pos (by omega), ofNat_eq (b := b₀) (by omega), ofNat_eq (b := b₁) (by omega)]
  | @three b₀ b₁ b₂ h₀ h₁ h₂ long surrogate =>
    set v := (b₀.toNat - 0xE0) * 4096 + (b₁.toNat - 0x80) * 64 + (b₂.toNat - 0x80) with hv
    refine ⟨Char.ofNat v, ?_⟩
    have hval : (Char.ofNat v).val.toNat = v := val_ofNat (by simp only [Nat.isValidChar]; omega)
    simp only [String.utf8EncodeChar, hval]
    rw [if_neg (by omega), if_neg (by omega), if_pos (by omega), ofNat_eq (b := b₀) (by omega), ofNat_eq (b := b₁) (by omega),
      ofNat_eq (b := b₂) (by omega)]
  | @four b₀ b₁ b₂ b₃ h₀ h₁ h₂ h₃ long last =>
    set v := (b₀.toNat - 0xF0) * 262144 + (b₁.toNat - 0x80) * 4096 + (b₂.toNat - 0x80) * 64 + (b₃.toNat - 0x80) with hv
    refine ⟨Char.ofNat v, ?_⟩
    have hval : (Char.ofNat v).val.toNat = v := val_ofNat (by simp only [Nat.isValidChar]; omega)
    simp only [String.utf8EncodeChar, hval]
    rw [if_neg (by omega), if_neg (by omega), if_neg (by omega), ofNat_eq (b := b₀) (by omega), ofNat_eq (b := b₁) (by omega),
      ofNat_eq (b := b₂) (by omega), ofNat_eq (b := b₃) (by omega)]

theorem toNat_ofNat {n : Nat} (h : n < 256) : (UInt8.ofNat n).toNat = n := UInt8.toNat_ofNat_of_lt' h

/-- Each character is one of the sequences. -/
theorem sequence_encodeChar (c : Char) : Sequence (String.utf8EncodeChar c) := by
  have hvalid : c.val.toNat < 0xD800 ∨ 0xDFFF < c.val.toNat ∧ c.val.toNat < 0x110000 := c.valid
  simp only [String.utf8EncodeChar]
  generalize c.val.toNat = v at hvalid
  split
  · exact .one (by rw [toNat_ofNat (by omega)]; omega)
  split
  · have h₀ : (UInt8.ofNat (v / 64 % 32 + 192)).toNat = v / 64 % 32 + 192 := toNat_ofNat (by omega)
    have h₁ : (UInt8.ofNat (v % 64 + 128)).toNat = v % 64 + 128 := toNat_ofNat (by omega)
    refine .two ?_ ?_ <;> simp only [h₀, h₁] <;> omega
  split
  · have h₀ : (UInt8.ofNat (v / 4096 % 16 + 224)).toNat = v / 4096 % 16 + 224 := toNat_ofNat (by omega)
    have h₁ : (UInt8.ofNat (v / 64 % 64 + 128)).toNat = v / 64 % 64 + 128 := toNat_ofNat (by omega)
    have h₂ : (UInt8.ofNat (v % 64 + 128)).toNat = v % 64 + 128 := toNat_ofNat (by omega)
    refine .three ?_ ?_ ?_ ?_ ?_ <;> simp only [h₀, h₁, h₂] <;> omega
  · have h₀ : (UInt8.ofNat (v / 262144 % 8 + 240)).toNat = v / 262144 % 8 + 240 := toNat_ofNat (by omega)
    have h₁ : (UInt8.ofNat (v / 4096 % 64 + 128)).toNat = v / 4096 % 64 + 128 := toNat_ofNat (by omega)
    have h₂ : (UInt8.ofNat (v / 64 % 64 + 128)).toNat = v / 64 % 64 + 128 := toNat_ofNat (by omega)
    have h₃ : (UInt8.ofNat (v % 64 + 128)).toNat = v % 64 + 128 := toNat_ofNat (by omega)
    refine .four ?_ ?_ ?_ ?_ ?_ ?_ <;> simp only [h₀, h₁, h₂, h₃] <;> omega

end Utf8
