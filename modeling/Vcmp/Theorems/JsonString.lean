import Mathlib.Data.List.Basic
import Vcmp.Lib.Json
import Vcmp.Lib.Utf8
import Vcmp.Yyjson

/-! # Strings of the JSON writer

The writer takes strings of UTF-8 and refuses others. It spells a character as itself or as an escape, and each spelling
reads back as its character. -/

namespace Vcmp.Yyjson
open Utf8

/-! ### Characters -/

/-- The characters with an escape of two letters, and the second of them. -/
def escapes : List (Char × Char) :=
  [('\x08', 'b'), ('\t', 't'), ('\n', 'n'), ('\x0C', 'f'), ('\r', 'r'), ('"', '"'), ('\\', '\\')]

def hexChar (n : Nat) : Char := if n < 10 then Char.ofNat ('0'.toNat + n) else Char.ofNat ('A'.toNat + (n - 10))

/-- How the writer spells a character. -/
def spell (c : Char) : List Char :=
  match escapes.find? (·.1 = c) with
  | some (_, letter) => ['\\', letter]
  | none => if c.toNat < 0x20 then ['\\', 'u', '0', '0', hexChar (c.toNat / 16), hexChar (c.toNat % 16)] else [c]

theorem hexValue_hexChar {n : Nat} (h : n < 16) : Json.hexValue (hexChar n) = some n := by
  decide +revert

theorem readEscape_letter {c letter : Char} (h : (c, letter) ∈ escapes) (rest : List Char) :
    Json.readEscape (letter :: rest) = some (c, rest) := by
  simp only [escapes, List.mem_cons, Prod.mk.injEq, List.not_mem_nil, or_false] at h
  rcases h with ⟨rfl, rfl⟩ | ⟨rfl, rfl⟩ | ⟨rfl, rfl⟩ | ⟨rfl, rfl⟩ | ⟨rfl, rfl⟩ | ⟨rfl, rfl⟩ | ⟨rfl, rfl⟩ <;> rfl

theorem readHex_hexChar {n : Nat} (h : n < 256) (rest : List Char) :
    Json.readHex ('0' :: '0' :: hexChar (n / 16) :: hexChar (n % 16) :: rest) = some (n, rest) := by
  rw [Json.readHex, hexValue_hexChar (by omega), hexValue_hexChar (by omega)]
  simp only [show Json.hexValue '0' = some 0 from rfl, Option.bind_eq_bind, Option.bind_some, Nat.zero_mul, Nat.zero_add,
    Nat.div_add_mod' n 16]
  rfl

/-- Each spelling reads back. -/
theorem spells : Json.Spells spell := by
  intro c rest
  unfold spell
  cases hfind : escapes.find? (·.1 = c) with
  | some entry =>
    obtain ⟨c', letter⟩ := entry
    have hc := List.find?_some hfind
    simp only [decide_eq_true_eq] at hc
    exact readEscape_letter (hc ▸ List.mem_of_find?_eq_some hfind) rest
  | none =>
    dsimp only
    split
    · rename_i hcontrol
      show Json.readUnicode ('0' :: '0' :: hexChar (c.toNat / 16) :: hexChar (c.toNat % 16) :: rest) = _
      rw [Json.readUnicode, readHex_hexChar (by omega)]
      simp only [Option.bind_eq_bind, Option.bind_some]
      rw [if_pos (Or.inl (by omega)), Char.ofNat_toNat]
      rfl
    · rename_i hcontrol
      have hnone := List.find?_eq_none.mp hfind
      have hslash : c ≠ '\\' := fun h => hnone ('\\', '\\') (by decide) (by rw [h]; rfl)
      have hquote : c ≠ '"' := fun h => hnone ('"', '"') (by decide) (by rw [h]; rfl)
      show Json.readChar (c :: rest) = _
      rw [Json.readChar, if_neg hslash, if_neg (not_or.mpr ⟨hquote, hcontrol⟩)]

/-! ### Bytes -/

/-- A property of bytes is checked on all of them. -/
theorem forall_byte {P : UInt8 → Prop} (h : ∀ n < 256, P (UInt8.ofNat n)) (c : UInt8) : P c := by
  have hc := h c.toNat c.toNat_lt
  rwa [UInt8.ofNat_toNat] at hc

/-- What the writer puts for a byte that is a character by itself. -/
def spelled (c : UInt8) : List UInt8 := encode (spell (Char.ofNat c.toNat))

section Bytes
set_option maxRecDepth 8000

theorem charEncType_ascii (c : UInt8) : c.toNat < 0x80 →
    charEncType c = charEncCpy1 ∧ spelled c = [c] ∨ charEncType c = charEncEscA ∧ spelled c = escSingleChar c ∨
      charEncType c = charEncEsc1 ∧ spelled c = ['\\'.toUInt8, 'u'.toUInt8, '0'.toUInt8, '0'.toUInt8] ++ escHexChar c := by
  revert c
  exact forall_byte (by decide)

theorem charEncType_of_ge (c : UInt8) : 0x80 ≤ c.toNat →
    charEncType c = if c.toNat < 0xC0 then charEncErr1 else if c.toNat < 0xE0 then charEncCpy2
      else if c.toNat < 0xF0 then charEncCpy3 else if c.toNat < 0xF8 then charEncCpy4 else charEncErr1 := by
  revert c
  exact forall_byte (by decide)

/-! The masks of `is_valid_seq_2` to `is_valid_seq_4`, a byte each. -/

theorem tail_mask (c : UInt8) : c &&& 0xC0 = 0x80 ↔ 0x80 ≤ c.toNat ∧ c.toNat < 0xC0 := by
  revert c
  exact forall_byte (by decide)

theorem lead2_mask (c : UInt8) : c &&& 0xE0 = 0xC0 ∧ c &&& 0x1E ≠ 0 ↔ 0xC2 ≤ c.toNat ∧ c.toNat < 0xE0 := by
  revert c
  exact forall_byte (by decide)

theorem lead3_mask (c : UInt8) : c &&& 0xF0 = 0xE0 ↔ 0xE0 ≤ c.toNat ∧ c.toNat < 0xF0 := by
  revert c
  exact forall_byte (by decide)

theorem lead4_mask (c : UInt8) : c &&& 0xF8 = 0xF0 ↔ 0xF0 ≤ c.toNat ∧ c.toNat < 0xF8 := by
  revert c
  exact forall_byte (by decide)

theorem lead3_rest_mask (c : UInt8) : 0xE0 ≤ c.toNat ∧ c.toNat < 0xF0 →
    (c &&& 0x0F = 0 ↔ c.toNat = 0xE0) ∧ (c &&& 0x0F = 0x0D ↔ c.toNat = 0xED) := by
  revert c
  exact forall_byte (by decide)

theorem tail3_mask (c : UInt8) : 0x80 ≤ c.toNat ∧ c.toNat < 0xC0 →
    (c &&& 0x20 = 0 ↔ c.toNat < 0xA0) ∧ (c &&& 0x20 = 0x20 ↔ 0xA0 ≤ c.toNat) := by
  revert c
  exact forall_byte (by decide)

theorem lead4_rest_mask (c : UInt8) : 0xF0 ≤ c.toNat ∧ c.toNat < 0xF8 →
    (c &&& 0x07 = 0 ↔ c.toNat = 0xF0) ∧ ((c &&& 0x07) &&& 0x04 = 0 ↔ c.toNat < 0xF4) ∧
      ((c &&& 0x07) &&& 0x03 = 0 ↔ c.toNat = 0xF0 ∨ c.toNat = 0xF4) := by
  revert c
  exact forall_byte (by decide)

theorem tail4_mask (c : UInt8) : 0x80 ≤ c.toNat ∧ c.toNat < 0xC0 →
    (c &&& 0x30 = 0 ↔ c.toNat < 0x90) ∧ ((c &&& 0x30) &&& 0x30 = 0 ↔ c.toNat < 0x90) := by
  revert c
  exact forall_byte (by decide)

theorem length_spelled_le (c : UInt8) : c.toNat < 0x80 → (spelled c).length ≤ 6 := by
  revert c
  exact forall_byte (by decide)

theorem spelled_noesc (c : UInt8) : ¬(c < ' '.toUInt8 ∨ c > '~'.toUInt8 ∨ c = '"'.toUInt8 ∨ c = '\\'.toUInt8) →
    c.toNat < 0x80 ∧ spelled c = [c] := by
  revert c
  exact forall_byte (by decide)

end Bytes

theorem isValidSeq2_iff {c c₁ : UInt8} :
    isValidSeq2 [c, c₁] ↔ (0xC2 ≤ c.toNat ∧ c.toNat < 0xE0) ∧ 0x80 ≤ c₁.toNat ∧ c₁.toNat < 0xC0 := by
  rw [← lead2_mask, ← tail_mask]
  simp [isValidSeq2, masked]
  tauto

theorem isValidSeq3_iff {c c₁ c₂ : UInt8} : isValidSeq3 [c, c₁, c₂] ↔
    (0xE0 ≤ c.toNat ∧ c.toNat < 0xF0) ∧ (0x80 ≤ c₁.toNat ∧ c₁.toNat < 0xC0) ∧ (0x80 ≤ c₂.toNat ∧ c₂.toNat < 0xC0) ∧
      (c.toNat = 0xE0 → 0xA0 ≤ c₁.toNat) ∧ (c.toNat = 0xED → c₁.toNat < 0xA0) := by
  have hmask : isValidSeq3 [c, c₁, c₂] ↔ (c &&& 0xF0 = 0xE0 ∧ c₁ &&& 0xC0 = 0x80 ∧ c₂ &&& 0xC0 = 0x80) ∧
      ¬(c &&& 0x0F = 0 ∧ c₁ &&& 0x20 = 0) ∧ ¬(c &&& 0x0F = 0x0D ∧ c₁ &&& 0x20 = 0x20) := by
    simp [isValidSeq3, masked]
    tauto
  rw [hmask, lead3_mask, tail_mask, tail_mask]
  constructor
  · rintro ⟨⟨hc, hc₁, hc₂⟩, hlong, hsurrogate⟩
    rw [(lead3_rest_mask c hc).1, (tail3_mask c₁ hc₁).1] at hlong
    rw [(lead3_rest_mask c hc).2, (tail3_mask c₁ hc₁).2] at hsurrogate
    exact ⟨hc, hc₁, hc₂, by omega, by omega⟩
  · rintro ⟨hc, hc₁, hc₂, hlong, hsurrogate⟩
    rw [(lead3_rest_mask c hc).1, (tail3_mask c₁ hc₁).1, (lead3_rest_mask c hc).2, (tail3_mask c₁ hc₁).2]
    exact ⟨⟨hc, hc₁, hc₂⟩, by omega, by omega⟩

theorem isValidSeq4_iff {c c₁ c₂ c₃ : UInt8} : isValidSeq4 [c, c₁, c₂, c₃] ↔
    (0xF0 ≤ c.toNat ∧ c.toNat < 0xF5) ∧ (0x80 ≤ c₁.toNat ∧ c₁.toNat < 0xC0) ∧ (0x80 ≤ c₂.toNat ∧ c₂.toNat < 0xC0) ∧
      (0x80 ≤ c₃.toNat ∧ c₃.toNat < 0xC0) ∧ (c.toNat = 0xF0 → 0x90 ≤ c₁.toNat) ∧ (c.toNat = 0xF4 → c₁.toNat < 0x90) := by
  have hmask : isValidSeq4 [c, c₁, c₂, c₃] ↔
      (c &&& 0xF8 = 0xF0 ∧ c₁ &&& 0xC0 = 0x80 ∧ c₂ &&& 0xC0 = 0x80 ∧ c₃ &&& 0xC0 = 0x80) ∧
        ¬(c &&& 0x07 = 0 ∧ c₁ &&& 0x30 = 0) ∧
          ((c &&& 0x07) &&& 0x04 = 0 ∨ (c &&& 0x07) &&& 0x03 = 0 ∧ (c₁ &&& 0x30) &&& 0x30 = 0) := by
    simp [isValidSeq4, masked]
    tauto
  rw [hmask, lead4_mask, tail_mask, tail_mask, tail_mask]
  constructor
  · rintro ⟨⟨hc, hc₁, hc₂, hc₃⟩, hlong, hlast⟩
    rw [(lead4_rest_mask c hc).1, (tail4_mask c₁ hc₁).1] at hlong
    rw [(lead4_rest_mask c hc).2.1, (lead4_rest_mask c hc).2.2, (tail4_mask c₁ hc₁).2] at hlast
    exact ⟨by omega, hc₁, hc₂, hc₃, by omega, by omega⟩
  · rintro ⟨hc, hc₁, hc₂, hc₃, hlong, hlast⟩
    have hc' : 0xF0 ≤ c.toNat ∧ c.toNat < 0xF8 := by omega
    rw [(lead4_rest_mask c hc').1, (tail4_mask c₁ hc₁).1, (lead4_rest_mask c hc').2.1, (lead4_rest_mask c hc').2.2,
      (tail4_mask c₁ hc₁).2]
    exact ⟨⟨hc', hc₁, hc₂, hc₃⟩, by omega, by omega⟩

/-! ### Strings -/

def Buffer.add (buf : Buffer) (bytes : List UInt8) : Buffer := { buf with text := buf.text ++ bytes }

section Buffers
variable {buf : Buffer} {bytes more : List UInt8} {stored : Nat}

@[simp] theorem Buffer.add_alcLen : (buf.add bytes).alcLen = buf.alcLen := rfl
@[simp] theorem Buffer.add_calls : (buf.add bytes).calls = buf.calls := rfl
@[simp] theorem Buffer.add_text : (buf.add bytes).text = buf.text ++ bytes := rfl
theorem Buffer.add_nil : buf.add [] = buf := by rw [Buffer.add, List.append_nil]
theorem Buffer.add_add : (buf.add bytes).add more = buf.add (bytes ++ more) := by rw [Buffer.add, Buffer.add, Buffer.add, List.append_assoc]

theorem Buffer.put_eq (h : buf.text.length + stored ≤ buf.alcLen) : buf.put bytes stored = .ok (buf.add bytes) := if_pos h

end Buffers

section Chars
variable {buf : Buffer} {rest : List UInt8}

theorem spell_of_ge {c : Char} (h : 0x80 ≤ c.toNat) : spell c = [c] := by
  have hnone : escapes.find? (·.1 = c) = none := by
    refine List.find?_eq_none.mpr fun entry hentry heq => ?_
    have hc : entry.1 = c := of_decide_eq_true heq
    have hsmall : ∀ entry ∈ escapes, entry.1.toNat < 0x80 := by decide
    exact absurd (hc ▸ hsmall entry hentry) (Nat.not_lt_of_le h)
  rw [spell, hnone]
  exact if_neg (by omega)

theorem utf8EncodeChar_ascii {c : Char} (h : c.toNat < 0x80) : String.utf8EncodeChar c = [UInt8.ofNat c.toNat] := by
  rw [String.utf8EncodeChar]
  exact if_pos (Nat.le_of_lt_succ h)

theorem spelled_ofNat {c : Char} (h : c.toNat < 0x80) : spelled (UInt8.ofNat c.toNat) = encode (spell c) := by
  rw [spelled, toNat_ofNat (by omega), Char.ofNat_toNat]

/-- No spelling takes more than six times the bytes of its character. -/
theorem length_spell_le (c : Char) : (encode (spell c)).length ≤ 6 * (String.utf8EncodeChar c).length := by
  by_cases hascii : c.toNat < 0x80
  · rw [← spelled_ofNat hascii, utf8EncodeChar_ascii hascii]
    exact length_spelled_le _ (by rw [toNat_ofNat (by omega)]; exact hascii)
  · rw [spell_of_ge (Nat.le_of_not_lt hascii), encode_cons, encode_nil, List.append_nil]
    omega

/-- What the writer puts for the bytes of a character. -/
def spelledSeq : List UInt8 → List UInt8
  | [c] => spelled c
  | l => l

theorem spelledSeq_encodeChar (c : Char) : spelledSeq (String.utf8EncodeChar c) = encode (spell c) := by
  by_cases hascii : c.toNat < 0x80
  · rw [utf8EncodeChar_ascii hascii, ← spelled_ofNat hascii]
    rfl
  · have hlength : (String.utf8EncodeChar c).length ≠ 1 := by
      rw [String.length_utf8EncodeChar]
      exact mt Char.utf8Size_eq_one_iff.mp fun hle => hascii (Nat.lt_succ_of_le hle)
    rw [spell_of_ge (Nat.le_of_not_lt hascii), encode_cons, encode_nil, List.append_nil]
    unfold spelledSeq
    split
    · rename_i heq
      exact absurd (congrArg List.length heq) hlength
    · rfl

/-- A character is copied or escaped. -/
theorem encodeChar_sequence {l : List UInt8} (h : Sequence l) (rest : List UInt8) : ∃ c tail stored, l = c :: tail ∧
    encodeChar c (tail ++ rest) = .ok ⟨spelledSeq l, stored, rest⟩ ∧ stored ≤ 6 * l.length := by
  cases h with
  | @one c h =>
    have hshort : ¬((c :: rest).length < 4 ∧ (c :: rest).length < charEncType c / 2) := by
      have hlength : 0 < (c :: rest).length := Nat.zero_lt_succ _
      rcases charEncType_ascii c h with ⟨htype, -⟩ | ⟨htype, -⟩ | ⟨htype, -⟩ <;> rw [htype] <;>
        simp only [charEncCpy1, charEncEscA, charEncEsc1] <;> omega
    rcases charEncType_ascii c h with ⟨htype, hspelled⟩ | ⟨htype, hspelled⟩ | ⟨htype, hspelled⟩
    · refine ⟨c, [], 1, rfl, ?_, Nat.le_add_left 1 5⟩
      rw [List.nil_append, encodeChar.eq_def, if_neg hshort, htype, if_pos rfl, spelledSeq, hspelled]
    · refine ⟨c, [], 2, rfl, ?_, Nat.le_add_left 2 4⟩
      rw [List.nil_append, encodeChar.eq_def, if_neg hshort, htype, if_neg (by decide), if_neg (by decide), if_neg (by decide),
        if_neg (by decide), if_pos rfl, spelledSeq, hspelled]
    · refine ⟨c, [], 6, rfl, ?_, Nat.le_refl 6⟩
      rw [List.nil_append, encodeChar.eq_def, if_neg hshort, htype, if_neg (by decide), if_neg (by decide), if_neg (by decide),
        if_neg (by decide), if_neg (by decide), if_pos rfl, spelledSeq, hspelled]
  | @two c c₁ h₀ h₁ =>
    have htype : charEncType c = charEncCpy2 := by
      rw [charEncType_of_ge c (by omega), if_neg (by omega), if_pos (by omega)]
    refine ⟨c, [c₁], 2, rfl, ?_, Nat.le_add_left 2 10⟩
    rw [List.singleton_append, encodeChar.eq_def, htype, if_neg (by simp [charEncCpy2]), if_neg (by decide), if_pos rfl]
    exact if_pos (isValidSeq2_iff.mpr ⟨h₀, h₁⟩)
  | @three c c₁ c₂ h₀ h₁ h₂ long surrogate =>
    have htype : charEncType c = charEncCpy3 := by
      rw [charEncType_of_ge c (by omega), if_neg (by omega), if_neg (by omega), if_pos (by omega)]
    refine ⟨c, [c₁, c₂], 4, rfl, ?_, Nat.le_add_left 4 14⟩
    rw [encodeChar.eq_def, htype, if_neg (by simp [charEncCpy3]), if_neg (by decide), if_neg (by decide), if_pos rfl]
    exact if_pos (isValidSeq3_iff.mpr ⟨h₀, h₁, h₂, long, surrogate⟩)
  | @four c c₁ c₂ c₃ h₀ h₁ h₂ h₃ long last =>
    have htype : charEncType c = charEncCpy4 := by
      rw [charEncType_of_ge c (by omega), if_neg (by omega), if_neg (by omega), if_neg (by omega), if_pos (by omega)]
    refine ⟨c, [c₁, c₂, c₃], 4, rfl, ?_, Nat.le_add_left 4 20⟩
    rw [encodeChar.eq_def, htype, if_neg (by simp [charEncCpy4]), if_neg (by decide), if_neg (by decide), if_neg (by decide), if_pos rfl]
    exact if_pos (isValidSeq4_iff.mpr ⟨h₀, h₁, h₂, h₃, long, last⟩)

/-- What does not begin with a character is refused. -/
theorem encodeChar_refuses (c : UInt8) (src : List UInt8) :
    (∃ l rest, Sequence l ∧ c :: src = l ++ rest) ∨ encodeChar c src = .error .invalidString := by
  by_cases hascii : c.toNat < 0x80
  · exact Or.inl ⟨[c], src, .one hascii, rfl⟩
  have htype := charEncType_of_ge c (Nat.le_of_not_lt hascii)
  rw [encodeChar.eq_def]
  by_cases hshort : (c :: src).length < 4 ∧ (c :: src).length < charEncType c / 2
  · exact Or.inr (if_pos hshort)
  rw [if_neg hshort]
  by_cases h2 : 0xC0 ≤ c.toNat ∧ c.toNat < 0xE0
  · rw [if_neg (by omega), if_pos h2.2] at htype
    rw [htype] at hshort ⊢
    rw [if_neg (by decide), if_pos rfl]
    rcases src with _ | ⟨c₁, src⟩
    · exact absurd (by simp [charEncCpy2]) hshort
    by_cases hvalid : isValidSeq2 [c, c₁]
    · obtain ⟨h₀, h₁⟩ := isValidSeq2_iff.mp hvalid
      exact Or.inl ⟨[c, c₁], src, .two h₀ h₁, rfl⟩
    · exact Or.inr (if_neg hvalid)
  by_cases h3 : 0xE0 ≤ c.toNat ∧ c.toNat < 0xF0
  · rw [if_neg (by omega), if_neg (by omega), if_pos h3.2] at htype
    rw [htype] at hshort ⊢
    rw [if_neg (by decide), if_neg (by decide), if_pos rfl]
    rcases src with _ | ⟨c₁, _ | ⟨c₂, src⟩⟩
    · exact absurd (by simp [charEncCpy3]) hshort
    · exact absurd (by simp [charEncCpy3]) hshort
    by_cases hvalid : isValidSeq3 [c, c₁, c₂]
    · obtain ⟨h₀, h₁, h₂, long, surrogate⟩ := isValidSeq3_iff.mp hvalid
      exact Or.inl ⟨[c, c₁, c₂], src, .three h₀ h₁ h₂ long surrogate, rfl⟩
    · exact Or.inr (if_neg hvalid)
  by_cases h4 : 0xF0 ≤ c.toNat ∧ c.toNat < 0xF8
  · rw [if_neg (by omega), if_neg (by omega), if_neg (by omega), if_pos h4.2] at htype
    rw [htype] at hshort ⊢
    rw [if_neg (by decide), if_neg (by decide), if_neg (by decide), if_pos rfl]
    rcases src with _ | ⟨c₁, _ | ⟨c₂, _ | ⟨c₃, src⟩⟩⟩
    · exact absurd (by simp [charEncCpy4]) hshort
    · exact absurd (by simp [charEncCpy4]) hshort
    · exact absurd (by simp [charEncCpy4]) hshort
    by_cases hvalid : isValidSeq4 [c, c₁, c₂, c₃]
    · obtain ⟨h₀, h₁, h₂, h₃, long, last⟩ := isValidSeq4_iff.mp hvalid
      exact Or.inl ⟨[c, c₁, c₂, c₃], src, .four h₀ h₁ h₂ h₃ long last, rfl⟩
    · exact Or.inr (if_neg hvalid)
  -- the byte begins no character
  · have herr : charEncType c = charEncErr1 := by
      rw [htype]
      split_ifs <;> first | rfl | omega
    rw [herr, if_neg (by decide), if_neg (by decide), if_neg (by decide), if_neg (by decide), if_neg (by decide), if_neg (by decide)]
    exact Or.inr rfl

theorem ok_bind {α β : Type} (a : α) (f : α → Except WriteError β) : (Except.ok a >>= f) = f a := rfl

theorem error_bind {α β : Type} (e : WriteError) (f : α → Except WriteError β) : (Except.error e >>= f) = .error e := rfl

theorem writeChars_char (fuel : Nat) (c : Char) (room : buf.text.length + 6 * (String.utf8EncodeChar c).length ≤ buf.alcLen) :
    writeChars (fuel + 1) (String.utf8EncodeChar c ++ rest) buf = writeChars fuel rest (buf.add (encode (spell c))) := by
  obtain ⟨first, tail, stored, hchar, hput, hstored⟩ := encodeChar_sequence (sequence_encodeChar c) rest
  rw [← spelledSeq_encodeChar, hchar, List.cons_append, writeChars, hput, ok_bind, hchar]
  rw [Buffer.put_eq (Nat.le_trans (Nat.add_le_add_left hstored _) room), ok_bind]

/-- A string of characters is put, and 6 bytes for each of its own are enough. -/
theorem writeChars_encode {cs : List Char} {fuel : Nat} (hfuel : cs.length ≤ fuel)
    (room : buf.text.length + 6 * (encode cs).length ≤ buf.alcLen) :
    writeChars fuel (encode cs) buf = .ok (buf.add (encode (cs.flatMap spell))) := by
  induction cs generalizing buf fuel with
  | nil =>
    rw [encode_nil, List.flatMap_nil, encode_nil, Buffer.add_nil]
    cases fuel <;> rfl
  | cons c cs ih =>
    obtain ⟨fuel, rfl⟩ : ∃ k, fuel = k + 1 := ⟨fuel - 1, by rw [List.length_cons] at hfuel; omega⟩
    have hlength := length_spell_le c
    rw [encode_cons, List.length_append] at room
    rw [encode_cons, writeChars_char fuel c (by omega), ih (Nat.le_of_succ_le_succ hfuel), Buffer.add_add, List.flatMap_cons,
      encode_append]
    rw [Buffer.add_text, List.length_append, Buffer.add_alcLen]
    omega

/-- The writer refuses a string exactly when it is not UTF-8. -/
theorem writeChars_encode_or {str : List UInt8} {fuel : Nat} (hfuel : str.length ≤ fuel)
    (room : buf.text.length + 6 * str.length ≤ buf.alcLen) :
    (∃ cs, str = encode cs) ∨ writeChars fuel str buf = .error .invalidString := by
  induction fuel generalizing str buf with
  | zero => exact Or.inl ⟨[], List.eq_nil_of_length_eq_zero (Nat.le_zero.mp hfuel)⟩
  | succ fuel ih =>
    rcases str with _ | ⟨c, src⟩
    · exact Or.inl ⟨[], rfl⟩
    rcases encodeChar_refuses c src with ⟨l, rest, hl, hsplit⟩ | herr
    · obtain ⟨d, rfl⟩ := hl.exists_char
      have hpos : 0 < (String.utf8EncodeChar d).length := by
        rw [String.length_utf8EncodeChar]
        exact Char.utf8Size_pos d
      have hspell := length_spell_le d
      rw [hsplit, List.length_append] at room hfuel
      have hroom : (buf.add (encode (spell d))).text.length + 6 * rest.length ≤ (buf.add (encode (spell d))).alcLen := by
        rw [Buffer.add_text, List.length_append, Buffer.add_alcLen]
        omega
      rcases ih (by omega) hroom with ⟨cs, rfl⟩ | herr
      · exact Or.inl ⟨d :: cs, by rw [hsplit, encode_cons]⟩
      · exact Or.inr (by rw [hsplit, writeChars_char fuel d (by omega), herr])
    · exact Or.inr (by rw [writeChars, herr, error_bind])

theorem length_encode_spell_le (cs : List Char) : (encode (cs.flatMap spell)).length ≤ 6 * (encode cs).length := by
  induction cs with
  | nil => exact Nat.zero_le _
  | cons c cs ih =>
    have hspell := length_spell_le c
    rw [List.flatMap_cons, encode_append, encode_cons, List.length_append, List.length_append]
    omega

theorem encode_writeString (cs : List Char) :
    encode (Json.writeString spell cs) = '"'.toUInt8 :: (encode (cs.flatMap spell) ++ ['"'.toUInt8]) := by
  rw [Json.writeString, encode_append, encode_cons]
  rfl

/-- A string of `n` bytes takes at most `6 * n + 2` bytes. -/
theorem writeString_encode {cs : List Char} (room : buf.text.length + (6 * (encode cs).length + 2) ≤ buf.alcLen) :
    writeString (encode cs) buf = .ok (buf.add (encode (Json.writeString spell cs))) := by
  have hlength := length_encode_spell_le cs
  have hchars : writeChars (encode cs).length (encode cs) (buf.add ['"'.toUInt8]) =
      .ok ((buf.add ['"'.toUInt8]).add (encode (cs.flatMap spell))) :=
    writeChars_encode (length_le_encode cs) (by rw [Buffer.add_text, List.length_append, List.length_singleton, Buffer.add_alcLen]; omega)
  simp only [writeString, Buffer.put_eq (show buf.text.length + 1 ≤ buf.alcLen by omega), bind, Except.bind, hchars]
  rw [Buffer.add_add, Buffer.put_eq (by simp; omega), Buffer.add_add, encode_writeString, List.append_assoc, List.singleton_append]

theorem writeString_encode_or {str : List UInt8} (room : buf.text.length + (6 * str.length + 2) ≤ buf.alcLen) :
    (∃ cs, str = encode cs) ∨ writeString str buf = .error .invalidString := by
  have hroom : (buf.add ['"'.toUInt8]).text.length + 6 * str.length ≤ (buf.add ['"'.toUInt8]).alcLen := by
    rw [Buffer.add_text, List.length_append, List.length_singleton, Buffer.add_alcLen]
    omega
  refine (writeChars_encode_or (Nat.le_refl _) hroom).imp_right fun herr => ?_
  simp only [writeString, Buffer.put_eq (show buf.text.length + 1 ≤ buf.alcLen by omega), bind, Except.bind, herr]

/-- A string that is marked to need no escapes is put as the other way would put it. -/
theorem writeStringNoesc_eq {constantP : List UInt8 → Bool} {str : List UInt8} (hnoesc : isStrNoesc constantP str)
    (room : buf.text.length + (6 * str.length + 2) ≤ buf.alcLen) : writeStringNoesc str buf = writeString str buf := by
  have hplain : ∀ c ∈ str, c.toNat < 0x80 ∧ spelled c = [c] := by
    simp only [isStrNoesc, Bool.and_eq_true, List.all_eq_true, decide_eq_true_eq] at hnoesc
    exact fun c hc => spelled_noesc c (hnoesc.2 c hc)
  have hencode : str = encode (str.map fun c => Char.ofNat c.toNat) ∧
      str = encode ((str.map fun c => Char.ofNat c.toNat).flatMap spell) := by
    clear hnoesc room
    induction str with
    | nil => exact ⟨rfl, rfl⟩
    | cons c str ih =>
      obtain ⟨hascii, hspelled⟩ := hplain c List.mem_cons_self
      obtain ⟨h₁, h₂⟩ := ih fun d hd => hplain d (List.mem_cons_of_mem c hd)
      have hval : (Char.ofNat c.toNat).toNat = c.toNat := val_ofNat (Or.inl (by omega))
      have hchar : String.utf8EncodeChar (Char.ofNat c.toNat) = [c] := by
        rw [utf8EncodeChar_ascii (by omega), hval, UInt8.ofNat_toNat]
      rw [List.map_cons, encode_cons, hchar, List.flatMap_cons, encode_append, ← h₁, ← h₂]
      exact ⟨rfl, by rw [← spelled, hspelled]; rfl⟩
  have hlength : str.length = (encode (str.map fun c => Char.ofNat c.toNat)).length := congrArg List.length hencode.1
  have hput : writeString (encode (str.map fun c => Char.ofNat c.toNat)) buf = _ := writeString_encode (by omega)
  rw [← hencode.1] at hput
  rw [hput, writeStringNoesc, Buffer.put_eq (by omega), encode_writeString, ← hencode.2, List.append_assoc, List.singleton_append]

end Chars

end Vcmp.Yyjson
