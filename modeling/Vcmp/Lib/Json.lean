import Mathlib.Data.List.Basic

/-! JSON: strings, and objects whose members are strings. -/

namespace Json

def isSpace (c : Char) : Bool := c = ' ' || c = '\t' || c = '\n' || c = '\r'

def skipSpace (s : List Char) : List Char := s.dropWhile isSpace

/-! ### Strings -/

def hexValue (c : Char) : Option Nat :=
  if '0' ≤ c ∧ c ≤ '9' then some (c.toNat - '0'.toNat)
  else if 'a' ≤ c ∧ c ≤ 'f' then some (c.toNat - 'a'.toNat + 10)
  else if 'A' ≤ c ∧ c ≤ 'F' then some (c.toNat - 'A'.toNat + 10)
  else none

def readHex : List Char → Option (Nat × List Char)
  | a :: b :: c :: d :: rest => do
    return ((((← hexValue a) * 16 + (← hexValue b)) * 16 + (← hexValue c)) * 16 + (← hexValue d), rest)
  | _ => none

/-- What stands behind a `\u`: four digits, or the halves of a surrogate pair. -/
def readUnicode (s : List Char) : Option (Char × List Char) := do
  let (hi, rest) ← readHex s
  if hi < 0xD800 ∨ 0xDFFF < hi then return (Char.ofNat hi, rest)
  if 0xDC00 ≤ hi then none else
  match rest with
  | '\\' :: 'u' :: rest =>
    let (lo, rest) ← readHex rest
    if 0xDC00 ≤ lo ∧ lo ≤ 0xDFFF then return (Char.ofNat (0x10000 + (hi - 0xD800) * 0x400 + (lo - 0xDC00)), rest) else none
  | _ => none

def readEscape : List Char → Option (Char × List Char)
  | [] => none
  | c :: rest =>
    if c = '"' ∨ c = '\\' ∨ c = '/' then some (c, rest)
    else if c = 'b' then some ('\x08', rest)
    else if c = 'f' then some ('\x0C', rest)
    else if c = 'n' then some ('\n', rest)
    else if c = 'r' then some ('\r', rest)
    else if c = 't' then some ('\t', rest)
    else if c = 'u' then readUnicode rest
    else none

/-- One character of a string. -/
def readChar : List Char → Option (Char × List Char)
  | [] => none
  | c :: rest => if c = '\\' then readEscape rest else if c = '"' ∨ c.toNat < 0x20 then none else some (c, rest)

def readChars : Nat → List Char → Option (List Char × List Char)
  | 0, _ => none
  | fuel + 1, s =>
    if s.head? = some '"' then some ([], s.tail) else do
    let (c, rest) ← readChar s
    let (cs, rest) ← readChars fuel rest
    return (c :: cs, rest)

/-- A string and what stands behind it. -/
def readString (s : List Char) : Option (List Char × List Char) :=
  if s.head? = some '"' then readChars s.length s.tail else none

/-! ### Objects -/

/-- A character that may have space in front of it. -/
def expect (c : Char) (s : List Char) : Option (List Char) :=
  if (skipSpace s).head? = some c then some (skipSpace s).tail else none

def readMember (s : List Char) : Option ((List Char × List Char) × List Char) := do
  let (key, rest) ← readString (skipSpace s)
  let (value, rest) ← readString (skipSpace (← expect ':' rest))
  return ((key, value), rest)

/-- The members up to the closing brace. -/
def readMembers : Nat → List Char → Option (List (List Char × List Char) × List Char)
  | 0, _ => none
  | fuel + 1, s => do
    let (member, rest) ← readMember s
    if let some rest := expect '}' rest then return ([member], rest)
    let (members, rest) ← readMembers fuel (← expect ',' rest)
    return (member :: members, rest)

/-- A whole text that is an object of strings. -/
def readObject (s : List Char) : Option (List (List Char × List Char)) := do
  let s ← expect '{' s
  let (members, rest) ←
    if let some rest := expect '}' s then pure ([], rest) else readMembers s.length s
  if skipSpace rest = [] then return members else none

/-! ### Writers -/

section Writers
variable (spell : Char → List Char)

/-- A string whose characters are spelled one after another. -/
def writeString (cs : List Char) : List Char := '"' :: cs.flatMap spell ++ ['"']

def writeMember (member : List Char × List Char) : List Char := writeString spell member.1 ++ ':' :: writeString spell member.2

/-- An object without any space in it. -/
def writeObject (members : List (List Char × List Char)) : List Char :=
  '{' :: [','].intercalate (members.map (writeMember spell)) ++ ['}']

/-- A spelling reads back as the character that it spells. -/
def Spells : Prop := ∀ c rest, readChar (spell c ++ rest) = some (c, rest)

end Writers

/-! ### What is written reads back -/

theorem skipSpace_cons {c : Char} {s : List Char} (h : isSpace c = false) : skipSpace (c :: s) = c :: s := by
  rw [skipSpace, List.dropWhile_cons, h]
  rfl

theorem expect_cons {c : Char} {s : List Char} (h : isSpace c = false) : expect c (c :: s) = some s := by
  rw [expect, skipSpace_cons h]
  exact if_pos rfl

theorem expect_ne {c d : Char} {s : List Char} (h : isSpace d = false) (hne : d ≠ c) : expect c (d :: s) = none := by
  rw [expect, skipSpace_cons h]
  exact if_neg fun h' => hne (Option.some.inj h')

theorem readChar_quote (s : List Char) : readChar ('"' :: s) = none := rfl

section RoundTrip
variable {spell : Char → List Char} {cs rest : List Char}

theorem writeMembers_cons (first second : List Char × List Char) (members : List (List Char × List Char)) :
    [','].intercalate ((first :: second :: members).map (writeMember spell)) =
      writeMember spell first ++ ',' :: [','].intercalate ((second :: members).map (writeMember spell)) := by
  rw [List.map_cons, List.intercalate_cons_of_ne_nil (by simp), List.append_assoc, List.singleton_append]

theorem length_le_writeMembers (members : List (List Char × List Char)) :
    members.length ≤ ([','].intercalate (members.map (writeMember spell))).length := by
  have hmember (member : List Char × List Char) : 0 < (writeMember spell member).length := Nat.zero_lt_succ _
  induction members with
  | nil => exact Nat.zero_le _
  | cons member members ih =>
    cases members with
    | nil =>
      rw [List.map_singleton, List.intercalate_singleton]
      exact hmember member
    | cons second members =>
      have hfirst := hmember member
      rw [writeMembers_cons, List.length_append, List.length_cons]
      refine Nat.le_trans (Nat.add_le_add_right ih 1) ?_
      rw [List.length_cons]
      omega

/-- Members with a comma behind each of them are the members and one more comma. -/
theorem flatMap_writeMember {members : List (List Char × List Char)} (hne : members ≠ []) :
    (members.flatMap fun member => writeMember spell member ++ [',']) =
      [','].intercalate (members.map (writeMember spell)) ++ [','] := by
  induction members with
  | nil => exact absurd rfl hne
  | cons member members ih =>
    cases members with
    | nil => rw [List.flatMap_singleton, List.map_singleton, List.intercalate_singleton]
    | cons second members =>
      rw [List.flatMap_cons, ih (List.cons_ne_nil _ _), writeMembers_cons]
      simp only [List.append_assoc, List.cons_append, List.nil_append]

variable (hspell : Spells spell)
include hspell

/-- No spelling begins as the end of a string does. -/
theorem Spells.head_ne (c : Char) (rest : List Char) : (spell c ++ rest).head? ≠ some '"' := by
  intro h
  obtain ⟨s, hs⟩ := List.head?_eq_some_iff.mp h
  have hread := hspell c rest
  rw [hs, readChar_quote] at hread
  cases hread

theorem Spells.length_pos (c : Char) : 0 < (spell c).length := by
  refine List.length_pos_of_ne_nil fun h => ?_
  have hread := hspell c []
  rw [h] at hread
  cases hread

theorem Spells.length_le (cs : List Char) : cs.length ≤ (cs.flatMap spell).length := by
  induction cs with
  | nil => exact Nat.zero_le _
  | cons c cs ih =>
    rw [List.flatMap_cons, List.length_append, List.length_cons]
    have hpos := hspell.length_pos c
    omega

theorem Spells.readChars {fuel : Nat} (h : cs.length < fuel) :
    readChars fuel (cs.flatMap spell ++ '"' :: rest) = some (cs, rest) := by
  induction cs generalizing fuel with
  | nil =>
    obtain ⟨fuel, rfl⟩ := Nat.exists_eq_add_of_lt h
    simp [Json.readChars]
  | cons c cs ih =>
    obtain ⟨fuel, rfl⟩ : ∃ k, fuel = k + 1 := ⟨fuel - 1, by omega⟩
    rw [List.flatMap_cons, List.append_assoc, Json.readChars, if_neg (hspell.head_ne c _), hspell c]
    simp only [Option.bind_eq_bind, Option.bind_some, ih (Nat.lt_of_succ_lt_succ h)]
    rfl

theorem Spells.readString : readString (writeString spell cs ++ rest) = some (cs, rest) := by
  have htext : writeString spell cs ++ rest = '"' :: (cs.flatMap spell ++ '"' :: rest) := by simp [writeString]
  have hlength := hspell.length_le cs
  rw [htext, Json.readString, List.head?_cons, if_pos rfl, List.tail_cons]
  refine hspell.readChars ?_
  simp only [List.length_cons, List.length_append]
  omega

theorem Spells.readMember (member : List Char × List Char) :
    readMember (writeMember spell member ++ rest) = some (member, rest) := by
  have hspace (cs s : List Char) : skipSpace (writeString spell cs ++ s) = writeString spell cs ++ s := skipSpace_cons rfl
  rw [writeMember, List.append_assoc, List.cons_append, Json.readMember, hspace, hspell.readString]
  simp only [Option.bind_eq_bind, Option.bind_some, expect_cons (show isSpace ':' = false from rfl), hspace, hspell.readString]
  rfl

theorem Spells.readMembers {members : List (List Char × List Char)} (hne : members ≠ []) {fuel : Nat} (h : members.length ≤ fuel) :
    readMembers fuel ([','].intercalate (members.map (writeMember spell)) ++ '}' :: rest) = some (members, rest) := by
  induction members generalizing fuel with
  | nil => exact absurd rfl hne
  | cons member members ih =>
    obtain ⟨fuel, rfl⟩ : ∃ k, fuel = k + 1 := ⟨fuel - 1, by rw [List.length_cons] at h; omega⟩
    rw [Json.readMembers]
    cases members with
    | nil =>
      rw [List.map_singleton, List.intercalate_singleton, hspell.readMember]
      simp only [Option.bind_eq_bind, Option.bind_some, expect_cons (show isSpace '}' = false from rfl)]
      rfl
    | cons second members =>
      rw [writeMembers_cons, List.append_assoc, List.cons_append, hspell.readMember]
      simp only [Option.bind_eq_bind, Option.bind_some, expect_ne (show isSpace ',' = false from rfl) (show ',' ≠ '}' by decide),
        expect_cons (show isSpace ',' = false from rfl), ih (List.cons_ne_nil _ _) (Nat.le_of_succ_le_succ h)]
      rfl

/-- What is written reads back, however the characters are spelled. -/
theorem Spells.readObject (members : List (List Char × List Char)) : readObject (writeObject spell members) = some members := by
  rw [writeObject, List.cons_append, Json.readObject, expect_cons rfl]
  simp only [Option.bind_eq_bind, Option.bind_some]
  cases members with
  | nil => rfl
  | cons member members =>
    have hfirst : expect '}' ([','].intercalate ((member :: members).map (writeMember spell)) ++ ['}']) = none := by
      cases members <;> exact expect_ne rfl (by decide)
    have hlength : (member :: members).length ≤
        ([','].intercalate ((member :: members).map (writeMember spell)) ++ ['}']).length := by
      rw [List.length_append]
      exact Nat.le_trans (length_le_writeMembers _) (Nat.le_add_right _ _)
    rw [hfirst, hspell.readMembers (List.cons_ne_nil _ _) hlength]
    rfl

end RoundTrip

end Json
