import Mathlib.Data.List.Basic

/-! A stream made of blocks, and the part of it that has arrived. -/

namespace Blocks
variable {α : Type}

/-- How many blocks lie wholly among the first `n` elements of the stream. -/
def whole : List (List α) → Nat → Nat
  | [], _ => 0
  | b :: bs, n => if b.length ≤ n then whole bs (n - b.length) + 1 else 0

/-- How many of the first `n` elements belong to a block that is not whole yet. -/
def left (bs : List (List α)) (n : Nat) : Nat := n - (bs.take (whole bs n)).flatten.length

/-- Each read of the stream, in the given lengths and with `n` elements left from before, completes a block and
    leaves at most `slack` elements. -/
def Aligned (slack : Nat) : List (List α) → Nat → List Nat → Prop
  | _, _, [] => True
  | bs, n, r :: rs => 1 ≤ whole bs (n + r) ∧ left bs (n + r) ≤ slack ∧
      Aligned slack (bs.drop (whole bs (n + r))) (left bs (n + r)) rs

instance decidableAligned (slack : Nat) (bs : List (List α)) (n : Nat) (rs : List Nat) :
    Decidable (Aligned slack bs n rs) :=
  match rs with
  | [] => isTrue trivial
  | r :: rs =>
    have := decidableAligned slack (bs.drop (whole bs (n + r))) (left bs (n + r)) rs
    inferInstanceAs (Decidable (_ ∧ _ ∧ _))

variable {bs : List (List α)} {front back : List α}

theorem whole_le (bs : List (List α)) (n : Nat) : whole bs n ≤ bs.length := by
  induction bs generalizing n with
  | nil => exact Nat.le_refl 0
  | cons b bs ih =>
    rw [whole]
    split
    · exact Nat.succ_le_succ (ih _)
    · exact Nat.zero_le _

/-- What has arrived is the blocks that are whole and the beginning of the rest of the stream. -/
theorem split (h : front ++ back = bs.flatten) :
    ∃ rest, front = (bs.take (whole bs front.length)).flatten ++ rest ∧
      rest ++ back = (bs.drop (whole bs front.length)).flatten := by
  induction bs generalizing front with
  | nil => exact ⟨front, rfl, h⟩
  | cons b bs ih =>
    by_cases hle : b.length ≤ front.length
    · obtain ⟨tail, rfl⟩ : b <+: front := by
        refine List.prefix_of_prefix_length_le ⟨bs.flatten, ?_⟩ ⟨back, h⟩ hle
        rw [List.flatten_cons]
      rw [List.flatten_cons, List.append_assoc] at h
      obtain ⟨rest, hfront, hrest⟩ := ih (List.append_cancel_left h)
      have hwhole : whole (b :: bs) (b ++ tail).length = whole bs tail.length + 1 := by
        rw [whole, if_pos hle, List.length_append, Nat.add_sub_cancel_left]
      rw [hwhole, List.take_succ_cons, List.drop_succ_cons, List.flatten_cons]
      refine ⟨rest, ?_, hrest⟩
      rw [List.append_assoc, ← hfront]
    · rw [whole, if_neg hle]
      exact ⟨front, rfl, h⟩

theorem whole_flatten (bs : List (List α)) : whole bs bs.flatten.length = bs.length := by
  induction bs with
  | nil => rfl
  | cons b bs ih =>
    rw [List.flatten_cons, List.length_append, whole, if_pos (Nat.le_add_right _ _), Nat.add_sub_cancel_left, ih,
      List.length_cons]

/-- The blocks that are whole later on are those that are whole now and those that the elements left over
    complete with the next `k`. -/
theorem whole_add (bs : List (List α)) (n k : Nat) :
    whole bs (n + k) = whole bs n + whole (bs.drop (whole bs n)) (left bs n + k) := by
  induction bs generalizing n with
  | nil => rfl
  | cons b bs ih =>
    by_cases hle : b.length ≤ n
    · have hleft : left (b :: bs) n = left bs (n - b.length) := by
        rw [left, left, whole, if_pos hle, List.take_succ_cons, List.flatten_cons, List.length_append, Nat.sub_sub]
      have hsub : n + k - b.length = n - b.length + k := Nat.sub_add_comm hle
      rw [hleft, whole, whole, if_pos hle, if_pos (Nat.le_add_right_of_le hle), List.drop_succ_cons, hsub, ih]
      exact Nat.add_right_comm _ _ _
    · have hleft : left (b :: bs) n = n := by rw [left, whole, if_neg hle, List.take_zero, List.flatten_nil]; rfl
      have hzero : whole (b :: bs) n = 0 := by rw [whole, if_neg hle]
      rw [hleft, hzero, List.drop_zero, Nat.zero_add]

theorem left_eq {rest : List α} (h : front = (bs.take (whole bs front.length)).flatten ++ rest) :
    left bs front.length = rest.length := by
  have hlen := congrArg List.length h
  rw [List.length_append] at hlen
  rw [left]
  omega

end Blocks
