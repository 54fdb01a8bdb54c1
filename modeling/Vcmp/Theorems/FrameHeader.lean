import Vcmp.Theorems.FrameEncode

/-! Where `ws_make_frame` writes: the size of the header that it chooses against the room in the buffer, of which it
    checks the first two bytes only. -/

namespace Vcmp
open ByteMem

variable {fin : Bool} {opcode : UInt8} {len bufLen : UInt64} {m : Mem}

/-- The header is refused and the buffer left as it was, or it has the size that `ws_calc_frame_size` gives, fits, and is
    stored in the bytes in front and nowhere else. -/
def FitsBuffer (fin : Bool) (opcode : UInt8) (len bufLen : UInt64) (m : Mem) : Prop :=
  let r := (wsMakeFrame fin opcode len bufLen).run { mem := m }
  (r.1 = -1 ∧ r.2.mem = m ∧ r.2.touched = []) ∨
    ∃ n : Nat, r.1 = n ∧ wsCalcFrameSize len = n ∧ n ≤ bufLen.toNat ∧ (∀ i, i ∈ r.2.touched ↔ i < n) ∧
      ∀ i, n ≤ i → r.2.mem i = m i

theorem wsMakeFrame_short (h : bufLen < 2) : (wsMakeFrame fin opcode len bufLen).run { mem := m } = (-1, { mem := m }) := by
  rw [wsMakeFrame, if_pos h]
  rfl

/-- Each byte of the header is stored, and no other. -/
theorem touched_wsMakeFrame (h : 2 ≤ bufLen) (i : Nat) :
    i ∈ ((wsMakeFrame fin opcode len bufLen).run { mem := m }).2.touched ↔ (i : Int) < wsCalcFrameSize len := by
  have room : ¬bufLen < 2 := UInt64.not_lt.mpr h
  rw [wsCalcFrameSize]
  by_cases h7 : len ≤ 125
  · simp only [wsMakeFrame, room, h7, if_true, if_false, Prog.run_bind, run_store, Prog.run_pure, List.mem_cons,
      List.not_mem_nil, or_false]
    omega
  · by_cases h16 : len ≤ 65535
    · simp only [wsMakeFrame, room, h7, h16, if_true, if_false, Prog.run_bind, run_store, Prog.run_pure, touched_storeBytes,
        ByteOrder.length_toLE, List.mem_append, List.mem_reverse, List.mem_range'_1, List.mem_cons, List.not_mem_nil, or_false]
      omega
    · simp only [wsMakeFrame, room, h7, h16, if_false, Prog.run_bind, run_store, Prog.run_pure, touched_storeBytes,
        ByteOrder.length_toLE, List.mem_append, List.mem_reverse, List.mem_range'_1, List.mem_cons, List.not_mem_nil, or_false]
      omega

/-- A header stays in its buffer exactly where this is too short for any header or has room for the one that the length
    needs. -/
theorem fitsBuffer_iff (fin : Bool) (opcode : UInt8) (len bufLen : UInt64) (m : Mem) :
    FitsBuffer fin opcode len bufLen m ↔ bufLen < 2 ∨ wsCalcFrameSize len ≤ bufLen.toNat := by
  rcases UInt64.lt_or_le bufLen 2 with h | h
  · refine iff_of_true (Or.inl ?_) (Or.inl h)
    rw [wsMakeFrame_short h]
    exact ⟨rfl, rfl, rfl⟩
  obtain ⟨hret, hmem⟩ := run_wsMakeFrame fin opcode len bufLen m h
  have hsize := wsCalcFrameSize_eq fin opcode len
  rw [or_iff_right (UInt64.not_lt.mpr h)]
  constructor
  · rintro (⟨hrefused, -⟩ | ⟨n, -, hn, hroom, -⟩)
    · rw [hret] at hrefused
      omega
    · omega
  · intro hroom
    refine Or.inr ⟨(madeHeader fin opcode len.toNat).length, hret, hsize, by omega, fun i => ?_, fun i hi => ?_⟩
    · rw [touched_wsMakeFrame h, hsize]
      omega
    · rw [hmem, put_zero, ofBytes_of_le hi, Nat.add_sub_cancel' hi]

/-- Two bytes are taken to have room for the header of a payload of 126 bytes. -/
theorem short_buffer_overrun : ¬FitsBuffer true wsOpcodeText 126 2 (fun _ => 0) ∧
    2 ∈ ((wsMakeFrame true wsOpcodeText 126 2).run { mem := fun _ => 0 }).2.touched := by
  have hret : ((wsMakeFrame true wsOpcodeText 126 2).run { mem := fun _ => 0 }).1 = 4 := by decide
  refine ⟨?_, by decide⟩
  rintro (⟨hrefused, -⟩ | ⟨n, hn, -, hroom, -⟩)
  · exact absurd (hret.symm.trans hrefused) (by decide)
  · rw [hret] at hn
    rw [show (2 : UInt64).toNat = 2 from rfl] at hroom
    omega

end Vcmp
