import Vcmp.Theorems.Frame

/-! Which buffers `ws_parse_frame` stays inside. It never looks at `buf_len`, so it depends on the bytes:
    both the declared length and the one that `ntohll` makes of it have to fit. -/

namespace Vcmp
open ByteMem

/-- `ws_parse_frame` run on exactly these bytes, `past` lying behind them, touches only them, refuses a
    frame that is not whole without changing them, and reports a frame that ends among them. -/
def ParseContained (bytes : List UInt8) (past : Mem) (frameOut : WsFrame) : Prop :=
  let r := (wsParseFrame (UInt64.ofNat bytes.length) frameOut).run { mem := ofBytes bytes past }
  Within bytes.length r.2 ∧
    (¬Rfc6455.Whole bytes → r.1.1 = -1 ∧ slice r.2.mem 0 bytes.length = bytes) ∧
    (0 ≤ r.1.1 → r.1.1 + r.1.2.len.toNat ≤ bytes.length)

/-- The buffer holds the two bytes that are always read and, if the frame is masked, the whole frame, also
    with the halves of a 64-bit length exchanged. -/
def Fits (bytes : List UInt8) : Prop :=
  2 ≤ bytes.length ∧ (Rfc6455.masked bytes = true → Rfc6455.Whole bytes ∧
    (Rfc6455.declaredHeader bytes = 14 → 14 + exchangeHalves (Rfc6455.declaredLength bytes) ≤ bytes.length))

section Bounds
variable {bytes : List UInt8} {past : Mem} {frameOut : WsFrame}

theorem one_mem_touched (bufLen : UInt64) (m : Mem) :
    1 ∈ ((wsParseFrame bufLen frameOut).run { mem := m }).2.touched := by
  rcases UInt8.lt_or_le (m 1) 0x80 with h | h
  · rw [wsParseFrame_unmasked _ _ h]
    exact List.mem_cons_self
  · obtain ⟨t, hrun, -, hone, -⟩ := wsParseFrame_masked bufLen frameOut h
    rw [hrun]
    exact hone

theorem parseContained_of_unmasked (two : 2 ≤ bytes.length) (h : ofBytes bytes past 1 < 0x80) :
    ParseContained bytes past frameOut := by
  simp only [ParseContained, wsParseFrame_unmasked _ _ h]
  refine ⟨fun i hi => ?_, fun _ => ⟨trivial, slice_ofBytes_self⟩, fun h0 => absurd h0 (by decide)⟩
  simp only [List.mem_cons, List.not_mem_nil, or_false] at hi
  omega

/-- A masked frame is contained exactly when it is whole and the length the code reads fits as well. -/
theorem parseContained_masked_iff (h : 0x80 ≤ ofBytes bytes past 1) :
    ParseContained bytes past frameOut ↔ Rfc6455.Whole bytes ∧
      parsedHeader (ofBytes bytes past) + (parsedLength (ofBytes bytes past)).toNat ≤ bytes.length := by
  obtain ⟨t, hrun, -, hone, hwithin⟩ := wsParseFrame_masked (UInt64.ofNat bytes.length) frameOut h
  simp only [ParseContained, hrun, parsed]
  constructor
  · rintro ⟨-, hwhole, hend⟩
    refine ⟨?_, ?_⟩
    · by_contra hnot
      have := (hwhole hnot).1
      omega
    · have := hend (Int.natCast_nonneg _)
      omega
  · rintro ⟨hwhole, hend⟩
    refine ⟨fun i hi => ?_, fun hnot => absurd hwhole hnot, fun _ => by omega⟩
    have := hwithin i hi
    omega

theorem parseContained_iff : ParseContained bytes past frameOut ↔ Fits bytes := by
  by_cases two : 2 ≤ bytes.length
  · have hmask : Rfc6455.masked bytes = true ↔ 0x80 ≤ ofBytes bytes past 1 := by
      rw [ofBytes_one two, Rfc6455.masked, decide_eq_true_iff]
    rcases UInt8.lt_or_le (ofBytes bytes past 1) 0x80 with h | h
    · refine iff_of_true (parseContained_of_unmasked two h) ⟨two, fun hm => ?_⟩
      exact absurd (hmask.mp hm) (UInt8.not_le.mpr h)
    · rw [parseContained_masked_iff h, parsedHeader_ofBytes two, Fits]
      simp only [two, hmask.mpr h, true_and, forall_const]
      refine and_congr_right fun hwhole => ?_
      have hheader : Rfc6455.declaredHeader bytes ≤ bytes.length := by unfold Rfc6455.Whole at hwhole; omega
      rw [parsedLength_ofBytes (Nat.le_add_right_of_le hheader)]
      by_cases h14 : Rfc6455.declaredHeader bytes = 14
      · simp [h14]
      · simp only [h14, if_false, false_implies, iff_true]
        exact hwhole
  · refine iff_of_false (fun hc => ?_) fun hf => two hf.1
    have := hc.1 1 (one_mem_touched _ _)
    omega

/-- Two bytes that announce five bytes of payload drive the parser past the end. -/
theorem not_parseContained : ¬∀ bytes past frameOut, bytes ≠ [] → ParseContained bytes past frameOut := by
  intro h
  have hend := (h [0x82, 0x85] (fun _ => 0) ⟨false, 0, 0, 0⟩ (by decide)).2.2 (by decide)
  revert hend
  decide

end Bounds
end Vcmp
