import Vcmp.Theorems.FramePass

/-! The chain of passes that `read_cb` triggers on a client whose handshake is done: what each pass takes off the
    input buffer, and that the chain ends. -/

namespace Vcmp.Websockets
open ByteMem ByteOrder Rfc6455

variable {σ : Type} {ssl : Digest} {ctx : WsCtx σ} {bev n : Nat} {env : PassEnv} {envs : Nat → PassEnv} {s t : Conn} {u : σ} {m : Mem}

/-! ### What is drained -/

/-- The second byte and the eight bytes behind it announce a payload that makes 2^64 bytes with its header, once the
    halves of its length are exchanged. -/
def Stuck (m : Mem) : Prop := slice m 1 9 = [0xFF, 0xFF, 0xFF, 0xFF, 0xF2, 0xFF, 0xFF, 0xFF, 0xFF]

instance (m : Mem) : Decidable (Stuck m) := inferInstanceAs (Decidable (_ = _))

theorem masked_long {b : UInt8} (h : 0x80 ≤ b) : b.toNat % 128 = 127 ↔ b = 0xFF := by
  have hle := UInt8.le_iff_toNat_le.mp h
  have hlt := b.toNat_lt
  rw [show (0x80 : UInt8).toNat = 128 from rfl] at hle
  rw [← UInt8.toNat_inj, show (0xFF : UInt8).toNat = 255 from rfl]
  omega

theorem exchanged_iff {l : List UInt8} (h : l.length = 8) :
    exchangeHalves (ofBE l) = 2 ^ 64 - 14 ↔ l = [0xFF, 0xFF, 0xFF, 0xF2, 0xFF, 0xFF, 0xFF, 0xFF] := by
  constructor
  · intro heq
    have hlt := ofBE_lt l
    rw [h] at hlt
    have hback := exchangeHalves_exchangeHalves (n := ofBE l) hlt
    rw [heq] at hback
    have hl := toLE_ofLE l.reverse
    rw [List.length_reverse, h, ← ofBE, ← hback] at hl
    rw [← List.reverse_reverse l, ← hl]
    rfl
  · rintro rfl
    rfl

theorem parsedLength_lt_of_header (h : parsedHeader m ≠ 14) : (parsedLength m).toNat < 2 ^ 16 := by
  rw [parsedHeader] at h
  rw [parsedLength]
  by_cases h126 : (m 1 &&& 0x7f).toUInt64 = 126
  · rw [if_pos h126, UInt16.toNat_toUInt64]
    exact UInt16.toNat_lt _
  · rw [if_neg h126] at h ⊢
    have h127 : (m 1 &&& 0x7f).toUInt64 ≠ 127 := fun h127 => h (if_pos h127)
    rw [if_neg h127, lengthBits_toNat]
    omega

/-- Nothing is drained of exactly these frames. -/
theorem drained_zero_iff (h : 0x80 ≤ m 1) : (parsedHeader m + (parsedLength m).toNat) % 2 ^ 64 = 0 ↔ Stuck m := by
  have hsix := parsedHeader_le m
  have hlt := (parsedLength m).toNat_lt
  have hsplit : Stuck m ↔ m 1 = 0xFF ∧ slice m 2 8 = [0xFF, 0xFF, 0xFF, 0xF2, 0xFF, 0xFF, 0xFF, 0xFF] := by
    rw [Stuck, slice_succ, List.cons.injEq]
  rw [hsplit]
  by_cases h127 : (m 1 &&& 0x7f).toUInt64 = 127
  · have hbyte : m 1 = 0xFF := (masked_long h).mp (lengthBits_eq.mp h127)
    have hheader : parsedHeader m = 14 := by rw [parsedHeader, hbyte]; rfl
    have hlength : (parsedLength m).toNat = exchangeHalves (ofBE (slice m 2 8)) := by
      rw [parsedLength, h127, if_neg (by decide), if_pos rfl, toNat_ntohll _ length_slice]
    rw [and_iff_right hbyte, ← exchanged_iff length_slice, hheader, hlength]
    rw [hlength] at hlt
    omega
  · have hbyte : m 1 ≠ 0xFF := fun hbyte => h127 (lengthBits_eq.mpr ((masked_long h).mpr hbyte))
    have hheader : parsedHeader m ≠ 14 := by
      rw [parsedHeader, if_neg h127]
      split <;> decide
    have hshort := parsedLength_lt_of_header hheader
    have hle := parsedHeader_le_fourteen m
    refine iff_of_false ?_ fun h' => hbyte h'.1
    omega

/-! ### One pass -/

/-- `read_cb` frees the bufferevent in the pass. -/
def Frees (s : Conn) (env : PassEnv) : Prop := NoMaskBit s env ∨ opcodeOf s env = wsOpcodeClose ∧ env.write = false

theorem readPass_done (ssl : Digest) (ctx : WsCtx σ) (env : PassEnv) (bev : Nat) (u : σ) (done : s.client.handshakeDone = true) :
    ∃ t u' again, readPass ssl ctx env bev s u = (t, u', again) ∧ t.client.handshakeDone = true ∧
      (Frees s env ∧ t.freed ≠ s.freed ∧ again = false ∨ ¬Frees s env ∧ t.freed = s.freed ∧
        t.input = (framed s env).input ∧ again = decide (2 ≤ t.input.length)) := by
  have hfree (c : Conn) (h : c.freed = s.freed) : (c.free .bufferevent).freed ≠ s.freed := by
    simp [Conn.free, h]
  simp only [readPass, done, Bool.not_true, Bool.false_eq_true, if_false]
  by_cases hmask : NoMaskBit s env
  · rw [readFrame_unmasked hmask]
    exact ⟨_, _, _, rfl, done, Or.inl ⟨Or.inl hmask, hfree s rfl, rfl⟩⟩
  by_cases hclose : opcodeOf s env = wsOpcodeClose
  · cases hwrite : env.write with
    | false =>
      rw [readFrame_unanswered hmask hclose hwrite]
      exact ⟨_, _, _, rfl, done, Or.inl ⟨Or.inr ⟨hclose, hwrite⟩, hfree _ rfl, rfl⟩⟩
    | true =>
      rw [readFrame_answered hmask hclose hwrite]
      refine ⟨_, _, _, rfl, done, Or.inr ⟨?_, rfl, rfl, rfl⟩⟩
      rintro (hm | ⟨-, hw⟩)
      · exact hmask hm
      · exact Bool.false_ne_true (hw.symm.trans hwrite)
  · rw [readFrame_data hmask hclose]
    refine ⟨_, _, _, rfl, done, Or.inr ⟨?_, rfl, rfl, rfl⟩⟩
    rintro (hm | ⟨hc, -⟩)
    · exact hmask hm
    · exact hclose hc

/-- The pass frees the connection, or it takes a byte at least, and a complete frame whole and nothing behind it. -/
def Progress (s t : Conn) : Prop :=
  t.freed = s.freed → t.input.length < s.input.length ∧
    (Whole s.input → t.input = s.input.drop (declaredHeader s.input + declaredLength s.input))

/-- A complete frame with a 64-bit length of which not as many bytes are drained as it has: the header and the length with
    its halves exchanged, modulo 2^64, and at most the whole buffer. -/
def Misread (input : List UInt8) : Prop :=
  Whole input ∧ declaredHeader input = 14 ∧
    min ((14 + exchangeHalves (declaredLength input)) % 2 ^ 64) input.length ≠ 14 + declaredLength input

/-- The pass goes on with the connection but not past the frame. -/
structure Stalls (s : Conn) (env : PassEnv) : Prop where
  open_ : ¬Frees s env
  defect : Stuck (s.peek env) ∨ Misread s.input

theorem length_poke (s : Conn) (env : PassEnv) (m : Mem) : (s.poke env m).input.length = s.input.length := by
  simp only [Conn.poke, List.length_append, length_slice, List.length_take, List.length_drop]
  omega

theorem length_framed (s : Conn) (env : PassEnv) : (framed s env).input.length =
    s.input.length - (parsedHeader (s.peek env) + (parsedLength (s.peek env)).toNat) % 2 ^ 64 := by
  rw [framed, Conn.drain, List.length_drop, length_poke]

theorem peek_all (h : s.input.length ≤ env.extent) : s.peek env = ofBytes s.input env.past := by
  rw [Conn.peek, List.take_of_length_le h]

/-- The header and the length of a complete frame as the code reads them. -/
theorem whole_parsed (h : s.input.length ≤ env.extent) (whole : Whole s.input) :
    parsedHeader (s.peek env) = declaredHeader s.input ∧ (parsedLength (s.peek env)).toNat =
      if declaredHeader s.input = 14 then exchangeHalves (declaredLength s.input) else declaredLength s.input := by
  have hsix : 6 ≤ declaredHeader s.input := by
    simp only [declaredHeader]
    split
    · omega
    · split <;> omega
  have hle : declaredHeader s.input + declaredLength s.input ≤ s.input.length := whole
  rw [peek_all h]
  exact ⟨parsedHeader_ofBytes (by omega), parsedLength_ofBytes (by omega)⟩

theorem declaredLength_short {bytes : List UInt8} (h : declaredHeader bytes ≠ 14) : declaredLength bytes < 2 ^ 16 := by
  simp only [declaredHeader] at h
  simp only [declaredLength]
  by_cases h126 : (bytes.getD 1 0).toNat % 128 = 126
  · have hlt := ofBE_lt ((bytes.drop 2).take 2)
    have hle : ((bytes.drop 2).take 2).length ≤ 2 := List.length_take_le 2 _
    rw [if_pos h126]
    exact Nat.lt_of_lt_of_le hlt (Nat.pow_le_pow_right (by decide) hle)
  · rw [if_neg h126] at h ⊢
    have h127 : (bytes.getD 1 0).toNat % 128 ≠ 127 := fun h127 => h (if_pos h127)
    rw [if_neg h127]
    omega

/-- What is left is what lies behind the complete frame exactly if as many bytes are drained. -/
theorem framed_input_iff (h : s.input.length ≤ env.extent) (whole : Whole s.input) :
    (framed s env).input = s.input.drop (declaredHeader s.input + declaredLength s.input) ↔ ¬Misread s.input := by
  obtain ⟨hheader, hlength⟩ := whole_parsed h whole
  have hle : declaredHeader s.input + declaredLength s.input ≤ s.input.length := whole
  have hlt := (parsedLength (s.peek env)).toNat_lt
  have hmis : ¬Misread s.input ↔ min ((declaredHeader s.input + (parsedLength (s.peek env)).toNat) % 2 ^ 64) s.input.length =
      declaredHeader s.input + declaredLength s.input := by
    rw [Misread, and_iff_right whole, hlength]
    by_cases h14 : declaredHeader s.input = 14
    · rw [and_iff_right h14, not_not, if_pos h14, h14]
    · have hshort := declaredLength_short h14
      have hsmall : declaredHeader s.input ≤ 14 := by
        rw [← hheader]
        exact parsedHeader_le_fourteen _
      rw [if_neg h14]
      exact iff_of_true (fun h' => h14 h'.1) (by omega)
  rw [hmis]
  constructor
  · intro heq
    have hlen := congrArg List.length heq
    rw [length_framed, hheader, List.length_drop] at hlen
    omega
  · intro hmin
    rcases Nat.le_total ((declaredHeader s.input + (parsedLength (s.peek env)).toNat) % 2 ^ 64) s.input.length with hk | hk
    · -- the whole frame is unmasked, and nothing behind it
      rw [Nat.min_eq_left hk] at hmin
      have hend : declaredHeader s.input + (parsedLength (s.peek env)).toNat = declaredHeader s.input + declaredLength s.input := by
        omega
      simp only [framed, Conn.drain, Conn.poke]
      rw [hheader, hmin, List.take_of_length_le h, List.drop_of_length_le h, List.append_nil, drop_slice hle, Nat.zero_add,
        memAfter, hheader, slice_unmask_past hend.le, peek_all h, slice_ofBytes (by omega),
        List.take_of_length_le (by rw [List.length_drop])]
    · rw [Nat.min_eq_right hk] at hmin
      rw [List.drop_of_length_le hmin.le, ← List.length_eq_zero_iff, length_framed, hheader]
      omega

/-- A pass makes progress exactly if it does not stall. -/
theorem progress_iff (ssl : Digest) (ctx : WsCtx σ) (bev : Nat) (u : σ) (done : s.client.handshakeDone = true)
    (nonempty : s.input ≠ []) (extent : s.input.length ≤ env.extent) :
    Progress s (readPass ssl ctx env bev s u).1 ↔ ¬Stalls s env := by
  obtain ⟨t, u', again, hpass, -, ⟨hfrees, hfreed, -⟩ | ⟨hopen, hfreed, hinput, -⟩⟩ := readPass_done ssl ctx env bev u done
  · rw [hpass]
    exact iff_of_true (fun heq => absurd heq hfreed) fun stalls => stalls.open_ hfrees
  have hmask : 0x80 ≤ s.peek env 1 := UInt8.not_lt.mp fun hm => hopen (Or.inl hm)
  have hpos := List.length_pos_iff.mpr nonempty
  have hprogress : t.input.length < s.input.length ↔ ¬Stuck (s.peek env) := by
    rw [hinput, length_framed, ← drained_zero_iff hmask]
    omega
  have hwhole : (Whole s.input → t.input = s.input.drop (declaredHeader s.input + declaredLength s.input)) ↔ ¬Misread s.input := by
    by_cases whole : Whole s.input
    · rw [imp_iff_right whole, hinput, framed_input_iff extent whole]
    · exact iff_of_true (fun h => absurd h whole) fun h => whole h.1
  rw [hpass, Progress, imp_iff_right hfreed, hprogress, hwhole, ← not_or]
  exact not_congr ⟨fun h => ⟨hopen, h⟩, fun stalls => stalls.defect⟩

/-! ### The chain of passes -/

/-- `P` holds of each of the first `n` passes, if the chain has as many. -/
def EachPass (ssl : Digest) (ctx : WsCtx σ) (bev : Nat) (P : PassEnv → Conn → Conn → Prop) : Nat → (Nat → PassEnv) → Conn → σ → Prop
  | 0, _, _, _ => True
  | n + 1, env, s, u =>
    let r := readPass ssl ctx (env 0) bev s u
    P (env 0) s r.1 ∧ (r.2.2 = true → EachPass ssl ctx bev P n (fun k => env (k + 1)) r.1 r.2.1)

/-- Each pass makes progress, and there are no more passes than bytes. -/
structure LoopProgresses (ssl : Digest) (ctx : WsCtx σ) (bev : Nat) (envs : Nat → PassEnv) (s : Conn) (u : σ) : Prop where
  each : ∀ n, EachPass ssl ctx bev (fun _ => Progress) n envs s u
  ends : (readCb ssl ctx bev s.input.length envs s u).isSome = true

/-- The connection between two passes: some bytes are left, and those in one extent. -/
structure Waiting (envs : Nat → PassEnv) (s : Conn) : Prop where
  done : s.client.handshakeDone = true
  nonempty : s.input ≠ []
  extent : ∀ k, s.input.length ≤ (envs k).extent

theorem Waiting.next (waiting : Waiting envs s) {u' : σ} (hpass : readPass ssl ctx (envs 0) bev s u = (t, u', true)) :
    Waiting (fun k => envs (k + 1)) t ∧ t.freed = s.freed := by
  obtain ⟨t', u'', again, hpass', hdone, ⟨-, -, hagain⟩ | ⟨-, hfreed, hinput, hagain⟩⟩ :=
    readPass_done ssl ctx (envs 0) bev u waiting.done
  · rw [hpass', hagain] at hpass
    cases hpass
  · rw [hpass', Prod.mk.injEq, Prod.mk.injEq] at hpass
    obtain ⟨rfl, -, rfl⟩ := hpass
    have htwo := of_decide_eq_true hagain.symm
    refine ⟨⟨hdone, List.ne_nil_of_length_pos (by omega), fun k => ?_⟩, hfreed⟩
    have hle := waiting.extent (k + 1)
    rw [hinput, length_framed]
    omega

theorem eachPass_iff (waiting : Waiting envs s) : EachPass ssl ctx bev (fun _ => Progress) n envs s u ↔
    EachPass ssl ctx bev (fun env s _ => ¬Stalls s env) n envs s u := by
  induction n generalizing envs s u with
  | zero => exact Iff.rfl
  | succ n ih =>
    rw [EachPass, EachPass, progress_iff ssl ctx bev u waiting.done waiting.nonempty (waiting.extent 0)]
    refine and_congr_right fun _ => forall_congr' fun hagain => ?_
    rcases hpass : readPass ssl ctx (envs 0) bev s u with ⟨t, u', again⟩
    rw [hpass] at hagain
    cases hagain
    exact ih (waiting.next hpass).1

/-- Each pass but the last leaves fewer bytes. -/
theorem readCb_ends (waiting : Waiting envs s) (each : ∀ n, EachPass ssl ctx bev (fun _ => Progress) n envs s u) {fuel : Nat}
    (enough : s.input.length ≤ fuel) : (readCb ssl ctx bev fuel envs s u).isSome = true := by
  induction fuel generalizing envs s u with
  | zero => exact absurd (List.length_eq_zero_iff.mp (Nat.le_zero.mp enough)) waiting.nonempty
  | succ fuel ih =>
    rcases hpass : readPass ssl ctx (envs 0) bev s u with ⟨t, u', again⟩
    cases again with
    | false =>
      rw [readCb, hpass]
      rfl
    | true =>
      obtain ⟨waiting', hfreed⟩ := waiting.next hpass
      have hprogress : Progress s t := by
        have hfirst := (each 1).1
        rwa [hpass] at hfirst
      have hless := (hprogress hfreed).1
      rw [readCb, hpass]
      refine ih waiting' (fun n => ?_) (by omega)
      have hrest := (each (n + 1)).2
      rw [hpass] at hrest
      exact hrest rfl

/-- The chain of passes makes progress and ends exactly if no pass of it stalls. -/
theorem loopProgresses_iff (done : s.client.handshakeDone = true) (nonempty : s.input ≠ [])
    (extent : ∀ k, s.input.length ≤ (envs k).extent) : LoopProgresses ssl ctx bev envs s u ↔
      ∀ n, EachPass ssl ctx bev (fun env s _ => ¬Stalls s env) n envs s u := by
  have waiting : Waiting envs s := ⟨done, nonempty, extent⟩
  constructor
  · exact fun progresses n => (eachPass_iff waiting).mp (progresses.each n)
  · intro clear
    have each (n : Nat) := (eachPass_iff waiting).mpr (clear n)
    exact ⟨each, readCb_ends waiting each (Nat.le_refl _)⟩

def sampleClient (input : List UInt8) : Conn where
  client := ⟨true, false, .null⟩
  input
  written := []
  hasWriteCb := false
  freed := []

theorem loopProgresses_iff_sample :
    LoopProgresses sampleDigest recorder 0 (fun _ => samplePass) (sampleClient [0x81, 0x80, 0, 0, 0, 0]) [] ↔
      ∀ n, EachPass sampleDigest recorder 0 (fun env s _ => ¬Stalls s env) n (fun _ => samplePass)
        (sampleClient [0x81, 0x80, 0, 0, 0, 0]) [] :=
  loopProgresses_iff rfl (by decide) fun _ => by decide

/-- The header of a text frame whose length and header make 2^64 bytes. -/
def stuckClient : Conn := sampleClient [0x81, 0xFF, 0xFF, 0xFF, 0xFF, 0xF2, 0xFF, 0xFF, 0xFF, 0xFF, 0, 0, 0, 0]

theorem framed_stuckClient : framed stuckClient samplePass = stuckClient := by
  have hdrain : (parsedHeader (stuckClient.peek samplePass) + (parsedLength (stuckClient.peek samplePass)).toNat) % 2 ^ 64 = 0 :=
    (drained_zero_iff (by decide)).mpr (by decide)
  have hheader : parsedHeader (stuckClient.peek samplePass) = 14 := by decide
  have hfront : slice (memAfter stuckClient samplePass) 0 (stuckClient.input.take samplePass.extent).length =
      slice (stuckClient.peek samplePass) 0 (stuckClient.input.take samplePass.extent).length := by
    refine slice_congr fun j _ hj => if_neg ?_
    rw [show (stuckClient.input.take samplePass.extent).length = 14 from rfl] at hj
    omega
  have hpoke : stuckClient.poke samplePass (memAfter stuckClient samplePass) = stuckClient := by
    rw [Conn.poke, hfront, ← Conn.poke, poke_peek]
  rw [framed, hdrain, hpoke]
  rfl

/-- The pass drains nothing and triggers itself for ever. -/
theorem stuck_loop : (∀ fuel, readCb sampleDigest recorder 0 fuel (fun _ => samplePass) stuckClient [] = none) ∧
    ¬LoopProgresses sampleDigest recorder 0 (fun _ => samplePass) stuckClient [] := by
  have again (u : List Call) : ∃ u', readPass sampleDigest recorder samplePass 0 stuckClient u = (stuckClient, u', true) := by
    have hframe : readFrame recorder samplePass 0 stuckClient u = _ :=
      readFrame_data (show ¬NoMaskBit stuckClient samplePass by decide) (by decide)
    have htwo : decide (2 ≤ stuckClient.input.length) = true := by decide
    rw [framed_stuckClient, htwo] at hframe
    rw [readPass, if_neg (by decide)]
    exact ⟨_, hframe⟩
  have never (fuel : Nat) (u : List Call) : readCb sampleDigest recorder 0 fuel (fun _ => samplePass) stuckClient u = none := by
    induction fuel generalizing u with
    | zero => rfl
    | succ fuel ih =>
      obtain ⟨u', hpass⟩ := again u
      rw [readCb_succ hpass, if_pos rfl]
      exact ih u'
  refine ⟨fun fuel => never fuel [], fun progresses => ?_⟩
  have hends := progresses.ends
  rw [never] at hends
  exact Bool.false_ne_true hends

end Vcmp.Websockets
