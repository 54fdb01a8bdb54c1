import Vcmp.Extents
import Vcmp.Theorems.FrameBounds
import Vcmp.Theorems.PeekedHandshake
import Vcmp.Theorems.Server

/-! A pass of the WebSocket server's `read_cb` over the first extent: when it stays inside, and that it then does the
    same however the buffer is cut. -/

namespace Vcmp
open ByteMem CInt

section Frame
variable {first : List UInt8} {past m : Mem} {s : State} {n : Nat} {bufLen : UInt64} {frameOut : WsFrame}

/-! ### One frame -/

theorem local_wsPayloadUnmask (payload : Nat) (len : UInt64) (key : Nat) : Local (wsPayloadUnmask payload len key) :=
  local_forRange (fun _ => (local_load _).bind fun _ => (local_load _).bind fun _ => local_store _ _) 0 len.toNat

theorem local_wsParseFrame (bufLen : UInt64) (frameOut : WsFrame) : Local (wsParseFrame bufLen frameOut) := by
  refine (local_load 0).bind fun b₀ => (local_load 0).bind fun b₁ => (local_load 1).bind fun b₂ => (local_load 1).bind fun b₃ => ?_
  refine Local.ite (fun _ => local_pure _) fun _ => Local.ite (fun _ => ?_) fun _ => Local.ite (fun _ => ?_) fun _ => ?_
  · exact (local_loadBytes _ 2).bind fun _ => (local_pure _).bind fun _ =>
      (local_wsPayloadUnmask _ _ _).bind fun _ => local_pure _
  · exact (local_loadBytes _ 8).bind fun _ => (local_pure _).bind fun _ =>
      (local_wsPayloadUnmask _ _ _).bind fun _ => local_pure _
  · exact (local_pure _).bind fun _ => (local_wsPayloadUnmask _ _ _).bind fun _ => local_pure _

theorem touched_wsPayloadUnmask (s : State) (payload : Nat) (len : UInt64) (key : Nat) :
    ∀ i, payload ≤ i → i < payload + len.toNat → i ∈ ((wsPayloadUnmask payload len key).run s).2.touched := by
  have loop : ∀ i, payload ≤ i → i < payload + (0 + len.toNat) → i ∈ ((wsPayloadUnmask payload len key).run s).2.touched := by
    refine forRange_inv (fun j t => ∀ i, payload ≤ i → i < payload + j → i ∈ t.touched) (fun i hle hlt => by omega) ?_
    intro j t _ _ h i hle hlt
    simp only [Prog.run_bind, run_load, run_store, List.mem_cons]
    rcases Nat.lt_or_ge i (payload + j) with hi | hi
    · exact Or.inr (Or.inr (Or.inr (h i hle hi)))
    · exact Or.inl (by omega)
  rwa [Nat.zero_add] at loop

/-- The length of the payload as the code reads it: one of 64 bits with its halves exchanged. -/
def readLength (first : List UInt8) : Nat :=
  if Rfc6455.declaredHeader first = 14 then exchangeHalves (Rfc6455.declaredLength first) else Rfc6455.declaredLength first

/-- Room for what `ws_parse_frame` looks at: the two bytes that it always reads and, in a masked frame, the length
    behind them and a payload that is not empty. -/
def FrameRoom (first : List UInt8) : Prop :=
  2 ≤ first.length ∧ (Rfc6455.masked first = true → Rfc6455.declaredHeader first ≤ first.length + 4 ∧
    (readLength first = 0 ∨ Rfc6455.declaredHeader first + readLength first ≤ first.length))

theorem within_masked (h : 0x80 ≤ m 1) : Within n ((wsParseFrame bufLen frameOut).run { mem := m }).2 ↔
    parsedHeader m ≤ n + 4 ∧ ((parsedLength m).toNat = 0 ∨ parsedHeader m + (parsedLength m).toNat ≤ n) := by
  obtain ⟨t, hmem, -, hlast, htouched, hrun⟩ := wsParseFrame_header bufLen frameOut h
  have hsix := parsedHeader_le m
  have loop := run_wsPayloadUnmask t (parsedLength m) (show parsedHeader m - 4 + 4 ≤ parsedHeader m by omega)
  rw [hrun]
  constructor
  · intro within
    have hheader := within _ (loop.kept _ hlast)
    refine ⟨by omega, ?_⟩
    by_cases hzero : (parsedLength m).toNat = 0
    · exact Or.inl hzero
    · have hend := within _ (touched_wsPayloadUnmask t (parsedHeader m) (parsedLength m) (parsedHeader m - 4)
        (parsedHeader m + (parsedLength m).toNat - 1) (by omega) (by omega))
      exact Or.inr (by omega)
  · rintro ⟨hheader, hzero | hend⟩ i hi
    · rw [wsPayloadUnmask, hzero] at hi
      have := htouched i hi
      omega
    · rcases loop.touched i hi with hi | hi
      · have := htouched i hi
        omega
      · omega

theorem within_wsParseFrame (bufLen : UInt64) (frameOut : WsFrame) (first : List UInt8) (past : Mem) :
    Within first.length ((wsParseFrame bufLen frameOut).run { mem := ofBytes first past }).2 ↔ FrameRoom first := by
  have hone : Within first.length ((wsParseFrame bufLen frameOut).run { mem := ofBytes first past }).2 → 2 ≤ first.length :=
    fun within => within 1 (one_mem_touched bufLen _)
  by_cases two : 2 ≤ first.length
  · have hmask : Rfc6455.masked first = true ↔ 0x80 ≤ ofBytes first past 1 := by
      rw [ofBytes_one two, Rfc6455.masked, decide_eq_true_iff]
    rw [FrameRoom, and_iff_right two]
    rcases UInt8.lt_or_le (ofBytes first past 1) 0x80 with h | h
    · rw [wsParseFrame_unmasked bufLen frameOut h]
      refine iff_of_true (fun i hi => ?_) fun hm => absurd (hmask.mp hm) (UInt8.not_le.mpr h)
      simp only [List.mem_cons, List.not_mem_nil, or_false] at hi
      omega
    · rw [within_masked h, parsedHeader_ofBytes two, forall_prop_of_true (hmask.mpr h)]
      refine and_congr_right fun hheader => ?_
      rw [parsedLength_ofBytes hheader, readLength]
  · exact iff_of_false (fun h => two (hone h)) fun room => two room.1

end Frame

/-! ### One pass -/

namespace Websockets
variable {σ : Type} {ssl : Digest} {ctx : WsCtx σ} {user : Reader σ} {env : PassEnv} {bev extent n : Nat} {s : Conn} {u : σ}
  {b : Extents} {past past' m m' : Mem} {bufLen : UInt64} {frameOut : WsFrame}

/-- The handshake depends on the buffer by the parsed headers alone. -/
theorem readHandshake_env (env : PassEnv) (h : ((wsParseHandshake env.malloc (toInt s.input.length)).run
    { mem := s.peek { env with extent, past } }).1 = ((wsParseHandshake env.malloc (toInt s.input.length)).run { mem := s.peek env }).1) :
    readHandshake ssl ctx { env with extent, past } bev s u = readHandshake ssl ctx env bev s u := by
  simp only [readHandshake, h]

/-- What a parsed frame gives. -/
abbrev frameRun (env : PassEnv) (s : Conn) : (Int × WsFrame) × State :=
  (wsParseFrame (UInt64.ofNat (toSize (toInt s.input.length))) env.frame).run { mem := s.peek env }

/-- A frame depends on the buffer by what is parsed of it, its payload and the bytes that are left in the buffer. -/
theorem readFrame_env (env : PassEnv) (hvalue : (frameRun { env with extent, past } s).1 = (frameRun env s).1)
    (hpoke : s.poke { env with extent, past } (frameRun { env with extent, past } s).2.mem = s.poke env (frameRun env s).2.mem)
    (hpayload : (frameRun env s).1.1 ≠ -1 →
      slice (fun i => (frameRun { env with extent, past } s).2.mem ((frameRun env s).1.2.start + i)) 0 (frameRun env s).1.2.len.toNat =
        slice (fun i => (frameRun env s).2.mem ((frameRun env s).1.2.start + i)) 0 (frameRun env s).1.2.len.toNat) :
    readFrame user.toWsCtx { env with extent, past } bev s u = readFrame user.toWsCtx env bev s u := by
  simp only [frameRun] at hvalue hpoke hpayload
  simp only [readFrame, hvalue, hpoke]
  by_cases hmal : (frameRun env s).1.1 = -1
  · simp only [frameRun] at hmal
    rw [if_pos hmal, if_pos hmal]
  · simp only [frameRun] at hmal
    rw [user.confined _ _ _ _ _ _ _ (hpayload hmal)]

/-- Memory that agrees on the first extent makes the same buffer of it. -/
theorem poke_extents (hm : ∀ i, i < b.first.length → m' i = m i) (hkeep : ∀ i, b.first.length ≤ i → m' i = ofBytes b.bytes past' i) :
    ({ s with input := b.bytes } : Conn).poke { env with extent := b.bytes.length, past := past' } m' =
      ({ s with input := b.bytes } : Conn).poke { env with extent := b.first.length, past } m := by
  obtain ⟨rest, hrest⟩ := b.first_isPrefix
  have hlength : b.bytes.length = b.first.length + rest.length := by rw [← hrest, List.length_append]
  have hbehind : slice m' b.first.length rest.length = rest := by
    rw [slice_congr fun j hj _ => hkeep j hj, ← hrest, ← List.append_nil (b.first ++ rest), List.append_assoc]
    exact slice_ofBytes_append b.first rest [] past'
  have hfront : slice m' 0 b.first.length = slice m 0 b.first.length :=
    slice_congr fun j _ hj => hm j (by omega)
  simp only [Conn.poke, List.take_length, List.drop_length, List.append_nil]
  rw [hlength, slice_append, Nat.zero_add, hfront, hbehind, ← hrest, List.take_left, List.drop_left]

/-- Room in the first extent for what a pass of `read_cb` looks at. -/
structure Room (malloc : Nat → Option Mem) (done : Bool) (input first : List UInt8) : Prop where
  handshake : done = false → HandshakeRoom malloc (toInt input.length).toNat first
  frame : done = true → FrameRoom first

theorem peek_first (s : Conn) (env : PassEnv) (b : Extents) (past : Mem) :
    ({ s with input := b.bytes } : Conn).peek { env with extent := b.first.length, past } = ofBytes b.first past := by
  rw [Conn.peek, ← List.prefix_iff_eq_take.mp b.first_isPrefix]

theorem peek_whole (s : Conn) (env : PassEnv) (b : Extents) (past : Mem) :
    ({ s with input := b.bytes } : Conn).peek { env with extent := b.bytes.length, past } = ofBytes b.bytes past := by
  rw [Conn.peek, List.take_length]

theorem inside_iff_room : (∀ i ∈ (callback ssl user env bev s u b.first b.bytes past).2, i < b.first.length) ↔
    Room env.malloc s.client.handshakeDone b.bytes b.first := by
  simp only [callback, passTouched, peek_first]
  cases hdone : s.client.handshakeDone with
  | false =>
    refine (within_wsParseHandshake env.malloc _ b.first past).trans ⟨fun h => ⟨fun _ => h, fun h => ?_⟩, fun room => room.handshake rfl⟩
    exact absurd h Bool.false_ne_true
  | true =>
    refine (within_wsParseFrame _ env.frame b.first past).trans ⟨fun h => ⟨fun h => ?_, fun _ => h⟩, fun room => room.frame rfl⟩
    exact absurd h.symm Bool.false_ne_true

theorem readHandshake_extents (room : HandshakeRoom env.malloc (toInt b.bytes.length).toNat b.first) (past past' : Mem) :
    readHandshake ssl ctx { env with extent := b.bytes.length, past := past' } bev { s with input := b.bytes } u =
      readHandshake ssl ctx { env with extent := b.first.length, past } bev { s with input := b.bytes } u := by
  have within := (within_wsParseHandshake env.malloc (toInt b.bytes.length) b.first past).mpr room
  refine readHandshake_env { env with extent := b.first.length, past } ?_
  rw [peek_first, peek_whole]
  exact ((local_scanHandshake _ _ _ _).below within fun i hi => ofBytes_agree b.first_isPrefix hi).1

/-- The payload of a frame that is not refused lies where the parser has been. -/
theorem frame_payload {j : Nat} (within : Within n ((wsParseFrame bufLen frameOut).run { mem := m }).2)
    (h : ((wsParseFrame bufLen frameOut).run { mem := m }).1.1 ≠ -1)
    (hj : j < ((wsParseFrame bufLen frameOut).run { mem := m }).1.2.start + 0 +
      ((wsParseFrame bufLen frameOut).run { mem := m }).1.2.len.toNat)
    (hle : ((wsParseFrame bufLen frameOut).run { mem := m }).1.2.start + 0 ≤ j) : j < n := by
  rcases UInt8.lt_or_le (m 1) 0x80 with hmask | hmask
  · rw [wsParseFrame_unmasked bufLen frameOut hmask] at h
    exact absurd rfl h
  · obtain ⟨t, hrun, -⟩ := wsParseFrame_masked bufLen frameOut hmask
    rw [hrun, parsed] at hj hle
    rcases ((within_masked hmask).mp within).2 with hzero | hend
    · simp only [hzero] at hj hle
      omega
    · simp only at hj hle
      omega

theorem readFrame_extents (room : FrameRoom b.first) (past past' : Mem) :
    readFrame user.toWsCtx { env with extent := b.bytes.length, past := past' } bev { s with input := b.bytes } u =
      readFrame user.toWsCtx { env with extent := b.first.length, past } bev { s with input := b.bytes } u := by
  have within := (within_wsParseFrame (UInt64.ofNat (toSize (toInt b.bytes.length))) env.frame b.first past).mpr room
  obtain ⟨hvalue, hbelow, habove⟩ := (local_wsParseFrame _ env.frame).below within fun i hi =>
    @ofBytes_agree past past' _ _ b.first_isPrefix i hi
  refine readFrame_env { env with extent := b.first.length, past } ?_ ?_ fun hframe => ?_
  · rw [frameRun, frameRun, peek_first, peek_whole]
    exact hvalue
  · rw [frameRun, frameRun, peek_first, peek_whole]
    exact poke_extents hbelow habove
  · rw [frameRun, peek_first] at hframe
    rw [frameRun, frameRun, peek_first, peek_whole, slice_shift, slice_shift]
    exact slice_congr fun j hj hlt => hbelow j (frame_payload within hframe hlt hj)

theorem respects_iff (ssl : Digest) (user : Reader σ) (env : PassEnv) (bev : Nat) (s : Conn) (u : σ) (b : Extents) (past : Mem) :
    Respects (callback ssl user env bev s u) b past ↔ Room env.malloc s.client.handshakeDone b.bytes b.first := by
  refine ⟨fun h => inside_iff_room.mp h.inside, fun room => ⟨inside_iff_room.mpr room, fun past' => ?_⟩⟩
  simp only [callback, readPass]
  cases hdone : s.client.handshakeDone with
  | false =>
    simp only [Bool.not_false, if_true]
    rw [readHandshake_extents (room.handshake hdone) past past']
  | true =>
    simp only [Bool.not_true, Bool.false_eq_true, if_false]
    exact readFrame_extents (room.frame hdone) past past'

end Websockets
end Vcmp
