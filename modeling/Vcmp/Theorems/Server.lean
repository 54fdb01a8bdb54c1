import Vcmp.Theorems.FrameEncode
import Vcmp.Websockets.Loop

/-! What one pass of `read_cb` can do to a WebSocket connection and its user. -/

namespace Vcmp.Websockets
open ByteMem

section Pass
variable {σ : Type} {ssl : Digest} {ctx : WsCtx σ} {env : PassEnv} {bev : Nat} {s : Conn} {u : σ}

theorem not_live_free (s : Conn) : ¬(s.free .bufferevent).Live := fun h => h (List.mem_append_right _ List.mem_cons_self)

theorem poke_peek : s.poke env (s.peek env) = s := by
  rw [Conn.poke, Conn.peek, slice_ofBytes_self, List.take_append_drop]

def NoMaskBit (s : Conn) (env : PassEnv) : Prop := s.peek env 1 < 0x80

instance : Decidable (NoMaskBit s env) := inferInstanceAs (Decidable (_ < _))

def opcodeOf (s : Conn) (env : PassEnv) : UInt8 := s.peek env 0 &&& 0xf

/-- A frame without the mask bit makes `read_cb` free the bufferevent and nothing else. -/
theorem readFrame_unmasked (h : NoMaskBit s env) : readFrame ctx env bev s u = (s.free .bufferevent, u, false) := by
  simp only [readFrame, wsParseFrame_unmasked _ _ h, poke_peek, if_true]

/-- The memory at the buffer after a masked frame was parsed. -/
def memAfter (s : Conn) (env : PassEnv) : Mem :=
  unmask (s.peek env) (parsedHeader (s.peek env)) (parsedLength (s.peek env)).toNat (parsedHeader (s.peek env) - 4)

/-- The connection after a masked frame was parsed and drained. -/
def framed (s : Conn) (env : PassEnv) : Conn :=
  (s.poke env (memAfter s env)).drain ((parsedHeader (s.peek env) + (parsedLength (s.peek env)).toNat) % 2 ^ 64)

theorem finishFrame_parsed {c : Conn} :
    finishFrame (parsed (s.peek env)).1 (parsed (s.peek env)).2 c =
      (c.drain ((parsedHeader (s.peek env) + (parsedLength (s.peek env)).toNat) % 2 ^ 64),
        decide (2 ≤ (c.drain ((parsedHeader (s.peek env) + (parsedLength (s.peek env)).toNat) % 2 ^ 64)).input.length)) := by
  have hle := parsedHeader_le_fourteen (s.peek env)
  rw [finishFrame, parsed, CInt.toSize_natCast (by omega)]

theorem parsed_ne (m : Mem) : (parsed m).1 ≠ -1 := by
  rw [parsed]
  omega

theorem readFrame_data (h : ¬NoMaskBit s env) (opcode : opcodeOf s env ≠ wsOpcodeClose) :
    readFrame ctx env bev s u = (framed s env,
      ctx.callRead bev (opcodeOf s env) (fun i => memAfter s env (parsedHeader (s.peek env) + i))
        (parsedLength (s.peek env)) s.client.ctx u, decide (2 ≤ (framed s env).input.length)) := by
  obtain ⟨t, hrun, hmem, -, -⟩ :=
    wsParseFrame_masked (UInt64.ofNat (CInt.toSize (CInt.toInt s.input.length))) env.frame (UInt8.not_lt.mp h)
  simp only [readFrame, hrun, parsed_ne, if_false, finishFrame_parsed, hmem]
  rw [if_neg (show (parsed (s.peek env)).2.opcode ≠ wsOpcodeClose from opcode)]
  rfl

/-- The length that a CLOSE frame is answered with: the one that was read from it. -/
def closeLength (s : Conn) (env : PassEnv) : Nat := (parsedLength (s.peek env)).toNat

/-- The connection after a CLOSE frame was answered: the header of a frame of its length goes out, and nothing
    behind it. -/
def closed (s : Conn) (env : PassEnv) : Conn :=
  { framed s env with
    client := { s.client with disconnect := true }
    written := s.written ++ [madeHeader true wsOpcodeClose (closeLength s env)] }

theorem readFrame_answered (h : ¬NoMaskBit s env) (opcode : opcodeOf s env = wsOpcodeClose) (hw : env.write = true) :
    readFrame ctx env bev s u =
      (closed s env, ctx.callClose bev s.client.ctx u, decide (2 ≤ (framed s env).input.length)) := by
  obtain ⟨t, hrun, hmem, -, -⟩ :=
    wsParseFrame_masked (UInt64.ofNat (CInt.toSize (CInt.toInt s.input.length))) env.frame (UInt8.not_lt.mp h)
  obtain ⟨hret, hreply⟩ :=
    run_wsMakeFrame true wsOpcodeClose (parsedLength (s.peek env)) 256 env.tmp (by decide)
  have hten := length_madeHeader_le true wsOpcodeClose (parsedLength (s.peek env)).toNat
  have hparsed : (parsed (s.peek env)).2.opcode = wsOpcodeClose := opcode
  simp only [readFrame, hrun, parsed_ne, if_false, finishFrame_parsed, hmem, hparsed, if_true, hw, Bool.not_true,
    Bool.false_eq_true]
  rw [show (parsed (s.peek env)).2.len = parsedLength (s.peek env) from rfl, hret, hreply,
    CInt.toSize_natCast (by omega), slice_put]
  rfl

theorem readFrame_unanswered (h : ¬NoMaskBit s env) (opcode : opcodeOf s env = wsOpcodeClose) (hw : env.write = false) :
    readFrame ctx env bev s u =
      ((s.poke env (memAfter s env)).free .bufferevent, ctx.callClose bev s.client.ctx u, false) := by
  obtain ⟨t, hrun, hmem, -, -⟩ :=
    wsParseFrame_masked (UInt64.ofNat (CInt.toSize (CInt.toInt s.input.length))) env.frame (UInt8.not_lt.mp h)
  have hparsed : (parsed (s.peek env)).2.opcode = wsOpcodeClose := opcode
  simp only [readFrame, hrun, parsed_ne, if_false, hmem, hparsed, if_true, hw, Bool.not_false]
  rfl

/-- A CLOSE frame is told to the user and answered; only where the answer cannot be written is the bufferevent
    freed. -/
theorem readFrame_close (ctx : WsCtx σ) (bev : Nat) (u : σ) (h : ¬NoMaskBit s env) (opcode : opcodeOf s env = wsOpcodeClose) :
    ∃ t again, readFrame ctx env bev s u = (t, ctx.callClose bev s.client.ctx u, again) ∧
      t.client.handshakeDone = s.client.handshakeDone ∧ t.hasWriteCb = s.hasWriteCb ∧
      (env.write = true → t.freed = s.freed ∧ t.input = (framed s env).input ∧
        again = decide (2 ≤ (framed s env).input.length)) := by
  cases hw : env.write with
  | false => exact ⟨_, _, readFrame_unanswered h opcode hw, rfl, rfl, fun hw' => absurd hw' Bool.false_ne_true⟩
  | true => exact ⟨_, _, readFrame_answered h opcode hw, rfl, rfl, fun _ => ⟨rfl, rfl, rfl⟩⟩

/-! ### The handshake -/

/-- The header lines that `ws_parse_handshake` finds. -/
def requestHead (s : Conn) (env : PassEnv) : List HeaderEntry :=
  ((wsParseHandshake env.malloc (CInt.toInt s.input.length)).run { mem := s.peek env }).1

def websocketKey? (s : Conn) (env : PassEnv) : Option HeaderEntry :=
  wsHeaderGet (requestHead s env) "Sec-WebSocket-Key".toUTF8.toList

structure Upgrades (s : Conn) (env : PassEnv) : Prop where
  key : (websocketKey? s env).isSome = true
  malloc : env.mallocConcat = true
  write : env.write = true

instance : Decidable (Upgrades s env) :=
  decidable_of_iff ((websocketKey? s env).isSome = true ∧ env.mallocConcat = true ∧ env.write = true)
    ⟨fun ⟨h, h', h''⟩ => ⟨h, h', h''⟩, fun ⟨h, h', h''⟩ => ⟨h, h', h''⟩⟩

/-- The connection after the reply was sent and `accept_cb` left the client object as given. -/
def upgraded (ssl : Digest) (s : Conn) (entry : HeaderEntry) (client : WsClient) : Conn :=
  { s with
    client
    input := s.input.drop (CInt.toSize (CInt.toInt s.input.length))
    written := s.written ++ [upgradeResponse (ssl.encodeBlock (ssl.sha1 (entry.value ++ wsMagic)))] }

theorem readHandshake_upgrades {entry : HeaderEntry} (key : websocketKey? s env = some entry) (h : Upgrades s env) :
    readHandshake ssl ctx env bev s u =
      let accepted := ctx.callAccept bev { s.client with handshakeDone := true } u
      (upgraded ssl s entry accepted.1, accepted.2) := by
  have hhead : (requestHead s env).isEmpty = false := by
    rw [List.isEmpty_eq_false_iff]
    intro hnil
    rw [websocketKey?, hnil] at key
    cases key
  rw [requestHead] at hhead
  rw [websocketKey?, requestHead] at key
  simp only [readHandshake, hhead, Bool.false_eq_true, if_false, key, h.malloc, h.write, Bool.not_true]
  rfl

theorem readHandshake_fails (ssl : Digest) (ctx : WsCtx σ) (bev : Nat) (u : σ) (h : ¬Upgrades s env) :
    ∃ input, readHandshake ssl ctx env bev s u = (({ s with input } : Conn).free .bufferevent, u) := by
  simp only [readHandshake]
  split
  · exact ⟨_, rfl⟩
  split
  · exact ⟨_, rfl⟩
  next entry key =>
    split
    · exact ⟨_, rfl⟩
    next hmalloc =>
      split
      · exact ⟨_, rfl⟩
      next hwrite =>
        rw [Bool.not_eq_true, Bool.not_eq_false'] at hmalloc hwrite
        exact absurd ⟨Option.isSome_of_eq_some key, hmalloc, hwrite⟩ h

/-- A handshake either fails, which frees the bufferevent and tells the user nothing, or is accepted. -/
theorem readHandshake_cases (ssl : Digest) (ctx : WsCtx σ) (env : PassEnv) (bev : Nat) (s : Conn) (u : σ) :
    let accepted := ctx.callAccept bev { s.client with handshakeDone := true } u
    (∃ t, readHandshake ssl ctx env bev s u = (t, u) ∧ t.client = s.client ∧ t.hasWriteCb = s.hasWriteCb ∧ ¬t.Live) ∨
    ∃ t, readHandshake ssl ctx env bev s u = (t, accepted.2) ∧ t.client = accepted.1 ∧
      t.hasWriteCb = s.hasWriteCb ∧ t.freed = s.freed := by
  by_cases h : Upgrades s env
  · obtain ⟨entry, key⟩ := Option.isSome_iff_exists.mp h.key
    exact Or.inr ⟨_, readHandshake_upgrades key h, rfl, rfl, rfl⟩
  · obtain ⟨input, hr⟩ := readHandshake_fails ssl ctx bev u h
    exact Or.inl ⟨_, hr, rfl, rfl, not_live_free _⟩

end Pass

/-! ### Accepting, events and sending -/

theorem acceptConnCb_cases {bufferevent client : Bool} {s : Conn} (h : acceptConnCb bufferevent client = some s) :
    s = { client := ⟨false, false, .null⟩, input := [], written := [], hasWriteCb := false, freed := [] } := by
  cases bufferevent with
  | false => cases h
  | true =>
    cases client with
    | false => cases h
    | true => exact (Option.some.inj h).symm

theorem hasWriteCb_acceptConnCb {bufferevent client : Bool} {s : Conn} (h : acceptConnCb bufferevent client = some s) :
    s.hasWriteCb = false := by
  rw [acceptConnCb_cases h]

section Events
variable {σ : Type} {ctx : WsCtx σ} {bev : Nat} {events : UInt16} {s : Conn} {u : σ}

theorem eventCb_ended (h : events &&& bevEventEofError ≠ 0) :
    eventCb ctx bev events s u = ((s.free .bufferevent).free .client, ctx.callClose bev (.client bev) u) := if_pos h

theorem eventCb_other (h : ¬events &&& bevEventEofError ≠ 0) : eventCb ctx bev events s u = (s, u) := if_neg h

end Events

theorem wsClientSend_cases (malloc : Option Mem) (write : Bool) (s : Conn) (opcode : UInt8) (data : List UInt8) :
    ∃ written, (wsClientSend malloc write s opcode data).2 = { s with written } := by
  unfold wsClientSend
  split
  · exact ⟨_, rfl⟩
  · dsimp only
    split
    · exact ⟨_, rfl⟩
    · split
      · exact ⟨_, rfl⟩
      · exact ⟨_, rfl⟩

theorem drained_frame (s : Conn) : (if s.hasWriteCb then writeCb s else s).client = s.client ∧
    (if s.hasWriteCb then writeCb s else s).written = s.written := by
  split
  · rw [writeCb]
    split
    · exact ⟨rfl, rfl⟩
    · exact ⟨rfl, rfl⟩
  · exact ⟨rfl, rfl⟩

/-! ### The event loop -/

section Loop
variable {σ : Type} {ssl : Digest} {ctx : WsCtx σ} {w t : Server σ} {e : Event} {bev d : Nat} {s : Conn} {u : σ}
  {pending : Option Nat}

theorem live?_eq_some : w.live? bev = some s ↔ w.conns[bev]? = some s ∧ s.Live := by
  rw [Server.live?, Option.filter_eq_some_iff, decide_eq_true_iff]

theorem get_set {s₀ : Conn} (h : w.conns[bev]? = some s₀) :
    (w.set bev s u pending).conns[d]? = if d = bev then some s else w.conns[d]? := by
  have hlt : bev < w.conns.length := (List.getElem?_eq_some_iff.mp h).1
  rw [Server.set, List.getElem?_set]
  by_cases hd : d = bev
  · subst hd
    rw [if_pos rfl, if_pos hlt, if_pos rfl]
  · rw [if_neg (Ne.symm hd), if_neg hd]

theorem pass?_conn {env : PassEnv} (h : w.pass? e = some (bev, env, s)) : ∃ s₀, w.conns[bev]? = some s₀ ∧ s₀.Live ∧
    s.client = s₀.client ∧ s.freed = s₀.freed ∧ s.hasWriteCb = s₀.hasWriteCb := by
  cases e with
  | read bev' bytes env' =>
    rw [Server.pass?, Option.ite_none_left_eq_some, Option.map_eq_some_iff] at h
    obtain ⟨-, s₀, hlive, heq⟩ := h
    cases heq
    obtain ⟨hget, live⟩ := live?_eq_some.mp hlive
    exact ⟨s₀, hget, live, rfl, rfl, rfl⟩
  | trigger env' =>
    rw [Server.pass?, Option.bind_eq_some_iff] at h
    obtain ⟨bev', -, h⟩ := h
    rw [Option.map_eq_some_iff] at h
    obtain ⟨s', hlive, heq⟩ := h
    cases heq
    obtain ⟨hget, live⟩ := live?_eq_some.mp hlive
    exact ⟨s, hget, live, rfl, rfl, rfl⟩
  | accept => cases h
  | event => cases h
  | drained => cases h

theorem step_of_pass {p : Nat × PassEnv × Conn} (h : w.pass? e = some p) :
    step ssl ctx w e = some (w.runPass ssl ctx p) := by
  cases e with
  | read => rw [step, h, Option.map_some]
  | trigger => rw [step, h, Option.map_some]
  | accept => cases h
  | event => cases h
  | drained => cases h

/-- The steps of the loop, one constructor for each thing that can happen. -/
inductive Stepped (ssl : Digest) (ctx : WsCtx σ) (w : Server σ) : Event → Server σ → Prop
  | pass {e : Event} (p : Nat × PassEnv × Conn) (h : w.pass? e = some p) : Stepped ssl ctx w e (w.runPass ssl ctx p)
  | refused (bufferevent client : Bool) : Stepped ssl ctx w (.accept bufferevent client) w
  | accepted (bufferevent client : Bool) (s : Conn) (h : acceptConnCb bufferevent client = some s) :
      Stepped ssl ctx w (.accept bufferevent client) { w with conns := w.conns ++ [s] }
  | event (bev : Nat) (events : UInt16) (s : Conn) (h : w.live? bev = some s) :
      Stepped ssl ctx w (.event bev events)
        (w.set bev (eventCb ctx bev events s w.user).1 (eventCb ctx bev events s w.user).2 none)
  | drained (bev : Nat) (s : Conn) (h : w.live? bev = some s) :
      Stepped ssl ctx w (.drained bev) (w.set bev (if s.hasWriteCb then writeCb s else s) w.user none)

theorem step_cases (h : step ssl ctx w e = some t) : Stepped ssl ctx w e t := by
  cases e with
  | accept bufferevent client =>
    rw [step, Option.ite_none_left_eq_some] at h
    obtain ⟨-, h⟩ := h
    cases hconn : acceptConnCb bufferevent client with
    | none =>
      rw [hconn] at h
      cases h
      exact .refused bufferevent client
    | some s =>
      rw [hconn] at h
      cases h
      exact .accepted bufferevent client s hconn
  | read bev bytes env =>
    rw [step, Option.map_eq_some_iff] at h
    obtain ⟨p, hpass, rfl⟩ := h
    exact .pass p hpass
  | trigger env =>
    rw [step, Option.map_eq_some_iff] at h
    obtain ⟨p, hpass, rfl⟩ := h
    exact .pass p hpass
  | event bev events =>
    rw [step, Option.ite_none_left_eq_some, Option.map_eq_some_iff] at h
    obtain ⟨-, s, hlive, rfl⟩ := h
    exact .event bev events s hlive
  | drained bev =>
    rw [step, Option.ite_none_left_eq_some, Option.map_eq_some_iff] at h
    obtain ⟨-, s, hlive, rfl⟩ := h
    exact .drained bev s hlive

/-- `bev` is served before its handshake is done. -/
def InHandshake (w : Server σ) (e : Event) (bev : Nat) : Prop :=
  ∃ env s, w.pass? e = some (bev, env, s) ∧ s.client.handshakeDone = false

/-- `bev` has sent a frame without the mask bit. -/
def Malformed (w : Server σ) (e : Event) (bev : Nat) : Prop :=
  ∃ env s, w.pass? e = some (bev, env, s) ∧ s.client.handshakeDone = true ∧ NoMaskBit s env

/-- `bev` closes: it has sent a CLOSE frame, or libevent reports its end or an error. -/
def Closes (w : Server σ) (e : Event) (bev : Nat) : Prop :=
  (∃ env s, w.pass? e = some (bev, env, s) ∧ s.client.handshakeDone = true ∧ ¬NoMaskBit s env ∧
    opcodeOf s env = wsOpcodeClose) ∨
  ∃ events, e = .event bev events ∧ events &&& bevEventEofError ≠ 0

theorem Closes.unique {bev' : Nat} (h : Closes w e bev) (h' : Closes w e bev') : bev = bev' := by
  rcases h with ⟨env, s, hpass, -⟩ | ⟨events, rfl, -⟩
  · rcases h' with ⟨env', s', hpass', -⟩ | ⟨events', rfl, -⟩
    · rw [hpass] at hpass'
      cases hpass'
      rfl
    · cases hpass
  · rcases h' with ⟨env', s', hpass', -⟩ | ⟨events', heq, -⟩
    · cases hpass'
    · cases heq
      rfl

theorem Closes.user (h : Closes w e bev) (hs : step ssl ctx w e = some t) : ∃ p, t.user = ctx.callClose bev p w.user := by
  rcases h with ⟨env, s, hpass, done, hmask, hclose⟩ | ⟨events, rfl, hend⟩
  · rw [step_of_pass hpass] at hs
    obtain ⟨t', again, hr, -⟩ := readFrame_close ctx bev w.user hmask hclose
    cases hs
    simp only [Server.runPass, readPass, done, Bool.not_true, Bool.false_eq_true, if_false, hr]
    exact ⟨_, rfl⟩
  · rw [step, Option.ite_none_left_eq_some, Option.map_eq_some_iff] at hs
    obtain ⟨-, s, -, ht⟩ := hs
    rw [eventCb_ended hend] at ht
    subst ht
    exact ⟨_, rfl⟩

end Loop

/-! ### A favourable pass -/

def sampleDigest : Digest := ⟨fun m => m, fun m => m⟩

def samplePass : PassEnv where
  extent := 2 ^ 31
  past := fun _ => 0
  malloc := fun _ => some fun _ => 0
  mallocConcat := true
  write := true
  frame := ⟨false, 0, 0, 0⟩
  tmp := fun _ => 0

end Vcmp.Websockets
