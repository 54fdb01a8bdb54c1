import Vcmp.Theorems.Server
import Vcmp.Websockets.Session

/-! What one step of a connection can be, and that the event loop takes the same steps. -/

namespace Vcmp.Websockets.Session
open ByteMem

variable {σ : Type} {ssl : Digest} {ctx : WsCtx σ} {bev : Nat} {w t : Session σ} {e : Event} {env : PassEnv} {s : Conn}

theorem pass?_conn (h : w.pass? e = some (env, s)) : ∃ input, s = { w.conn with input } := by
  cases e with
  | read bytes env' =>
    rw [pass?, Option.ite_none_left_eq_some] at h
    obtain ⟨-, heq⟩ := h
    cases heq
    exact ⟨_, rfl⟩
  | trigger env' =>
    rw [pass?, Option.ite_none_right_eq_some] at h
    obtain ⟨-, heq⟩ := h
    cases heq
    exact ⟨w.conn.input, rfl⟩
  | event => cases h
  | drained => cases h
  | send => cases h

theorem pass_conn {env : PassEnv} {s : Conn} (pass : w.pass? e = some (env, s)) :
    s.client = w.conn.client ∧ s.written = w.conn.written ∧ s.freed = w.conn.freed := by
  obtain ⟨input, rfl⟩ := pass?_conn pass
  exact ⟨rfl, rfl, rfl⟩

/-- The steps of a connection, one constructor for each exit of a callback. -/
inductive Stepped (ssl : Digest) (ctx : WsCtx σ) (bev : Nat) (w : Session σ) : Event → Session σ → Prop
  | refused {e : Event} {env : PassEnv} {s : Conn} (pass : w.pass? e = some (env, s))
      (young : s.client.handshakeDone = false) (fails : ¬Upgrades s env) (input : List UInt8) :
      Stepped ssl ctx bev w e ⟨({ s with input } : Conn).free .bufferevent, w.user, false⟩
  | upgraded {e : Event} {env : PassEnv} {s : Conn} {entry : HeaderEntry} (pass : w.pass? e = some (env, s))
      (young : s.client.handshakeDone = false) (key : websocketKey? s env = some entry) (upgrades : Upgrades s env) :
      Stepped ssl ctx bev w e
        ⟨upgraded ssl s entry (ctx.callAccept bev { s.client with handshakeDone := true } w.user).1,
          (ctx.callAccept bev { s.client with handshakeDone := true } w.user).2, false⟩
  | malformed {e : Event} {env : PassEnv} {s : Conn} (pass : w.pass? e = some (env, s))
      (done : s.client.handshakeDone = true) (mask : NoMaskBit s env) :
      Stepped ssl ctx bev w e ⟨s.free .bufferevent, w.user, false⟩
  | unanswered {e : Event} {env : PassEnv} {s : Conn} (pass : w.pass? e = some (env, s))
      (done : s.client.handshakeDone = true) (mask : ¬NoMaskBit s env) (close : opcodeOf s env = wsOpcodeClose)
      (write : env.write = false) :
      Stepped ssl ctx bev w e
        ⟨(s.poke env (memAfter s env)).free .bufferevent, ctx.callClose bev s.client.ctx w.user, false⟩
  | answered {e : Event} {env : PassEnv} {s : Conn} (pass : w.pass? e = some (env, s))
      (done : s.client.handshakeDone = true) (mask : ¬NoMaskBit s env) (close : opcodeOf s env = wsOpcodeClose)
      (write : env.write = true) :
      Stepped ssl ctx bev w e
        ⟨closed s env, ctx.callClose bev s.client.ctx w.user, decide (2 ≤ (framed s env).input.length)⟩
  | data {e : Event} {env : PassEnv} {s : Conn} (pass : w.pass? e = some (env, s))
      (done : s.client.handshakeDone = true) (mask : ¬NoMaskBit s env) (other : opcodeOf s env ≠ wsOpcodeClose) :
      Stepped ssl ctx bev w e
        ⟨framed s env, ctx.callRead bev (opcodeOf s env) (fun i => memAfter s env (parsedHeader (s.peek env) + i))
          (parsedLength (s.peek env)) s.client.ctx w.user, decide (2 ≤ (framed s env).input.length)⟩
  | ended (events : UInt16) (bits : events &&& bevEventEofError ≠ 0) :
      Stepped ssl ctx bev w (.event events)
        ⟨(w.conn.free .bufferevent).free .client, ctx.callClose bev (.client bev) w.user, false⟩
  | ignored (events : UInt16) (bits : ¬events &&& bevEventEofError ≠ 0) : Stepped ssl ctx bev w (.event events) w
  | drained : Stepped ssl ctx bev w .drained { w with conn := if w.conn.hasWriteCb then writeCb w.conn else w.conn }
  | sent (malloc : Option Mem) (write : Bool) (opcode : UInt8) (data : List UInt8) :
      Stepped ssl ctx bev w (.send malloc write opcode data)
        { w with conn := (wsClientSend malloc write w.conn opcode data).2 }

theorem runPass_stepped (pass : w.pass? e = some (env, s)) : Stepped ssl ctx bev w e (w.runPass ssl ctx bev (env, s)) := by
  cases young : s.client.handshakeDone with
  | false =>
    simp only [runPass, readPass, young, Bool.not_false, if_true]
    by_cases h : Upgrades s env
    · obtain ⟨entry, key⟩ := Option.isSome_iff_exists.mp h.key
      rw [readHandshake_upgrades key h]
      exact .upgraded pass young key h
    · obtain ⟨input, hr⟩ := readHandshake_fails ssl ctx bev w.user h
      rw [hr]
      exact .refused pass young h input
  | true =>
    simp only [runPass, readPass, young, Bool.not_true, Bool.false_eq_true, if_false]
    by_cases mask : NoMaskBit s env
    · rw [readFrame_unmasked mask]
      exact .malformed pass young mask
    · by_cases close : opcodeOf s env = wsOpcodeClose
      · cases write : env.write with
        | false =>
          rw [readFrame_unanswered mask close write]
          exact .unanswered pass young mask close write
        | true =>
          rw [readFrame_answered mask close write]
          exact .answered pass young mask close write
      · rw [readFrame_data mask close]
        exact .data pass young mask close

theorem step_cases (h : step ssl ctx bev w e = some t) : w.conn.Live ∧ Stepped ssl ctx bev w e t := by
  rw [step.eq_def, Option.ite_none_right_eq_some] at h
  obtain ⟨live, h⟩ := h
  refine ⟨live, ?_⟩
  cases e with
  | read bytes env =>
    obtain ⟨⟨env', s⟩, hpass, rfl⟩ := Option.map_eq_some_iff.mp h
    exact runPass_stepped hpass
  | trigger env =>
    obtain ⟨⟨env', s⟩, hpass, rfl⟩ := Option.map_eq_some_iff.mp h
    exact runPass_stepped hpass
  | event events =>
    obtain ⟨hpending, h⟩ := Option.ite_none_left_eq_some.mp h
    by_cases bits : events &&& bevEventEofError ≠ 0
    · rw [eventCb_ended bits] at h
      obtain rfl := Option.some.inj h
      exact .ended events bits
    · rw [eventCb_other bits] at h
      have hsame : t = { w with pending := false } := (Option.some.inj h).symm
      rw [← Bool.eq_false_iff.mpr hpending] at hsame
      exact hsame ▸ .ignored events bits
  | drained =>
    obtain rfl := Option.some.inj (Option.ite_none_left_eq_some.mp h).2
    exact .drained
  | send malloc write opcode data =>
    obtain rfl := Option.some.inj h
    exact .sent malloc write opcode data

/-- Where the loop may serve a connection, it does with it what its session does. -/
theorem step_loop {v : Server σ} {e' : Websockets.Event} (live : v.live? bev = some s)
    (free : v.pending = none ∨ v.pending = some bev) (at' : e.at? bev = some e') :
    Websockets.step ssl ctx v e' = (step ssl ctx bev ⟨s, v.user, v.pending.isSome⟩ e).map
      fun t => v.set bev t.conn t.user (if t.pending then some bev else none) := by
  have hlive : s.Live := (live?_eq_some.mp live).2
  rw [step.eq_def, if_pos hlive]
  cases e with
  | read bytes env =>
    cases at'
    rcases free with hnone | hsome
    · simp [Websockets.step, Server.pass?, pass?, hnone, live, Server.runPass, runPass]
    · simp [Websockets.step, Server.pass?, pass?, hsome]
  | trigger env =>
    cases at'
    rcases free with hnone | hsome
    · simp [Websockets.step, Server.pass?, pass?, hnone]
    · simp [Websockets.step, Server.pass?, pass?, hsome, live, Server.runPass, runPass]
  | event events =>
    cases at'
    rcases free with hnone | hsome
    · simp [Websockets.step, hnone, live]
    · simp [Websockets.step, hsome]
  | drained =>
    cases at'
    rcases free with hnone | hsome
    · simp [Websockets.step, hnone, live]
    · simp [Websockets.step, hsome]
  | send => cases at'

end Vcmp.Websockets.Session
