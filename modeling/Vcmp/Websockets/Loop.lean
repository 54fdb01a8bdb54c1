import Vcmp.Lib.Lts
import Vcmp.Websockets.Server

/-! The event loop over the connections of the WebSocket server. A pass of `read_cb` that triggers another is
    followed by that one before anything else happens. -/

namespace Vcmp.Websockets

/-- The connections by their number, the user, and the connection whose `read_cb` has triggered itself. -/
structure Server (σ : Type) where
  conns : List Conn
  user : σ
  pending : Option Nat

/-- What happens next: a connection is accepted, bytes arrive on one, the pass that was triggered runs, or
    libevent reports an event or a drained output buffer. -/
inductive Event where
  | accept (bufferevent client : Bool)
  | read (bev : Nat) (bytes : List UInt8) (env : PassEnv)
  | trigger (env : PassEnv)
  | event (bev : Nat) (events : UInt16)
  | drained (bev : Nat)

def Conn.Live (s : Conn) : Prop := Resource.bufferevent ∉ s.freed

instance (s : Conn) : Decidable s.Live := inferInstanceAs (Decidable (_ ∉ _))

section Loop
variable {σ : Type} (ssl : Digest) (ctx : WsCtx σ)

def Server.live? (w : Server σ) (bev : Nat) : Option Conn := w.conns[bev]?.filter fun s => decide s.Live

/-- The pass of `read_cb` that an event makes run: its connection, what it meets, and the connection with
    what has arrived. -/
def Server.pass? (w : Server σ) : Event → Option (Nat × PassEnv × Conn)
  | .read bev bytes env =>
    if w.pending.isSome then none
    else (w.live? bev).map fun s => (bev, env, { s with input := s.input ++ bytes })
  | .trigger env => w.pending.bind fun bev => (w.live? bev).map fun s => (bev, env, s)
  | _ => none

def Server.set (w : Server σ) (bev : Nat) (s : Conn) (u : σ) (pending : Option Nat) : Server σ :=
  { conns := w.conns.set bev s, user := u, pending }

def Server.runPass (w : Server σ) (p : Nat × PassEnv × Conn) : Server σ :=
  let r := readPass ssl ctx p.2.1 p.1 p.2.2 w.user
  w.set p.1 r.1 r.2.1 (if r.2.2 then some p.1 else none)

def step (w : Server σ) : Event → Option (Server σ)
  | .accept bufferevent client =>
    if w.pending.isSome then none
    else
      match acceptConnCb bufferevent client with
      | none => some w
      | some s => some { w with conns := w.conns ++ [s] }
  | .read bev bytes env => (w.pass? (.read bev bytes env)).map (w.runPass ssl ctx)
  | .trigger env => (w.pass? (.trigger env)).map (w.runPass ssl ctx)
  | .event bev events =>
    if w.pending.isSome then none
    else (w.live? bev).map fun s =>
      let r := eventCb ctx bev events s w.user
      w.set bev r.1 r.2 none
  | .drained bev =>
    if w.pending.isSome then none
    else (w.live? bev).map fun s => w.set bev (if s.hasWriteCb then writeCb s else s) w.user none

/-! ### Reads on one connection -/

/-- Bytes that arrive, and what each pass of the `read_cb` that serves them meets. -/
structure Read where
  bytes : List UInt8
  env : Nat → PassEnv

/-- Serves the reads in turn; a bufferevent that was freed is not called back. -/
def serve (bev fuel : Nat) : List Read → Conn → σ → Option (Conn × σ)
  | [], s, u => some (s, u)
  | r :: rs, s, u =>
    if s.Live then
      (readCb ssl ctx bev fuel r.env { s with input := s.input ++ r.bytes } u).bind fun p => serve bev fuel rs p.1 p.2
    else some (s, u)

end Loop
end Vcmp.Websockets
