import Vcmp.Websockets.Loop

/-! One connection of the WebSocket server, from its acceptance until its bufferevent is freed: what libevent
    calls back, and the frames that the program sends to it. -/

namespace Vcmp.Websockets

/-- The connection, the user, and whether `read_cb` has triggered itself. -/
structure Session (σ : Type) where
  conn : Conn
  user : σ
  pending : Bool

namespace Session

/-- What happens next. A frame that a callback of the user sends is sent before or after the pass. -/
inductive Event where
  | read (bytes : List UInt8) (env : PassEnv)
  | trigger (env : PassEnv)
  | event (events : UInt16)
  | drained
  | send (malloc : Option ByteMem.Mem) (write : Bool) (opcode : UInt8) (data : List UInt8)

variable {σ : Type} (ssl : Digest) (ctx : WsCtx σ) (bev : Nat)

/-- The pass of `read_cb` that an event makes run: what it meets, and the connection with what has arrived. -/
def pass? (w : Session σ) : Event → Option (PassEnv × Conn)
  | .read bytes env => if w.pending then none else some (env, { w.conn with input := w.conn.input ++ bytes })
  | .trigger env => if w.pending then some (env, w.conn) else none
  | _ => none

def runPass (w : Session σ) (p : PassEnv × Conn) : Session σ :=
  let r := readPass ssl ctx p.1 bev p.2 w.user
  ⟨r.1, r.2.1, r.2.2⟩

/-- A bufferevent that was freed is not called back, and nothing is sent on it. -/
def step (w : Session σ) (e : Event) : Option (Session σ) :=
  if w.conn.Live then
    match e with
    | .read bytes env => (w.pass? (.read bytes env)).map (w.runPass ssl ctx bev)
    | .trigger env => (w.pass? (.trigger env)).map (w.runPass ssl ctx bev)
    | .event events =>
      if w.pending then none
      else
        let r := eventCb ctx bev events w.conn w.user
        some ⟨r.1, r.2, false⟩
    | .drained =>
      if w.pending then none else some { w with conn := if w.conn.hasWriteCb then writeCb w.conn else w.conn }
    | .send malloc write opcode data => some { w with conn := (wsClientSend malloc write w.conn opcode data).2 }
  else none

/-- A call of a callback of the user, with the object it gets. -/
inductive Traced where
  | accept
  | read (p : Ptr)
  | close (p : Ptr)
  deriving DecidableEq

/-- A user that sets its object to `p` when it accepts and keeps the calls made to it. -/
def tracer (p : Ptr) : WsCtx (List Traced) where
  readCb := some fun _ _ _ _ q calls => calls ++ [.read q]
  acceptCb := some fun _ client calls => ({ client with ctx := p }, calls ++ [.accept])
  closeCb := some fun _ q calls => calls ++ [.close q]

/-- The event of the loop that this is on connection `bev`; the loop sends nothing. -/
def Event.at? (bev : Nat) : Event → Option Websockets.Event
  | .read bytes env => some (.read bev bytes env)
  | .trigger env => some (.trigger env)
  | .event events => some (.event bev events)
  | .drained => some (.drained bev)
  | .send _ _ _ _ => none

end Session
end Vcmp.Websockets
