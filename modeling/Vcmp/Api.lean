import Vcmp.Websockets.Loop

/-! `src/api.c`: the user of the WebSocket server. Its state is `api_user_bev`, the connection that is told
    about events. -/

namespace Vcmp.Api
open ByteMem Websockets

def vcmpEventUserJoin : UInt8 := 1

/-- Logs, and reads a text as JSON only to drop the document. -/
def readCb (_bev : Nat) (_opcode : UInt8) (_payload : Mem) (_len : UInt64) (_ctx : Ptr) (apiUserBev : Option Nat) :
    Option Nat := apiUserBev

def acceptCb (bev : Nat) (client : WsClient) (apiUserBev : Option Nat) : WsClient × Option Nat :=
  if apiUserBev.isSome then (client, apiUserBev) else (client, some bev)

def closeCb (_bev : Nat) (_ctx : Ptr) (_apiUserBev : Option Nat) : Option Nat := none

/-- The callbacks that `vcmp_api_init` registers. -/
def apiCtx : WsCtx (Option Nat) := ⟨some readCb, some acceptCb, some closeCb⟩

/-- What one call of `vcmp_api_event_user` meets: the JSON writer, the allocation and whether the write
    succeeds. -/
structure SendEnv where
  yyjsonMutWrite : List (String × List UInt8) → Option (List UInt8)
  malloc : Option Mem
  write : Bool

def eventName (type : UInt8) : String := if type = vcmpEventUserJoin then "user_join" else "user_leave"

/-- The write goes to the connection that `api_user_bev` names, freed or not. -/
def vcmpApiEventUser (env : SendEnv) (type : UInt8) (username : List UInt8) (w : Server (Option Nat)) :
    Int × Server (Option Nat) :=
  match w.user with
  | none => (1, w)
  | some bev =>
    match env.yyjsonMutWrite [("event", (eventName type).toUTF8.toList), ("username", username)] with
    | none => (1, w)
    | some json =>
      match w.conns[bev]? with
      | none => (1, w)
      | some s =>
        let (ret, s) := wsClientSend env.malloc env.write s wsOpcodeText json
        (if ret ≠ 0 then 1 else 0, { w with conns := w.conns.set bev s })

/-- What happens next: something on a connection, or the rest of the program reports a user. -/
inductive Event where
  | server (e : Websockets.Event)
  | eventUser (env : SendEnv) (type : UInt8) (username : List UInt8)

def step (ssl : Digest) (w : Server (Option Nat)) : Event → Option (Server (Option Nat))
  | .server e => Websockets.step ssl apiCtx w e
  | .eventUser env type username => if w.pending.isSome then none else some (vcmpApiEventUser env type username w).2

def start : Server (Option Nat) := { conns := [], user := none, pending := none }

end Vcmp.Api
