import Vcmp.Lib.CInt
import Vcmp.Websockets.Frame
import Vcmp.Websockets.Handshake

/-! `src/websockets/websockets.c`: the callbacks of one WebSocket connection. The user behind them is a state
    that the user's own callbacks change, and a `bufferevent` is named by a number. -/

namespace Vcmp.Websockets
open ByteMem CInt

def wsMagic : List UInt8 := "258EAFA5-E914-47DA-95CA-C5AB0DC85B11".toUTF8.toList

/-- What the `void *ctx` of a callback points to. -/
inductive Ptr where
  | null
  | client (bev : Nat)
  | user (object : Nat)
  deriving DecidableEq

/-- `struct ws_client` -/
structure WsClient where
  handshakeDone : Bool
  disconnect : Bool
  ctx : Ptr
  deriving DecidableEq

/-- `ws_ctx_t`: the callbacks of the user, each `none` where it is `NULL`. The payload is the memory behind
    its pointer. -/
structure WsCtx (σ : Type) where
  readCb : Option (Nat → UInt8 → Mem → UInt64 → Ptr → σ → σ)
  acceptCb : Option (Nat → WsClient → σ → WsClient × σ)
  closeCb : Option (Nat → Ptr → σ → σ)

namespace WsCtx
variable {σ : Type} (ctx : WsCtx σ)

/-- `if (_ctx.read_cb) _ctx.read_cb(...)` -/
def callRead (bev : Nat) (opcode : UInt8) (payload : Mem) (len : UInt64) (p : Ptr) (u : σ) : σ :=
  match ctx.readCb with
  | none => u
  | some readCb => readCb bev opcode payload len p u

/-- `if (_ctx.accept_cb) _ctx.accept_cb(...)`, which may change the client object. -/
def callAccept (bev : Nat) (client : WsClient) (u : σ) : WsClient × σ :=
  match ctx.acceptCb with
  | none => (client, u)
  | some acceptCb => acceptCb bev client u

/-- `if (_ctx.close_cb) _ctx.close_cb(...)` -/
def callClose (bev : Nat) (p : Ptr) (u : σ) : σ :=
  match ctx.closeCb with
  | none => u
  | some closeCb => closeCb bev p u

end WsCtx

/-- The functions of OpenSSL behind the handshake. -/
structure Digest where
  sha1 : List UInt8 → List UInt8
  encodeBlock : List UInt8 → List UInt8

/-- What a connection holds until it is released. -/
inductive Resource where
  | bufferevent
  | client
  deriving DecidableEq

/-- A connection: its client object, its input buffer, what was handed to `bufferevent_write`, whether a
    write callback is set, and what was freed, in order. -/
structure Conn where
  client : WsClient
  input : List UInt8
  written : List (List UInt8)
  hasWriteCb : Bool
  freed : List Resource

/-- What one pass of `read_cb` meets: how many bytes of the buffer lie in its first extent and what lies
    behind them, the allocations, whether its write succeeds, and what its variables on the stack hold. -/
structure PassEnv where
  extent : Nat
  past : Mem
  malloc : Nat → Option Mem
  mallocConcat : Bool
  write : Bool
  frame : WsFrame
  tmp : Mem

/-! ### One connection -/

def Conn.free (s : Conn) (r : Resource) : Conn := { s with freed := s.freed ++ [r] }

/-- `evbuffer_drain(input, n)` -/
def Conn.drain (s : Conn) (n : Nat) : Conn := { s with input := s.input.drop n }

/-- `bufferevent_write` that succeeds. -/
def Conn.write (s : Conn) (bytes : List UInt8) : Conn := { s with written := s.written ++ [bytes] }

/-- What `evbuffer_peek` gives: the memory at the first extent of the input buffer. -/
def Conn.peek (s : Conn) (env : PassEnv) : Mem := ofBytes (s.input.take env.extent) env.past

/-- The input buffer after the memory at its first extent was changed. -/
def Conn.poke (s : Conn) (env : PassEnv) (m : Mem) : Conn :=
  { s with input := slice m 0 (s.input.take env.extent).length ++ s.input.drop env.extent }

def upgradeResponse (accept : List UInt8) : List UInt8 :=
  ("HTTP/1.1 101 Switching Protocols\r\nUpgrade: websocket\r\nConnection: Upgrade\r\nSec-WebSocket-Accept: ").toUTF8.toList ++
    accept ++ "\r\n\r\n".toUTF8.toList

section Callbacks
variable {σ : Type} (ssl : Digest) (ctx : WsCtx σ)

/-- `read_cb` before the handshake is done; the key of a request is shorter than 2^31 bytes. -/
def readHandshake (env : PassEnv) (bev : Nat) (s : Conn) (u : σ) : Conn × σ :=
  let len := toInt s.input.length
  let head := ((wsParseHandshake env.malloc len).run { mem := s.peek env }).1
  if head.isEmpty then (s.free .bufferevent, u)
  else
    match wsHeaderGet head "Sec-WebSocket-Key".toUTF8.toList with
    | none => (s.free .bufferevent, u)
    | some entry =>
      if !env.mallocConcat then (s.free .bufferevent, u)
      else
        let hash := ssl.sha1 (entry.value ++ wsMagic)
        let s := s.drain (toSize len)
        if !env.write then (s.free .bufferevent, u)
        else
          let s := s.write (upgradeResponse (ssl.encodeBlock hash))
          let r := ctx.callAccept bev { s.client with handshakeDone := true } u
          ({ s with client := r.1 }, r.2)

/-- The end of a pass: the frame is drained, and what remains asks for another pass from two bytes on. -/
def finishFrame (frameSize : Int) (frame : WsFrame) (s : Conn) : Conn × Bool :=
  let s := s.drain ((toSize frameSize + frame.len.toNat) % 2 ^ 64)
  (s, decide (2 ≤ s.input.length))

/-- `read_cb` once the handshake is done: one frame. -/
def readFrame (env : PassEnv) (bev : Nat) (s : Conn) (u : σ) : Conn × σ × Bool :=
  let len := toInt s.input.length
  let r := (wsParseFrame (UInt64.ofNat (toSize len)) env.frame).run { mem := s.peek env }
  let frameSize := r.1.1
  let frame := r.1.2
  let s := s.poke env r.2.mem
  if frameSize = -1 then (s.free .bufferevent, u, false)
  else if frame.opcode = wsOpcodeClose then
    let u := ctx.callClose bev s.client.ctx u
    let reply := (wsMakeFrame true frame.opcode frame.len 256).run { mem := env.tmp }
    if !env.write then (s.free .bufferevent, u, false)
    else
      let s := s.write (slice reply.2.mem 0 (toSize reply.1))
      let (s, again) := finishFrame frameSize frame { s with client := { s.client with disconnect := true } }
      (s, u, again)
  else
    let u := ctx.callRead bev frame.opcode (fun i => r.2.mem (frame.start + i)) frame.len s.client.ctx u
    let (s, again) := finishFrame frameSize frame s
    (s, u, again)

def readPass (env : PassEnv) (bev : Nat) (s : Conn) (u : σ) : Conn × σ × Bool :=
  if !s.client.handshakeDone then
    let (s, u) := readHandshake ssl ctx env bev s u
    (s, u, false)
  else readFrame ctx env bev s u

/-- `read_cb` with the passes it triggers: `bufferevent_trigger` calls it again right away, as its last
    action. There is no result where `fuel` passes are not enough; `env k` is what the pass `k` meets. -/
def readCb (bev : Nat) : Nat → (Nat → PassEnv) → Conn → σ → Option (Conn × σ)
  | 0, _, _, _ => none
  | fuel + 1, env, s, u =>
    match readPass ssl ctx (env 0) bev s u with
    | (s, u, false) => some (s, u)
    | (s, u, true) => readCb bev fuel (fun k => env (k + 1)) s u

def writeCb (s : Conn) : Conn :=
  if s.client.disconnect then (s.free .bufferevent).free .client else s

/-- `BEV_EVENT_EOF | BEV_EVENT_ERROR` -/
def bevEventEofError : UInt16 := 0x10 ||| 0x20

def eventCb (bev : Nat) (events : UInt16) (s : Conn) (u : σ) : Conn × σ :=
  if events &&& bevEventEofError ≠ 0 then
    ((s.free .bufferevent).free .client, ctx.callClose bev (.client bev) u)
  else (s, u)

/-- `accept_conn_cb`; the arguments tell whether the bufferevent and the client object could be allocated.
    No write callback is set. -/
def acceptConnCb (bufferevent client : Bool) : Option Conn :=
  if !bufferevent then none
  else if !client then none
  else some { client := ⟨false, false, .null⟩, input := [], written := [], hasWriteCb := false, freed := [] }

end Callbacks

/-- `ws_client_send`; the block that `malloc` returns is filled with the header and the data. -/
def wsClientSend (malloc : Option Mem) (write : Bool) (s : Conn) (opcode : UInt8) (data : List UInt8) : Int × Conn :=
  let len := UInt64.ofNat data.length
  let frameSize := wsCalcFrameSize len
  match malloc with
  | none => (1, s)
  | some block =>
    let size := (toSize frameSize + len.toNat) % 2 ^ 64
    let header := (wsMakeFrame true opcode len (UInt64.ofNat size)).run { mem := block }
    let n := header.1
    if n ≠ frameSize then (1, s)
    else
      let buf : Mem := fun i => if toSize n ≤ i then data.getD (i - toSize n) (header.2.mem i) else header.2.mem i
      if !write then (1, s)
      else (0, s.write (slice buf 0 size))

end Vcmp.Websockets
