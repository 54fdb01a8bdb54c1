import Vcmp.Lib.Extents
import Vcmp.Listener
import Vcmp.Socks5
import Vcmp.Websockets.Server

/-! `evbuffer_peek` with one vector shows the first extent of the input buffer: the read callbacks of the SOCKS5 client,
the listener and the WebSocket server, each byte that they look at behind `vec[0].iov_base` as a load of its own. -/

namespace Vcmp
open ByteMem CInt ByteOrder

/-! ### The SOCKS5 client -/

namespace Socks5
variable {σ : Type} (app : App σ)

/-- `case SOCKS5_STAGE_IDENT` -/
def peekIdent (env : Env) (s : Conn σ) : Prog (Conn σ) := do
  let len := toInt s.input.length
  let ver ← load 0
  let method ← load 1
  if ver ≠ socks5Version then return s.fail app
  else if method = socks5MethodNone then
    let r := socks5SendReq env.malloc env.write s.ctx
    if r.1 ≠ 0 then return s.fail app
    else
      let s := { s with written := s.written ++ r.2.toList }
      return (s.setStage socks5StageRequest).drain (toSize len)
  else return s.fail app

/-- `case SOCKS5_STAGE_REQUEST`: the reserved byte is looked at only behind the right version. -/
def peekRequest (s : Conn σ) : Prog (Conn σ) := do
  let len := toInt s.input.length
  if (← load 0) ≠ socks5Version then return s.fail app
  else if (← load 2) ≠ socks5Reserved then return s.fail app
  else if (← load 1) ≠ socks5ReplySucceeded then return s.fail app
  else
    let s := s.drain (toSize len)
    return (s.setStage socks5StageConnected).callEvent app bevEventConnected

def peekCb (env : Env) (s : Conn σ) : Prog (Conn σ) :=
  if s.ctx.stage = socks5StageIdent then peekIdent app env s
  else if s.ctx.stage = socks5StageRequest then peekRequest app s
  else if s.ctx.stage = socks5StageConnected then return readConnected app s
  else return s

/-- `read_cb` of a connection, for what its input buffer holds. -/
def callback (env : Env) (s : Conn σ) : Callback (Conn σ) := Prog.callback fun input => peekCb app env { s with input }

end Socks5

/-! ### The listener -/

namespace Listener
variable {K : Type}

/-- Compares the bytes from offset `i` on one by one, up to the first that differs. -/
def differs (i : Nat) : List UInt8 → Prog Bool
  | [] => return false
  | b :: rest => do
    if (← load i) ≠ b then return true
    else differs (i + 1) rest

/-- `vcmp_validate(h) != 0 || h->type != type` -/
def peekInvalid (type : UInt8) : Prog Bool := differs 0 (vcmpGenHeader type).bytes

/-- `case VCMP_PEER_STAGE_NONE` behind the check of the header. -/
def verify (env : Env K) (keypair : K) (s : Conn K) : Conn K :=
  let s := s.drain sizeofHeader
  match env.rsaGetDerPubkey keypair with
  | none => s.reject
  | some derPubkey =>
    match vcmpGenHsHeader env.mallocHandshake vcmpTypeHsInit (UInt32.ofNat derPubkey.length) derPubkey with
    | none => s.reject
    | some hs =>
      if !env.write then s.reject
      else
        let s := s.write hs.bytes (sizeofHandshake + hs.keylen.toNat)
        { s with peer := { s.peer with stage := .pubkeyWait } }

/-- `case VCMP_PEER_STAGE_NONE` -/
def peekNone (env : Env K) (keypair : K) (s : Conn K) : Prog (Conn K) := do
  if ← peekInvalid vcmpTypeVerify then return s.reject
  else return verify env keypair s

/-- `case VCMP_PEER_STAGE_PUBKEY_WAIT` behind the load of the key. -/
def acknowledge (env : Env K) (loaded : Option K) (s : Conn K) : Conn K :=
  match loaded with
  | none => s.reject
  | some pubkey =>
    let s := { s with peer := { s.peer with authenticity := env.randArray } }
    match env.rsaEncrypt s.peer.authenticity.toList pubkey with
    | none => s.rejectKey (some pubkey)
    | some enc =>
      if !env.mallocData then s.rejectKey (some pubkey)
      else
        let buf := vcmpGenDataHeader env.uuid env.time (UInt32.ofNat enc.outlen) enc.bytes
        if !env.write then s.rejectKey (some pubkey)
        else
          let s := s.write buf.bytes sizeofPointer
          { s with peer := { s.peer with pubkey := some pubkey, stage := .pubkeyCheck } }

/-- `case VCMP_PEER_STAGE_PUBKEY_CHECK` behind the decryption. -/
def authenticate (decrypted : Option Block) (s : Conn K) : Conn K :=
  match decrypted with
  | none => s.rejectKey s.peer.pubkey
  | some dec =>
    if s.peer.authenticity.toList ≠ slice dec.mem 0 12 then s.rejectKey s.peer.pubkey
    else { s with peer := { s.peer with stage := .ready } }

/-- The checks that `PUBKEY_WAIT` and `PUBKEY_CHECK` make of a packet of `len` bytes: its length against the field at
    `field`, and its header. What lies behind the `size` bytes of its fields is handed on whole. -/
def peekPacket (len size field : Nat) (type : UInt8) : Prog (Option (List UInt8)) := do
  let n := (UInt32.ofNat (ofLE (← loadBytes field 4))).toNat
  if len ≠ size + n then return none
  else if ← peekInvalid type then return none
  else return some (← loadBytes size n)

/-- `case VCMP_PEER_STAGE_PUBKEY_WAIT`; `h->keylen` is at offset 7. -/
def peekPubkeyWait (env : Env K) (s : Conn K) : Prog (Conn K) := do
  let len := toInt s.input.length
  if toSize len ≤ sizeofHandshake then return s.reject
  else
    match ← peekPacket (toSize len) sizeofHandshake 7 vcmpTypeHsAck with
    | none => return s.reject
    | some key => return acknowledge env (env.rsaLoadDerPubkey key) (s.drain (toSize len))

/-- `case VCMP_PEER_STAGE_PUBKEY_CHECK`; `h->len` is at offset 31. -/
def peekPubkeyCheck (env : Env K) (keypair : K) (s : Conn K) : Prog (Conn K) := do
  let len := toInt s.input.length
  if toSize len ≤ sizeofData then return s.reject
  else
    match ← peekPacket (toSize len) sizeofData 31 vcmpTypeData with
    | none => return s.rejectKey s.peer.pubkey
    | some payload => return authenticate (env.rsaDecrypt payload keypair) (s.drain (toSize len))

def peekCb (env : Env K) (keypair : K) (s : Conn K) : Prog (Conn K) :=
  if s.input.length < sizeofHeader then return s.reject
  else
    match s.peer.stage with
    | .none => peekNone env keypair s
    | .pubkeyWait => peekPubkeyWait env s
    | .pubkeyCheck => peekPubkeyCheck env keypair s
    | .ready => return s

def callback (env : Env K) (keypair : K) (s : Conn K) : Callback (Conn K) :=
  Prog.callback fun input => peekCb env keypair { s with input }

end Listener

/-! ### The WebSocket server -/

namespace Websockets
variable {σ : Type}

/-- A user whose `read_cb` reads its payload and nothing behind it. -/
structure Reader (σ : Type) extends WsCtx σ where
  confined : ∀ bev opcode payload payload' len p u, slice payload 0 len.toNat = slice payload' 0 len.toNat →
    toWsCtx.callRead bev opcode payload len p u = toWsCtx.callRead bev opcode payload' len p u

/-- The offsets that the parser looks at or changes in a pass of `read_cb`. -/
def passTouched (env : PassEnv) (s : Conn) : List Nat :=
  let len := toInt s.input.length
  if !s.client.handshakeDone then ((wsParseHandshake env.malloc len).run { mem := s.peek env }).2.touched
  else ((wsParseFrame (UInt64.ofNat (toSize len)) env.frame).run { mem := s.peek env }).2.touched

/-- `read_cb` of a connection, for what its input buffer holds, how much of it lies in the first extent and what
    behind that. -/
def callback (ssl : Digest) (user : Reader σ) (env : PassEnv) (bev : Nat) (s : Conn) (u : σ) : Callback (Conn × σ × Bool) :=
  fun first input past =>
    let env := { env with extent := first.length, past }
    let s := { s with input }
    (readPass ssl user.toWsCtx env bev s u, passTouched env s)

end Websockets
end Vcmp
