import Vcmp.Lib.CInt
import Vcmp.Lib.CString
import Vcmp.Lib.Lts
import Vcmp.Websockets.Frame

/-! `src/socks5.c`: the client side of a SOCKS5 proxy connection. The application behind it is a state that its
    callbacks change. -/

namespace Vcmp.Socks5
open ByteMem ByteOrder CInt CString

def socks5Version : UInt8 := 5
def socks5Reserved : UInt8 := 0
def socks5AtypIpv4 : UInt8 := 1
def socks5AtypDomainname : UInt8 := 3
def socks5AtypIpv6 : UInt8 := 4
def socks5CmdConnect : UInt8 := 1
def socks5ReplySucceeded : UInt8 := 0
def socks5MethodNone : UInt8 := 0

def socks5StageIdent : UInt32 := 1
def socks5StageRequest : UInt32 := 3
def socks5StageConnected : UInt32 := 4

/-- `BEV_EVENT_*` of libevent. -/
def bevEventEof : UInt16 := 0x10
def bevEventError : UInt16 := 0x20
def bevEventConnected : UInt16 := 0x80

/-- `socks5_hostname_t` -/
structure Hostname where
  len : Int
  hostname : Mem

/-- The fields of a `socks5_ctx_t` that are no callbacks, with what `malloc` left in them. A pointer is `none` where
    it is `NULL`. -/
structure Block where
  hostname : Option Hostname
  ipv4Addr : Option (Vector UInt8 4)
  dstPort : UInt16
  stage : UInt32

/-- `socks5_ctx_t`: one of the addresses is there. -/
structure Ctx extends Block where
  addressed : ipv4Addr.isSome = true ∨ hostname.isSome = true

/-! ### Contexts -/

/-- `snprintf(buf, n, "%s", string)`: what it returns, which is -1 where an `int` does not hold the length of the
    string, and the buffer. -/
def snprintf (buf : Mem) (n : Nat) (string : List UInt8) : Int × Mem :=
  (if string.length < 2 ^ 31 then string.length else -1, put buf 0 (string.take (n - 1) ++ [0]))

/-- The arguments after the port are what the allocations return. -/
def socks5CtxNewHostname (dstHostname : List UInt8) (dstPort : UInt16) (malloc : Option Block)
    (mallocHostname : Option Mem) : Option Ctx := do
  let c ← malloc
  let block ← mallocHostname
  let (len, text) := snprintf block 256 dstHostname
  return { c with hostname := some { len, hostname := text }, dstPort, addressed := Or.inr rfl }

/-- `pton` is what `evutil_inet_pton` makes of the address. -/
def socks5CtxNewIpv4 (pton : Option (Vector UInt8 4)) (dstPort : UInt16) (malloc : Option Block)
    (mallocAddr : Bool) : Option Ctx := do
  let c ← malloc
  if !mallocAddr then none else
  let ipv4 ← pton
  return { c with ipv4Addr := some ipv4, dstPort, addressed := Or.inl rfl }

/-- A `socks5_ctx_t` as `malloc` returns it: its pointers, 0 for `NULL`, and what is no callback besides them. -/
structure RawBlock where
  hostname : UInt64
  ipv4Addr : UInt64
  dstPort : UInt16
  stage : UInt32

/-- What lies behind a pointer, for each type of it. -/
structure Heap where
  hostname : UInt64 → Hostname
  ipv4Addr : UInt64 → Vector UInt8 4

def RawBlock.block (heap : Heap) (raw : RawBlock) : Block where
  hostname := if raw.hostname = 0 then none else some (heap.hostname raw.hostname)
  ipv4Addr := if raw.ipv4Addr = 0 then none else some (heap.ipv4Addr raw.ipv4Addr)
  dstPort := raw.dstPort
  stage := raw.stage

/-- The pointers that are freed, for the pointers in a context and to it. -/
def socks5CtxFree (hostname ipv4Addr ctx : UInt64) : List UInt64 :=
  (if hostname ≠ 0 then [hostname] else []) ++ ((if ipv4Addr ≠ 0 then [ipv4Addr] else []) ++ [ctx])

/-- The address that a request is made for: an IPv4 address goes first. -/
def Ctx.target (ctx : Ctx) : Vector UInt8 4 ⊕ Hostname :=
  match hi : ctx.ipv4Addr, hn : ctx.hostname with
  | some addr, _ => .inl addr
  | none, some hostname => .inr hostname
  | none, none => absurd ctx.addressed (by simp [hi, hn])

/-- Returns what the source does, and the bytes where they are handed to `bufferevent_write`. -/
def socks5SendReq (malloc : Option Mem) (write : Bool) (ctx : Ctx) : Int × Option (List UInt8) :=
  match malloc with
  | none => (1, none)
  | some buf =>
    let p := toLE 2 (htons ctx.dstPort).toNat
    let (buf, buflen) : Mem × Int :=
      match ctx.target with
      | .inl addr =>
        let buf := put buf 3 [socks5AtypIpv4]
        let buf := put buf 4 addr.toList
        (put buf 8 p, 10)
      | .inr hostname =>
        let buf := put buf 3 [socks5AtypDomainname]
        let buf := put buf 4 [UInt8.ofNat (toSize hostname.len)]
        let buf := put buf 5 (slice hostname.hostname 0 (toSize hostname.len))
        (put buf (toSize (hostname.len + 5)) p, hostname.len + 7)
    let buf := put buf 0 [socks5Version, socks5CmdConnect, socks5Reserved]
    if write then (0, some (slice buf 0 (toSize buflen))) else (1, none)

/-! ### One connection -/

/-- The callbacks of the application, each `none` where it is `NULL`; `readcb` takes bytes from the input
    buffer. -/
structure App (σ : Type) where
  readcb : Option (List UInt8 → σ → List UInt8 × σ)
  writecb : Option (σ → σ)
  eventcb : Option (UInt16 → σ → σ)

/-- What a connection holds until it is released. -/
inductive Resource where
  | bufferevent
  | ctx
  deriving DecidableEq

/-- A connection: its context, the input buffer in one extent, what was handed to `bufferevent_write`, what was
    freed, in order, and the application. -/
structure Conn (σ : Type) where
  ctx : Ctx
  input : List UInt8
  written : List (List UInt8)
  freed : List Resource
  app : σ

/-- What a callback meets: the memory behind the input buffer, the allocation and whether its write succeeds. -/
structure Env where
  past : Mem
  malloc : Option Mem
  write : Bool

section Callbacks
variable {σ : Type} (app : App σ)

/-- `if (s5_ctx->eventcb) s5_ctx->eventcb(...)` -/
def Conn.callEvent (s : Conn σ) (events : UInt16) : Conn σ :=
  match app.eventcb with
  | none => s
  | some eventcb => { s with app := eventcb events s.app }

/-- The clean-up of the failure branches: the application is told, and the bufferevent and the context are
    freed. -/
def Conn.fail (s : Conn σ) : Conn σ :=
  let s := s.callEvent app bevEventError
  { s with freed := s.freed ++ [.bufferevent, .ctx] }

def Conn.drain (s : Conn σ) (n : Nat) : Conn σ := { s with input := s.input.drop n }

def Conn.setStage (s : Conn σ) (stage : UInt32) : Conn σ := { s with ctx := { s.ctx with stage } }

/-- `case SOCKS5_STAGE_IDENT` -/
def readIdent (env : Env) (s : Conn σ) : Conn σ :=
  let len := toInt s.input.length
  let data := ofBytes s.input env.past
  let ver := data 0
  let method := data 1
  if ver ≠ socks5Version then s.fail app
  else if method = socks5MethodNone then
    let r := socks5SendReq env.malloc env.write s.ctx
    if r.1 ≠ 0 then s.fail app
    else
      let s := { s with written := s.written ++ r.2.toList }
      (s.setStage socks5StageRequest).drain (toSize len)
  else s.fail app

/-- `case SOCKS5_STAGE_REQUEST` -/
def readRequest (env : Env) (s : Conn σ) : Conn σ :=
  let len := toInt s.input.length
  let data := ofBytes s.input env.past
  if data 0 ≠ socks5Version ∨ data 2 ≠ socks5Reserved then s.fail app
  else if data 1 ≠ socks5ReplySucceeded then s.fail app
  else
    let s := s.drain (toSize len)
    (s.setStage socks5StageConnected).callEvent app bevEventConnected

/-- `case SOCKS5_STAGE_CONNECTED` -/
def readConnected (s : Conn σ) : Conn σ :=
  match app.readcb with
  | none => s
  | some readcb =>
    let r := readcb s.input s.app
    { s with input := r.1, app := r.2 }

def readCb (env : Env) (s : Conn σ) : Conn σ :=
  if s.ctx.stage = socks5StageIdent then readIdent app env s
  else if s.ctx.stage = socks5StageRequest then readRequest app env s
  else if s.ctx.stage = socks5StageConnected then readConnected app s
  else s

def writeCb (s : Conn σ) : Conn σ :=
  if s.ctx.stage = socks5StageConnected then
    match app.writecb with
    | none => s
    | some writecb => { s with app := writecb s.app }
  else s

def eventCb (env : Env) (events : UInt16) (s : Conn σ) : Conn σ :=
  if events &&& bevEventConnected ≠ 0 then
    let ident := [socks5Version, 1, socks5MethodNone]
    if !env.write then s.fail app
    else
      let s := { s with written := s.written ++ [ident] }
      s.setStage socks5StageIdent
  else if events &&& (bevEventError ||| bevEventEof) ≠ 0 then
    let s := s.callEvent app events
    { s with freed := s.freed ++ [.ctx] }
  else s

/-- A context with a bufferevent of its own, as `socks5_client_init` leaves them. -/
def start (ctx : Ctx) (u : σ) : Conn σ := { ctx, input := [], written := [], freed := [], app := u }

/-- What libevent reports: bytes that arrived, a drained output buffer, or an event. -/
inductive Event where
  | read (bytes : List UInt8) (env : Env)
  | write
  | event (events : UInt16) (env : Env)

/-- A bufferevent that was freed calls nothing back. -/
def step (s : Conn σ) (e : Event) : Option (Conn σ) :=
  if .bufferevent ∈ s.freed then none
  else
    match e with
    | .read bytes env => some (readCb app env { s with input := s.input ++ bytes })
    | .write => some (writeCb app s)
    | .event events env => some (eventCb app env events s)

end Callbacks
end Vcmp.Socks5
