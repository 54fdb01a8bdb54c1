import Vcmp.Lib.CInt
import Vcmp.Lib.Lts
import Vcmp.Protocol
import Vcmp.Rsa

/-! `src/listener.c`: one accepted peer connection. The functions of `rsa.c`, `rand_array` and the
    allocator are what each call of a callback meets (`Env`); everything else is computed here. -/

namespace Vcmp.Listener
open ByteMem CInt

/-- `VCMP_PEER_STAGE_*` -/
inductive Stage where
  | none
  | pubkeyWait
  | pubkeyCheck
  | ready
  deriving DecidableEq

/-- `vcmp_peer_t`; a `NULL` key is `none`. -/
structure VcmpPeer (K : Type) where
  pubkey : Option K
  stage : Stage
  authenticity : Vector UInt8 12

/-- What a connection holds until it is released. -/
inductive Resource (K : Type) where
  | peer
  | bufferevent
  | pubkey (key : K)
  deriving DecidableEq

/-- A connection: the peer object, the input buffer in one extent, the packets handed to
    `bufferevent_write`, and what was freed, in order. -/
structure Conn (K : Type) where
  peer : VcmpPeer K
  input : List UInt8
  written : List (List UInt8)
  freed : List (Resource K)

/-- What one call of `read_cb` meets: the memory behind the input buffer, the functions it calls and
    whether its allocations and its write succeed. -/
structure Env (K : Type) where
  past : Mem
  rsaGetDerPubkey : K → Option (List UInt8)
  rsaLoadDerPubkey : List UInt8 → Option K
  rsaEncrypt : List UInt8 → K → Option Block
  rsaDecrypt : List UInt8 → K → Option Block
  randArray : Vector UInt8 12
  uuid : Vector UInt8 16
  time : UInt64
  mallocHandshake : Bool
  mallocData : Bool
  write : Bool

/-- The size of a pointer on the 64-bit host, which `sizeof(buf)` is. -/
def sizeofPointer : Nat := 8

/-- Only the comparison of the header matters: zero is a valid header. -/
def vcmpValidate (h : VcmpHeader) : Int :=
  if h.magic ≠ vcmpMagic then 1
  else if h.version ≠ vcmpVersion then 1
  else 0

section Callbacks
variable {K : Type}

/-- `free(peer); bufferevent_free(bev);` -/
def Conn.reject (s : Conn K) : Conn K := { s with freed := s.freed ++ [.peer, .bufferevent] }

/-- `EVP_PKEY_free(key);` before `reject`; a `NULL` key frees nothing. -/
def Conn.rejectKey (s : Conn K) (key : Option K) : Conn K :=
  { s with freed := s.freed ++ (key.toList.map .pubkey ++ [.peer, .bufferevent]) }

/-- `evbuffer_drain(input, n)` -/
def Conn.drain (s : Conn K) (n : Nat) : Conn K := { s with input := s.input.drop n }

/-- `bufferevent_write(bev, bytes, n)` that succeeds. -/
def Conn.write (s : Conn K) (bytes : List UInt8) (n : Nat) : Conn K := { s with written := s.written ++ [bytes.take n] }

/-- `case VCMP_PEER_STAGE_NONE` -/
def readNone (env : Env K) (keypair : K) (s : Conn K) : Conn K :=
  let h := VcmpHeader.read (ofBytes s.input env.past)
  if vcmpValidate h ≠ 0 ∨ h.type ≠ vcmpTypeVerify then s.reject
  else
    let s := s.drain sizeofHeader
    match env.rsaGetDerPubkey keypair with
    | none => s.reject
    | some derPubkey =>
      match vcmpGenHsHeader env.mallocHandshake vcmpTypeHsInit (UInt32.ofNat derPubkey.length) derPubkey with
      | none => s.reject
      | some hs =>
        if !env.write then s.reject
        else
          let s := s.write hs.bytes (sizeofHandshake + hs.keylen.toNat)
          { s with peer := { s.peer with stage := .pubkeyWait } }

/-- `case VCMP_PEER_STAGE_PUBKEY_WAIT` -/
def readPubkeyWait (env : Env K) (s : Conn K) : Conn K :=
  let len := toInt s.input.length
  if toSize len ≤ sizeofHandshake then s.reject
  else
    let m := ofBytes s.input env.past
    let keylen := (readKeylen m).toNat
    if toSize len ≠ sizeofHandshake + keylen then s.reject
    else if vcmpValidate (VcmpHeader.read m) ≠ 0 then s.reject
    else if (VcmpHeader.read m).type ≠ vcmpTypeHsAck then s.reject
    else
      let loaded := env.rsaLoadDerPubkey (slice m sizeofHandshake keylen)
      let s := s.drain (toSize len)
      match loaded with
      | none => s.reject
      | some pubkey =>
        let s := { s with peer := { s.peer with authenticity := env.randArray } }
        match env.rsaEncrypt s.peer.authenticity.toList pubkey with
        | none => s.rejectKey (some pubkey)
        | some enc =>
          if !env.mallocData then s.rejectKey (some pubkey)
          else
            let buf := vcmpGenDataHeader env.uuid env.time (UInt32.ofNat enc.outlen) enc.bytes
            if !env.write then s.rejectKey (some pubkey)
            else
              let s := s.write buf.bytes sizeofPointer
              { s with peer := { s.peer with pubkey := some pubkey, stage := .pubkeyCheck } }

/-- `case VCMP_PEER_STAGE_PUBKEY_CHECK` -/
def readPubkeyCheck (env : Env K) (keypair : K) (s : Conn K) : Conn K :=
  let len := toInt s.input.length
  if toSize len ≤ sizeofData then s.reject
  else
    let m := ofBytes s.input env.past
    let datalen := (readLen m).toNat
    if toSize len ≠ sizeofData + datalen then s.rejectKey s.peer.pubkey
    else if vcmpValidate (VcmpHeader.read m) ≠ 0 then s.rejectKey s.peer.pubkey
    else if (VcmpHeader.read m).type ≠ vcmpTypeData then s.rejectKey s.peer.pubkey
    else
      let decrypted := env.rsaDecrypt (slice m sizeofData datalen) keypair
      let s := s.drain (toSize len)
      match decrypted with
      | none => s.rejectKey s.peer.pubkey
      | some dec =>
        -- memcmp over the twelve bytes of peer->authenticity, whatever dec's length is
        if s.peer.authenticity.toList ≠ slice dec.mem 0 12 then s.rejectKey s.peer.pubkey
        else { s with peer := { s.peer with stage := .ready } }

def readCb (env : Env K) (keypair : K) (s : Conn K) : Conn K :=
  if s.input.length < sizeofHeader then s.reject
  else
    match s.peer.stage with
    | .none => readNone env keypair s
    | .pubkeyWait => readPubkeyWait env s
    | .pubkeyCheck => readPubkeyCheck env keypair s
    | .ready => s

/-- `accept_conn_cb`; the arguments tell whether the bufferevent and the peer object could be allocated. -/
def acceptConnCb (bufferevent peer : Bool) : Option (Conn K) :=
  if !bufferevent then none
  else if !peer then none
  else
    some { peer := ⟨none, .none, Vector.replicate 12 0⟩, input := [], written := [], freed := [] }

/-- What libevent reports on the connection: bytes that arrived, or an event such as EOF or an error. -/
inductive Event (K : Type) where
  | read (bytes : List UInt8) (env : Env K)
  | event (events : UInt16)

/-- A released bufferevent calls nothing back; `event_cb` only logs. -/
def step (keypair : K) (s : Conn K) : Event K → Option (Conn K)
  | .read bytes env => if s.freed.isEmpty then some (readCb env keypair { s with input := s.input ++ bytes }) else none
  | .event _ => if s.freed.isEmpty then some s else none

end Callbacks
end Vcmp.Listener
