import Vcmp.Listener

/-! The process behind `src/listener.c`: the event loop over the peers it has accepted, which draw their challenges from
    one `rand`. -/

namespace Vcmp.Listener
open ByteMem CInt

/-- `charset` of `rand_array`, without the zero behind it. -/
def charset : List UInt8 := "abcdefghijklmnopqrstuvwxyzABCDEFGHIJKLMNOPQRSTUVWXYZ0123456789".toUTF8.toList

/-- `sizeof(charset) - 1` -/
def charsetSize : Nat := charset.length

/-- `rand_array(arr, len)`, when `rand` has been called `drawn` times; `rand k` is what its call `k` returns. -/
def randArray (rand : Nat → Nat) (drawn len : Nat) : Vector UInt8 len :=
  Vector.ofFn fun i => charset.getD (rand (drawn + i) % charsetSize) 0

section Loop
variable {K : Type}

def Env.withRandArray (env : Env K) (arr : Vector UInt8 12) : Env K := { env with randArray := arr }

/-- This `read_cb` calls `rand_array`: the packet of `PUBKEY_WAIT` passes its checks, and its key is loaded. -/
def CallsRandArray (env : Env K) (s : Conn K) : Prop :=
  let len := toInt s.input.length
  let m := ofBytes s.input env.past
  let keylen := (readKeylen m).toNat
  s.peer.stage = .pubkeyWait ∧ sizeofHeader ≤ s.input.length ∧ sizeofHandshake < toSize len ∧
    toSize len = sizeofHandshake + keylen ∧ vcmpValidate (VcmpHeader.read m) = 0 ∧
      (VcmpHeader.read m).type = vcmpTypeHsAck ∧ (env.rsaLoadDerPubkey (slice m sizeofHandshake keylen)).isSome = true

instance (env : Env K) (s : Conn K) : Decidable (CallsRandArray env s) := inferInstanceAs (Decidable (_ ∧ _))

/-- The peers in the order they were accepted, and how often `rand` was called. -/
structure Peers (K : Type) where
  conns : List (Conn K)
  drawn : Nat

/-- What happens next: a peer is accepted, or libevent reports something on the connection of one. What `rand_array`
    gives is not part of what a call meets here. -/
inductive PeersEvent (K : Type) where
  | accept (bufferevent peer : Bool)
  | read (i : Nat) (bytes : List UInt8) (env : Env K)
  | event (i : Nat) (events : UInt16)

/-- What a call on a connection meets when `rand` has been called so often. -/
def Peers.env (rand : Nat → Nat) (p : Peers K) (env : Env K) : Env K := env.withRandArray (randArray rand p.drawn 12)

def Peers.step (rand : Nat → Nat) (keypair : K) (p : Peers K) : PeersEvent K → Option (Peers K)
  | .accept bufferevent peer =>
    match acceptConnCb bufferevent peer with
    | none => some p
    | some s => some { p with conns := p.conns ++ [s] }
  | .read i bytes env =>
    p.conns[i]?.bind fun s =>
      (Listener.step keypair s (.read bytes (p.env rand env))).map fun t =>
        { conns := p.conns.set i t, drawn := if CallsRandArray env { s with input := s.input ++ bytes } then p.drawn + 12 else p.drawn }
  | .event i events =>
    p.conns[i]?.bind fun s =>
      (Listener.step keypair s (.event events)).map fun t => { p with conns := p.conns.set i t }

def Peers.start : Peers K := ⟨[], 0⟩

/-- What the connection `i` takes of an event. -/
def Peers.see (rand : Nat → Nat) (i : Nat) (p : Peers K) : PeersEvent K → Option (Event K)
  | .accept _ _ => none
  | .read j bytes env => if i = j then some (.read bytes (p.env rand env)) else none
  | .event j events => if i = j then some (.event events) else none

end Loop
end Vcmp.Listener
