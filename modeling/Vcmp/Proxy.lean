import Vcmp.Rfc1928
import Vcmp.Socks5

/-! A SOCKS5 client and the proxy it talks to, with the bytes on their way in both directions. The proxy is the one of
    RFC 1928 without authentication; the client is `src/socks5.c`. -/

/-! ### The proxy -/

namespace Vcmp.Rfc1928
open ByteOrder

/-- The greeting that offers no authentication, and what follows it. -/
def takeGreeting : List UInt8 → Option (List UInt8)
  | 5 :: n :: rest => if n.toNat ≤ rest.length ∧ 0 ∈ rest.take n.toNat then some (rest.drop n.toNat) else none
  | _ => none

/-- The request as soon as it is whole, and what follows it. -/
def takeRequest : List UInt8 → Option ((Destination × UInt16) × List UInt8)
  | 5 :: 1 :: 0 :: rest => do
    let (dest, port) ← decodeAddress rest
    if 2 ≤ port.length then some ((dest, UInt16.ofNat (ofBE (port.take 2))), port.drop 2) else none
  | _ => none

def methodChosen : List UInt8 := [5, 0]

/-- The reply to a request: `REP`, and the address that was bound. -/
def reply (rep : UInt8) (bound : Destination) (port : UInt16) : List UInt8 :=
  [5, rep, 0] ++ bound.bytes ++ toBE 2 port.toNat

inductive ProxyStage where
  | greeting
  | request
  | connected (dest : Destination) (port : UInt16)
  | refused

structure Proxy where
  stage : ProxyStage
  inbox : List UInt8

/-- What a proxy does of its own: it answers a greeting, carries a request out or refuses it, and hands on what comes from the
    destination. -/
inductive ProxyMove where
  | choose
  | accept (bound : Destination) (port : UInt16)
  | refuse (rep : UInt8) (bound : Destination) (port : UInt16)
  | relay (bytes : List UInt8)

/-- The proxy, and the bytes it sends. -/
def Proxy.step (proxy : Proxy) : ProxyMove → Option (Proxy × List UInt8)
  | .choose =>
    match proxy.stage with
    | .greeting => (takeGreeting proxy.inbox).map fun rest => (⟨.request, rest⟩, methodChosen)
    | _ => none
  | .accept bound port =>
    match proxy.stage with
    | .request => (takeRequest proxy.inbox).map fun r => (⟨.connected r.1.1 r.1.2, r.2⟩, reply 0 bound port)
    | _ => none
  | .refuse rep bound port =>
    match proxy.stage with
    | .request => if rep = 0 then none else (takeRequest proxy.inbox).map fun r => (⟨.refused, r.2⟩, reply rep bound port)
    | _ => none
  | .relay bytes =>
    match proxy.stage with
    | .connected _ _ => some (proxy, bytes)
    | _ => none

end Vcmp.Rfc1928

/-! ### Both of them -/

namespace Vcmp.Socks5
open Rfc1928

/-- The client with its proxy: whether they are connected, and the bytes on their way up to the proxy and down from it. -/
structure Link (σ : Type) where
  client : Conn σ
  proxy : Proxy
  connected : Bool
  up : List UInt8
  down : List UInt8

def Link.start (ctx : Ctx) (u : σ) : Link σ := ⟨Socks5.start ctx u, ⟨.greeting, []⟩, false, [], []⟩

/-- libevent reports the connection once, and reads and writes only behind it; `read n` hands over the next `n` bytes. -/
inductive LinkEvent where
  | connect (env : Env)
  | read (n : Nat) (env : Env)
  | write
  | event (events : UInt16) (env : Env)
  | arrive (n : Nat)
  | proxy (move : ProxyMove)

section Step
variable {σ : Type} (app : App σ) (l : Link σ)

/-- The client behind a callback; what it wrote is on its way. -/
def Link.became (t : Conn σ) : Link σ :=
  { l with client := t, up := l.up ++ (t.written.drop l.client.written.length).flatten }

/-- A callback of the client. A context that was freed is called no more. -/
def Link.call (e : Event) : Option (Link σ) :=
  if l.client.freed ≠ [] then none else (Socks5.step app l.client e).map l.became

def Link.step : LinkEvent → Option (Link σ)
  | .connect env => if l.connected then none else { l with connected := true }.call app (.event bevEventConnected env)
  | .read n env =>
    if ¬l.connected ∨ n = 0 ∨ l.down.length < n then none
    else { l with down := l.down.drop n }.call app (.read (l.down.take n) env)
  | .write => if ¬l.connected then none else l.call app .write
  | .event events env => if events &&& bevEventConnected ≠ 0 then none else l.call app (.event events env)
  | .arrive n =>
    if l.up.length < n then none
    else some { l with proxy := { l.proxy with inbox := l.proxy.inbox ++ l.up.take n }, up := l.up.drop n }
  | .proxy move => (l.proxy.step move).map fun r => { l with proxy := r.1, down := l.down ++ r.2 }

end Step
end Vcmp.Socks5
