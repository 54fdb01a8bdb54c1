import Vcmp.Theorems.Packets

/-! The listener on the wrappers of `rsa.c`, and the other side of the handshake as the README describes it:
    a peer that proves it holds the private half of the key it sends. -/

namespace Vcmp
open ByteMem Listener

/-! ### The listener's side -/

/-- What one read meets besides the library: memory, randomness and whether allocations and writes succeed. -/
structure Host where
  past : Mem
  rsa : RsaEnv
  randArray : Vector UInt8 12
  uuid : Vector UInt8 16
  time : UInt64
  mallocHandshake : Bool
  mallocData : Bool
  write : Bool

def Host.Works (host : Host) : Prop :=
  host.rsa.malloc.isSome = true ∧ host.mallocHandshake = true ∧ host.mallocData = true ∧ host.write = true

section
variable (E : Evp)

/-- The environment of the callbacks when their functions are those of `rsa.c`. -/
def Host.env (host : Host) : Env E.PKey where
  past := host.past
  rsaGetDerPubkey := rsaGetDerPubkey E
  rsaLoadDerPubkey := rsaLoadDerPubkey E
  rsaEncrypt := rsaEncrypt E host.rsa
  rsaDecrypt := rsaDecrypt E host.rsa
  randArray := host.randArray
  uuid := host.uuid
  time := host.time
  mallocHandshake := host.mallocHandshake
  mallocData := host.mallocData
  write := host.write

/-! ### The peer's side -/

/-- The key bytes of a received handshake packet. -/
def readHandshake (bytes : List UInt8) : Option (List UInt8) :=
  let m := ofBytes bytes fun _ => 0
  if sizeofHandshake < bytes.length ∧ bytes.length = sizeofHandshake + (readKeylen m).toNat ∧
      VcmpHeader.read m = vcmpGenHeader vcmpTypeHsInit then
    some (bytes.drop sizeofHandshake)
  else none

def readData (bytes : List UInt8) : Option (List UInt8) :=
  let m := ofBytes bytes fun _ => 0
  if sizeofData < bytes.length ∧ bytes.length = sizeofData + (readLen m).toNat ∧
      VcmpHeader.read m = vcmpGenHeader vcmpTypeData then
    some (bytes.drop sizeofData)
  else none

/-- The peer decrypts the challenge with its private key and sends it back under the listener's key. It
    decrypts with the library, as the tests do. -/
def answerChallenge (peer : E.PKey) (env : RsaEnv) (stamp : Vector UInt8 24) (hsInit data : List UInt8) :
    Option (List UInt8) := do
  let listenerKey ← E.d2iPubkey (← readHandshake hsInit)
  let challenge ← testRsaDecrypt E env peer (← readData data)
  let enc ← rsaEncrypt E env challenge.bytes listenerKey
  return dataPacket stamp.toList enc.bytes

/-- The handshake of an honest peer, one packet a read; the peer reads the packets the listener wrote last. -/
def honestRun (listener peer : E.PKey) (verify ack answer : Host) (env : RsaEnv) (stamp : Vector UInt8 24) :
    Option (Conn E.PKey) := do
  let s ← acceptConnCb true true
  let s ← step listener s (.read verifyPacket (verify.env E))
  let hsInit ← s.written.getLast?
  let s ← step listener s (.read (handshakePacket vcmpTypeHsAck (← rsaGetDerPubkey E peer)) (ack.env E))
  let data ← s.written.getLast?
  let packet ← answerChallenge E peer env stamp hsInit data
  step listener s (.read packet (answer.env E))

/-- The honest run ends with a peer that is ready. -/
def Completes (listener peer : E.PKey) (verify ack answer : Host) (env : RsaEnv) (stamp : Vector UInt8 24) : Prop :=
  ∃ s, honestRun E listener peer verify ack answer env stamp = some s ∧ s.freed = [] ∧ s.peer.stage = .ready

end
end Vcmp
