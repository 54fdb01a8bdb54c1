import Vcmp.HonestPeer
import Vcmp.Theorems.PubkeyWait
import Vcmp.Theorems.Rsa

/-! The handshake does not complete: no run on the wrappers of `rsa.c` makes a peer ready, and the challenge
    that is sent is no packet an honest peer could read. -/

namespace Vcmp
open ByteMem Listener Lts

section Ready
variable {K : Type} {keypair : K} {start s t : Conn K} {e : Event K} {es : List (Event K)}

def Unready (s : Conn K) : Prop := s.freed = [] → s.peer.stage ≠ .ready

/-- Nothing decrypts while the event is served. -/
def Undecryptable (keypair : K) (e : Event K) : Prop :=
  ∀ bytes env, e = .read bytes env → ∀ c, env.rsaDecrypt c keypair = none

theorem unready_step (before : Unready s) (fails : Undecryptable keypair e) (h : step keypair s e = some t) :
    Unready t := by
  intro live
  obtain ⟨open', ⟨bytes, env, rfl, hfreed | hreads⟩ | ⟨-, rfl⟩⟩ := step_cases h
  · exact absurd live hfreed
  · cases hreads with
    | verified => exact Stage.noConfusion
    | acknowledged => exact Stage.noConfusion
    | authenticated stage data decrypted =>
      rw [fails bytes env rfl] at decrypted
      cases decrypted
    | idle stage => exact absurd stage (before open')
  · exact before open'

theorem unready_run {bufferevent peer : Bool} (accept : acceptConnCb bufferevent peer = some start)
    (fails : ∀ e ∈ es, Undecryptable keypair e) : EachState (step keypair) Unready start es := by
  have fresh : Unready start := by
    obtain rfl := acceptConnCb_cases accept
    exact fun _ => Stage.noConfusion
  exact eachState_of_eachStep fresh (fun s e t hs ht hf => unready_step hs hf ht)
    (eachStep_of_forall fun s e t he _ => fails e he)

end Ready

section Honest
variable {E : Evp} {listener peer : E.PKey} {verify ack answer : Host} {env : RsaEnv} {stamp : Vector UInt8 24}

theorem undecryptable_env (doc : E.Documented) (host : Host) (bytes : List UInt8) :
    Undecryptable listener (.read bytes (host.env E)) := by
  rintro bytes env ⟨⟩ c
  exact rsaDecrypt_eq_none doc

theorem run_of_honestRun {s : Conn E.PKey} (h : honestRun E listener peer verify ack answer env stamp = some s) :
    ∃ start der packet, acceptConnCb true true = some start ∧
      run (step listener) start [.read verifyPacket (verify.env E),
        .read (handshakePacket vcmpTypeHsAck der) (ack.env E), .read packet (answer.env E)] = some s := by
  simp only [honestRun, Option.bind_eq_bind, Option.bind_eq_some_iff] at h
  obtain ⟨start, hstart, s₁, h₁, _, -, der, -, s₂, h₂, _, -, packet, -, h₃⟩ := h
  refine ⟨start, der, packet, hstart, ?_⟩
  simp only [run, h₁, h₂, h₃, Option.bind_some]

theorem not_completes (doc : E.Documented) : ¬Completes E listener peer verify ack answer env stamp := by
  rintro ⟨s, hrun, live, ready⟩
  obtain ⟨start, der, packet, accept, hr⟩ := run_of_honestRun hrun
  refine (unready_run accept ?_).last hr live ready
  intro e he
  simp only [List.mem_cons, List.not_mem_nil, or_false] at he
  rcases he with rfl | rfl | rfl
  · exact undecryptable_env doc verify _
  · exact undecryptable_env doc ack _
  · exact undecryptable_env doc answer _

end Honest

/-! ### On the sample library -/

def sampleHost : Host where
  past := fun _ => 0
  rsa := sampleRsaEnv
  randArray := sampleEnv.randArray
  uuid := Vector.replicate 16 0
  time := 0
  mallocHandshake := true
  mallocData := true
  write := true

theorem not_completes_sample : ¬Completes sampleEvp (7, true) (9, true) sampleHost sampleHost sampleHost sampleRsaEnv
    (Vector.replicate 24 0) := not_completes sampleEvp_documented

/-- The peer of the sample run has nothing to answer: the packet it got is cut off. -/
theorem handshake_stuck : ¬∀ (E : Evp) (listener peer : E.PKey) (verify ack answer : Host) (env : RsaEnv)
    (stamp : Vector UInt8 24), E.Documented → E.keyPair listener → E.keyPair peer → verify.Works → ack.Works →
      answer.Works → env.malloc.isSome = true → Completes E listener peer verify ack answer env stamp := by
  intro h
  have works : sampleHost.Works := ⟨rfl, rfl, rfl, rfl⟩
  obtain ⟨s, hrun, -, -⟩ := h sampleEvp (7, true) (9, true) sampleHost sampleHost sampleHost sampleRsaEnv
    (Vector.replicate 24 0) sampleEvp_documented rfl rfl works works works rfl
  have stuck : (honestRun sampleEvp (7, true) (9, true) sampleHost sampleHost sampleHost sampleRsaEnv
    (Vector.replicate 24 0)).isNone = true := by decide +kernel
  rw [hrun] at stuck
  cases stuck

end Vcmp
