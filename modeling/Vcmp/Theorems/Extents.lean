import Vcmp.Theorems.Delivery
import Vcmp.Theorems.PeekedFrames
import Vcmp.Theorems.PeekedPackets

/-! The three read callbacks against the ways in which libevent may cut their input buffer. -/

namespace Vcmp
open ByteMem

variable {σ τ K : Type}

/-! ### Buffers in one extent -/

theorem Socks5.callback_whole (app : Socks5.App σ) (env : Socks5.Env) (s : Socks5.Conn σ) (input : List UInt8)
    (past : Mem) :
    (Socks5.callback app env s input input past).1 = Socks5.readCb app { env with past } { s with input } :=
  (Socks5.gives_peekCb app { env with past } { s with input }).value

theorem Listener.callback_whole (env : Listener.Env K) (keypair : K) (s : Listener.Conn K) (input : List UInt8) (past : Mem) :
    (Listener.callback env keypair s input input past).1 = Listener.readCb { env with past } keypair { s with input } :=
  (Listener.gives_peekCb { env with past } keypair { s with input }).value

/-! ### Buffers in any extents -/

/-- Each callback stays in the first extent and does what it does on a buffer in one piece exactly if what it looks at
    has room in the first extent. -/
theorem extents_respected_iff (b : Extents) (past : Mem) :
    (∀ (app : Socks5.App σ) (env : Socks5.Env) (s : Socks5.Conn σ),
      Respects (Socks5.callback app env s) b past ↔ Socks5.Room s.ctx.stage b.first) ∧
    (∀ (env : Listener.Env K) (keypair : K) (s : Listener.Conn K),
      Respects (Listener.callback env keypair s) b past ↔ Listener.Room s.peer.stage b.bytes b.first) ∧
    ∀ (ssl : Websockets.Digest) (user : Websockets.Reader τ) (env : Websockets.PassEnv) (bev : Nat) (s : Websockets.Conn)
      (u : τ), Respects (Websockets.callback ssl user env bev s u) b past ↔
        Websockets.Room env.malloc s.client.handshakeDone b.bytes b.first :=
  ⟨fun app env s => Socks5.respects_iff app env s b past, fun env keypair s => Listener.respects_iff env keypair s b past,
    fun ssl user env bev s u => Websockets.respects_iff ssl user env bev s u b past⟩

namespace Websockets

def recordingReader : Reader (List Call) where
  toWsCtx := recorder
  confined bev opcode payload payload' len p calls h := by
    simp only [WsCtx.callRead, recorder, h]

/-- A frame whose first byte is the last of its extent. -/
def cutFrame : Extents := ⟨[textFrame.bytes.take 1, textFrame.bytes.drop 1], by decide⟩

/-- The mask bit is looked up behind the extent: where a zero lies there, the connection is closed on a frame that is
    delivered if it lies in one piece. -/
theorem cutFrame_not_respected :
    (callback sampleDigest recordingReader samplePass 0 opened [] cutFrame.bytes cutFrame.bytes fun _ => 0).1.2.1 =
      [.read 1 [0x68, 0x69]] ∧
    (callback sampleDigest recordingReader samplePass 0 opened [] cutFrame.first cutFrame.bytes fun _ => 0).1.1.freed =
      [.bufferevent] ∧
    ¬Respects (callback sampleDigest recordingReader samplePass 0 opened []) cutFrame fun _ => 0 := by
  have hwhole : (callback sampleDigest recordingReader samplePass 0 opened [] cutFrame.bytes cutFrame.bytes
      fun _ => 0).1.2.1 = [.read 1 [0x68, 0x69]] := by decide +kernel
  have hcut : (callback sampleDigest recordingReader samplePass 0 opened [] cutFrame.first cutFrame.bytes
      fun _ => 0).1.2.1 = [] := by decide +kernel
  refine ⟨hwhole, by decide +kernel, fun respects => ?_⟩
  have hsame := respects.same fun _ => 0
  rw [hsame, hcut] at hwhole
  cases hwhole

end Websockets
end Vcmp
