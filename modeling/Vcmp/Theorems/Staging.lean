import Vcmp.Theorems.Listener

/-! The stages of a peer connection over whole runs: what the connection has received when its peer is in a
    stage, and what the stored key and the stored challenge come from. -/

namespace Vcmp.Listener
open ByteMem Lts

variable {K : Type} {keypair : K} {past es : List (Event K)} {start s t : Conn K} {e : Event K}

/-! ### What a run has received -/

def received : List (Event K) → List UInt8
  | [] => []
  | .read bytes _ :: es => bytes ++ received es
  | .event _ :: es => received es

theorem received_append : received (past ++ es) = received past ++ received es := by
  induction past with
  | nil => rfl
  | cons e past ih =>
    cases e with
    | read bytes env => simp only [List.cons_append, received, ih, List.append_assoc]
    | event events => exact ih

/-- A read leaves less than 2^31 bytes in the input buffer before the callback runs. -/
def Buffered (s : Conn K) (e : Event K) (_ : Conn K) : Prop :=
  match e with
  | .read bytes _ => (s.input ++ bytes).length < 2 ^ 31
  | .event _ => True

instance (s : Conn K) (e : Event K) (t : Conn K) : Decidable (Buffered s e t) :=
  match e with
  | .read _ _ => inferInstanceAs (Decidable (_ < _))
  | .event _ => inferInstanceAs (Decidable True)

/-- The stored key was loaded from `ack`, and the stored challenge is what was encrypted under it. -/
def Stored (past : List (Event K)) (p : VcmpPeer K) (ack : List UInt8) : Prop :=
  ∃ bytes env key enc, Event.read bytes env ∈ past ∧ env.rsaLoadDerPubkey ack = some key ∧ p.pubkey = some key ∧
    p.authenticity = env.randArray ∧ env.rsaEncrypt p.authenticity.toList key = some enc

def Answered (keypair : K) (past : List (Event K)) (p : VcmpPeer K) (payload : List UInt8) : Prop :=
  ∃ bytes env dec, Event.read bytes env ∈ past ∧ env.rsaDecrypt payload keypair = some dec ∧
    slice dec.mem 0 12 = p.authenticity.toList

theorem Stored.later {p : VcmpPeer K} {ack : List UInt8} (h : Stored past p ack) : Stored (past ++ es) p ack := by
  obtain ⟨bytes, env, key, enc, hmem, rest⟩ := h
  exact ⟨bytes, env, key, enc, List.mem_append_left es hmem, rest⟩

theorem Answered.later {p : VcmpPeer K} {payload : List UInt8} (h : Answered keypair past p payload) :
    Answered keypair (past ++ es) p payload := by
  obtain ⟨bytes, env, dec, hmem, rest⟩ := h
  exact ⟨bytes, env, dec, List.mem_append_left es hmem, rest⟩

/-! ### The invariant -/

/-- What the events so far have to do with a connection that is still open. -/
inductive History (keypair : K) (past : List (Event K)) (s : Conn K) : Prop
  | none (stage : s.peer.stage = .none) (pubkey : s.peer.pubkey = none) (stream : received past = s.input)
  | pubkeyWait (stage : s.peer.stage = .pubkeyWait) (pubkey : s.peer.pubkey = none)
      (stream : received past = verifyPacket ++ s.input)
  | pubkeyCheck {ack : List UInt8} (stage : s.peer.stage = .pubkeyCheck) (stored : Stored past s.peer ack)
      (short : ack.length < 2 ^ 32)
      (stream : received past = verifyPacket ++ (handshakePacket vcmpTypeHsAck ack ++ s.input))
  | ready {ack stamp payload : List UInt8} (stage : s.peer.stage = .ready) (stored : Stored past s.peer ack)
      (short : ack.length < 2 ^ 32) (stamped : stamp.length = 24) (fits : payload.length < 2 ^ 32)
      (answered : Answered keypair past s.peer payload)
      (stream : received past =
        verifyPacket ++ (handshakePacket vcmpTypeHsAck ack ++ (dataPacket stamp payload ++ s.input)))

theorem History.later (h : History keypair past s) :
    History keypair (past ++ es) { s with input := s.input ++ received es } := by
  have arrived : received (past ++ es) = received past ++ received es := received_append
  cases h with
  | none stage pubkey stream => exact .none stage pubkey (by rw [arrived, stream])
  | pubkeyWait stage pubkey stream =>
    exact .pubkeyWait stage pubkey (by rw [arrived, stream, List.append_assoc])
  | pubkeyCheck stage stored short stream =>
    exact .pubkeyCheck stage stored.later short (by rw [arrived, stream]; simp only [List.append_assoc])
  | ready stage stored short stamped fits answered stream =>
    exact .ready stage stored.later short stamped fits answered.later
      (by rw [arrived, stream]; simp only [List.append_assoc])

theorem drained (bound : s.input.length < 2 ^ 31) : s.input.drop (CInt.toSize (CInt.toInt s.input.length)) = [] := by
  rw [CInt.toSize_toInt bound, List.drop_length]

theorem History.reads {bytes : List UInt8} {env : Env K} (h : History keypair past s) (mem : .read bytes env ∈ past)
    (bound : s.input.length < 2 ^ 31) (hr : Reads env keypair s t) : History keypair past t := by
  cases hr with
  | verified stage input exported packet =>
    cases h with
    | none _ pubkey stream =>
      refine .pubkeyWait rfl pubkey ?_
      simp only [Conn.answered, stream, input]
      rfl
    | pubkeyWait stage' => cases stage.symm.trans stage'
    | pubkeyCheck stage' => cases stage.symm.trans stage'
    | ready stage' => cases stage.symm.trans stage'
  | @acknowledged key enc stage accepted =>
    cases h with
    | none stage' => cases stage.symm.trans stage'
    | pubkeyWait _ pubkey stream =>
      obtain ⟨packet, short⟩ := accepted.ack.packet bound
      refine .pubkeyCheck rfl ⟨bytes, env, key, enc, mem, accepted.loaded, rfl, rfl, accepted.encrypted⟩ short ?_
      rw [stream, ← packet, Conn.challenged, drained bound, List.append_nil]
    | pubkeyCheck stage' => cases stage.symm.trans stage'
    | ready stage' => cases stage.symm.trans stage'
  | authenticated stage data decrypted same =>
    cases h with
    | none stage' => cases stage.symm.trans stage'
    | pubkeyWait stage' => cases stage.symm.trans stage'
    | pubkeyCheck _ stored short stream =>
      obtain ⟨stamp, stamped, packet, fits⟩ := data.packet bound
      refine .ready rfl stored short stamped fits ⟨bytes, env, _, mem, decrypted, same⟩ ?_
      rw [stream, ← packet, Conn.authenticated, drained bound, List.append_nil]
    | ready stage' => cases stage.symm.trans stage'
  | idle => exact h

theorem history_step (h : s.freed = [] → History keypair past s) (hs : step keypair s e = some t)
    (bound : Buffered s e t) : t.freed = [] → History keypair (past ++ [e]) t := by
  intro live
  obtain ⟨before, ⟨bytes, env, rfl, hfreed | hreads⟩ | ⟨⟨events, rfl⟩, rfl⟩⟩ := step_cases hs
  · exact absurd live hfreed
  · have arrived : History keypair (past ++ [.read bytes env]) _ := (h before).later
    rw [received, received, List.append_nil] at arrived
    exact arrived.reads (List.mem_append_right past List.mem_cons_self) bound hreads
  · have same : History keypair (past ++ [.event events]) _ := (h before).later
    rwa [received, received, List.append_nil] at same

theorem history_run {bufferevent peer : Bool} (accept : acceptConnCb bufferevent peer = some start)
    (bound : EachStep (step keypair) Buffered start es) (hr : run (step keypair) start es = some s)
    (live : s.freed = []) : History keypair es s := by
  have fresh : History keypair [] start := by
    obtain rfl := acceptConnCb_cases accept
    exact .none rfl rfl rfl
  exact run_history (H := fun past s => s.freed = [] → History keypair past s) (fun _ => fresh)
    (fun past s e t h hs hb => history_step h hs hb) bound hr live

/-! ### Staging and authentication -/

def Stage.next : Stage → Stage
  | .none => .pubkeyWait
  | .pubkeyWait => .pubkeyCheck
  | .pubkeyCheck => .ready
  | .ready => .ready

/-- What holds of an open connection after the events `past`: its peer has a key exactly from the challenge
    on, key and challenge come from the connection's `HS_ACK`, and a peer that is ready has sent the three
    packets of the handshake, the last of which carries the challenge. -/
structure Staged (keypair : K) (past : List (Event K)) (s : Conn K) : Prop where
  pubkey : s.peer.pubkey.isSome = true ↔ s.peer.stage = .pubkeyCheck ∨ s.peer.stage = .ready
  stored : s.peer.pubkey.isSome = true → ∃ ack rest, ack.length < 2 ^ 32 ∧
    received past = verifyPacket ++ (handshakePacket vcmpTypeHsAck ack ++ rest) ∧ Stored past s.peer ack
  ready : s.peer.stage = .ready → ∃ ack stamp payload rest, ack.length < 2 ^ 32 ∧ stamp.length = 24 ∧
    payload.length < 2 ^ 32 ∧
    received past = verifyPacket ++ (handshakePacket vcmpTypeHsAck ack ++ (dataPacket stamp payload ++ rest)) ∧
    Stored past s.peer ack ∧ Answered keypair past s.peer payload

/-- What a step may do to an open connection that stays open: the stage stays or becomes the next one, and
    the challenge changes only where the key is set. -/
def Advances (s t : Conn K) : Prop :=
  (t.peer.stage = s.peer.stage ∨ t.peer.stage = s.peer.stage.next) ∧
    (t.peer.authenticity ≠ s.peer.authenticity → s.peer.pubkey = none ∧ t.peer.pubkey.isSome = true)

theorem Stored.isSome {p : VcmpPeer K} {ack : List UInt8} (h : Stored past p ack) : p.pubkey.isSome = true := by
  obtain ⟨_, _, key, _, _, _, hkey, _⟩ := h
  rw [hkey]
  rfl

theorem History.staged (h : History keypair past s) : Staged keypair past s := by
  cases h with
  | none stage pubkey stream =>
    refine ⟨?_, fun hsome => ?_, fun hready => ?_⟩
    · rw [stage, pubkey]
      simp
    · rw [pubkey] at hsome
      cases hsome
    · cases stage.symm.trans hready
  | pubkeyWait stage pubkey stream =>
    refine ⟨?_, fun hsome => ?_, fun hready => ?_⟩
    · rw [stage, pubkey]
      simp
    · rw [pubkey] at hsome
      cases hsome
    · cases stage.symm.trans hready
  | @pubkeyCheck ack stage stored short stream =>
    refine ⟨iff_of_true stored.isSome (Or.inl stage), fun _ => ⟨ack, s.input, short, stream, stored⟩, fun hready => ?_⟩
    cases stage.symm.trans hready
  | @ready ack stamp payload stage stored short stamped fits answered stream =>
    exact ⟨iff_of_true stored.isSome (Or.inr stage), fun _ => ⟨ack, _, short, stream, stored⟩,
      fun _ => ⟨ack, stamp, payload, s.input, short, stamped, fits, stream, stored, answered⟩⟩

theorem Reads.advances {env : Env K} (h : Reads env keypair s t) (staged : Staged keypair past s) : Advances s t := by
  cases h with
  | verified stage input exported packet => exact ⟨Or.inr (by rw [stage]; rfl), fun hne => absurd rfl hne⟩
  | acknowledged stage accepted =>
    refine ⟨Or.inr (by rw [stage]; rfl), fun _ => ⟨?_, rfl⟩⟩
    rw [← Option.not_isSome_iff_eq_none, staged.pubkey, stage]
    simp
  | authenticated stage data decrypted same => exact ⟨Or.inr (by rw [stage]; rfl), fun hne => absurd rfl hne⟩
  | idle stage => exact ⟨Or.inl rfl, fun hne => absurd rfl hne⟩

/-- On an accepted connection, whatever arrives and whatever fails, every state is staged and every step
    advances it. -/
theorem staging {bufferevent peer : Bool} (accept : acceptConnCb bufferevent peer = some start)
    (bound : EachStep (step keypair) Buffered start es) (hr : run (step keypair) start es = some s)
    (live : s.freed = []) :
    Staged keypair es s ∧ ∀ e t, step keypair s e = some t → t.freed = [] → Advances s t := by
  have staged := (history_run accept bound hr live).staged
  refine ⟨staged, fun e t hs next => ?_⟩
  obtain ⟨-, ⟨bytes, env, rfl, hfreed | hreads⟩ | ⟨-, rfl⟩⟩ := step_cases hs
  · exact absurd next hfreed
  · exact hreads.advances (show Staged keypair es _ from ⟨staged.pubkey, staged.stored, staged.ready⟩)
  · exact ⟨Or.inl rfl, fun hne => absurd rfl hne⟩

/-! A peer whose key is one byte, and whose ciphertexts are the key followed by the message. -/

def sampleEnv : Env UInt8 where
  past := fun _ => 0
  rsaGetDerPubkey key := some [key]
  rsaLoadDerPubkey der := der.head?
  rsaEncrypt m key := some ⟨ofBytes (key :: m) fun _ => 0, m.length + 1⟩
  rsaDecrypt c key := if c.head? = some key then some ⟨ofBytes c.tail fun _ => 0, c.length - 1⟩ else none
  randArray := Vector.ofFn fun i => UInt8.ofNat i
  uuid := Vector.replicate 16 0
  time := 0
  mallocHandshake := true
  mallocData := true
  write := true

def sampleStart : Conn UInt8 := { peer := ⟨none, .none, Vector.replicate 12 0⟩, input := [], written := [], freed := [] }

/-- A peer with key 9 that knows the challenge of a listener with key 7. -/
def sampleRun : List (Event UInt8) :=
  [.read verifyPacket sampleEnv, .read (handshakePacket vcmpTypeHsAck [9]) sampleEnv,
    .read (dataPacket (List.replicate 24 0) (7 :: sampleEnv.randArray.toList)) sampleEnv]

def sampleEnd : Conn UInt8 := (run (step 7) sampleStart sampleRun).getD sampleStart

theorem staging_sample : sampleEnd.peer.stage = .ready ∧ Staged 7 sampleRun sampleEnd ∧
    ∀ e t, step 7 sampleEnd e = some t → t.freed = [] → Advances sampleEnd t := by
  have accept : acceptConnCb true true = some sampleStart := rfl
  have bound : EachStep (step 7) Buffered sampleStart sampleRun := by decide +kernel
  have taken : (run (step 7) sampleStart sampleRun).isSome = true := by decide +kernel
  have hr : run (step 7) sampleStart sampleRun = some sampleEnd :=
    (Option.getD_of_ne_none (Option.isSome_iff_ne_none.mp taken) sampleStart).symm
  exact ⟨by decide +kernel, staging accept bound hr (by decide +kernel)⟩

end Vcmp.Listener
