import Vcmp.Theorems.Staging

/-! What `PUBKEY_WAIT` does with a handshake it accepts: what it writes of the challenge, and whose key it
    stores. -/

namespace Vcmp.Listener
open ByteMem Lts

variable {K : Type} {env : Env K} {keypair own key : K} {enc : Block} {start s t : Conn K} {e : Event K}
  {es : List (Event K)}

/-! ### The challenge packet

The packet is written with `sizeof(buf)`, the size of a pointer. -/

theorem take_challenge : (challenge env enc).bytes.take sizeofPointer = packetHeader vcmpTypeData ++ env.uuid.toList.take 1 := by
  have front : (challenge env enc).bytes = packetHeader vcmpTypeData ++ (env.uuid.toList ++
      (ByteOrder.toLE 8 env.time.toNat ++ (ByteOrder.toLE 4 (UInt32.ofNat enc.outlen).toNat ++ enc.bytes))) := by
    simp only [VcmpData.bytes, challenge, vcmpGenDataHeader, List.append_assoc]
    rfl
  rw [front, List.take_append, show (packetHeader vcmpTypeData).length = 7 from rfl]
  rw [List.take_append_of_le_length (by simp [sizeofPointer])]
  rfl

/-- All that goes out is the header and the first byte of the message identifier. -/
theorem written_accepted (stage : s.peer.stage = .pubkeyWait) (h : Accepted env s key enc) :
    (readCb env keypair s).written = s.written ++ [packetHeader vcmpTypeData ++ env.uuid.toList.take 1] := by
  rw [readCb_accepted stage h, Conn.challenged, take_challenge]

/-- Serving the read writes one data packet with the whole ciphertext. -/
def ChallengeWhole (env : Env K) (keypair : K) (s : Conn K) (enc : Block) : Prop :=
  ∃ stamp, stamp.length = 24 ∧
    (readCb env keypair s).written.flatten = s.written.flatten ++ dataPacket stamp enc.bytes

theorem length_dataPacket {stamp payload : List UInt8} (h : stamp.length = 24) :
    (dataPacket stamp payload).length = sizeofData + payload.length := by
  simp only [dataPacket, List.length_append, ByteOrder.length_toLE, h, show (packetHeader vcmpTypeData).length = 7 from rfl,
    sizeofData]
  omega

theorem not_challengeWhole (stage : s.peer.stage = .pubkeyWait) (h : Accepted env s key enc) :
    ¬ChallengeWhole env keypair s enc := by
  rintro ⟨stamp, stamped, hwritten⟩
  rw [written_accepted stage h, List.flatten_append, List.append_cancel_left_eq] at hwritten
  have hlen := congrArg List.length hwritten
  rw [length_dataPacket stamped, sizeofData] at hlen
  simp only [List.flatten_cons, List.flatten_nil, List.length_append, List.length_take, List.length_nil,
    show (packetHeader vcmpTypeData).length = 7 from rfl] at hlen
  omega

/-- A connection that waits for the key, with the handshake of a peer with key 9 in its buffer. -/
def sampleWait : Conn UInt8 where
  peer := ⟨none, .pubkeyWait, Vector.replicate 12 0⟩
  input := handshakePacket vcmpTypeHsAck [9]
  written := []
  freed := []

def sampleCipher : Block := ⟨ofBytes (9 :: sampleEnv.randArray.toList) fun _ => 0, 13⟩

theorem sampleWait_accepted : Accepted sampleEnv sampleWait 9 sampleCipher where
  ack := ⟨by decide, by decide, by decide, by decide, by decide⟩
  loaded := rfl
  encrypted := rfl
  malloc := rfl
  write := rfl

theorem not_challengeWhole_sample : ¬ChallengeWhole sampleEnv 7 sampleWait sampleCipher :=
  not_challengeWhole rfl sampleWait_accepted

theorem challenge_truncated : ¬∀ (K : Type) (env : Env K) (keypair key : K) (s : Conn K) (enc : Block),
    s.peer.stage = .pubkeyWait → Accepted env s key enc → ChallengeWhole env keypair s enc := by
  intro h
  obtain ⟨stamp, stamped, hwritten⟩ := h UInt8 sampleEnv 7 9 sampleWait sampleCipher rfl sampleWait_accepted
  have eight : (readCb sampleEnv 7 sampleWait).written.flatten.length = 8 := by decide +kernel
  rw [hwritten, List.length_append, length_dataPacket stamped, sizeofData] at eight
  omega

/-! ### Whose key is stored -/

/-- An open connection past `PUBKEY_WAIT` does not store `own`. -/
def Distinct (own : K) (s : Conn K) : Prop :=
  s.freed = [] → s.peer.stage = .pubkeyCheck ∨ s.peer.stage = .ready → s.peer.pubkey ≠ some own

/-- The event brings an `HS_ACK` that `PUBKEY_WAIT` accepts and whose key loads as `own`. -/
def Reflects (own : K) (s : Conn K) (e : Event K) : Prop :=
  ∃ bytes env enc, e = .read bytes env ∧ s.peer.stage = .pubkeyWait ∧
    Accepted env { s with input := s.input ++ bytes } own enc

/-- Nothing compares the key that arrives with `own`: it is stored exactly when it is sent. -/
theorem distinct_step (before : Distinct own s) (h : step keypair s e = some t) :
    Distinct own t ↔ ¬Reflects own s e := by
  obtain ⟨live, hcases⟩ := step_cases h
  constructor
  · rintro distinct ⟨bytes, env, enc, rfl, stage, accepted⟩
    rw [step, Option.ite_none_right_eq_some] at h
    have challenged : readCb env keypair { s with input := s.input ++ bytes } = _ := readCb_accepted stage accepted
    rw [challenged] at h
    have ht := Option.some.inj h.2
    subst ht
    exact distinct live (Or.inl rfl) rfl
  · intro other open' late
    rcases hcases with ⟨bytes, env, rfl, hfreed | hreads⟩ | ⟨-, rfl⟩
    · exact absurd open' hfreed
    · cases hreads with
      | verified => exact late.elim Stage.noConfusion Stage.noConfusion
      | @acknowledged key enc stage accepted =>
        intro hkey
        cases hkey
        exact other ⟨bytes, env, enc, rfl, stage, accepted⟩
      | authenticated stage => exact before live (Or.inl stage)
      | idle stage => exact before live (Or.inr stage)
    · exact before live late

/-- A connection never stores `own` exactly in the runs in which no accepted `HS_ACK` carries it, in
    particular where `own` is the listener's own public half. -/
theorem distinct_iff {bufferevent peer : Bool} (accept : acceptConnCb bufferevent peer = some start) :
    EachState (step keypair) (Distinct own) start es ↔
      EachStep (step keypair) (fun s e _ => ¬Reflects own s e) start es := by
  have fresh : Distinct own start := by
    obtain rfl := acceptConnCb_cases accept
    exact fun _ late => late.elim Stage.noConfusion Stage.noConfusion
  exact eachState_iff (J := fun _ => True) trivial (fun _ _ _ _ _ => trivial) fresh fun s e t _ _ before h => distinct_step before h

theorem distinct_iff_sample : EachState (step 7) (Distinct 7) sampleStart sampleRun ↔
    EachStep (step 7) (fun s e _ => ¬Reflects 7 s e) sampleStart sampleRun :=
  distinct_iff (show acceptConnCb true true = some sampleStart from rfl)

/-- A peer that sends back the key it got in `HS_INIT`. -/
def reflectedRun : List (Event UInt8) :=
  [.read verifyPacket sampleEnv, .read (handshakePacket vcmpTypeHsAck [7]) sampleEnv]

/-- What is assumed of the environment of a read: the exported key loads as `own`, and a challenge can be
    encrypted. -/
def KeysLoad (keypair own : K) (e : Event K) : Prop :=
  match e with
  | .read _ env => (∃ der, env.rsaGetDerPubkey keypair = some der ∧ env.rsaLoadDerPubkey der = some own) ∧
      ∀ key, (env.rsaEncrypt env.randArray.toList key).isSome = true
  | .event _ => True

theorem key_reflected : ¬∀ (K : Type) (keypair own : K) (start : Conn K) (es : List (Event K)),
    acceptConnCb true true = some start → (∀ e ∈ es, KeysLoad keypair own e) →
      EachState (step keypair) (Distinct own) start es := by
  intro h
  have loads : ∀ e ∈ reflectedRun, KeysLoad 7 7 e := by
    intro e he
    rcases List.mem_pair.mp he with rfl | rfl
    · exact ⟨⟨[7], rfl, rfl⟩, fun _ => rfl⟩
    · exact ⟨⟨[7], rfl, rfl⟩, fun _ => rfl⟩
  have all := h UInt8 7 7 sampleStart reflectedRun rfl loads
  have no : ¬EachState (step 7) (fun s : Conn UInt8 => ¬(s.freed.isEmpty = true ∧ s.peer.stage = .pubkeyCheck ∧
      s.peer.pubkey = some 7)) sampleStart reflectedRun := by decide +kernel
  exact no (all.mono fun u hu hbad => hu (List.isEmpty_iff.mp hbad.1) (Or.inl hbad.2.1) hbad.2.2)

/-! ### Packets that `vcmp_gen_hs_header` builds -/

section Built
variable {type : UInt8} {keylen : UInt32} {pubkey : List UInt8} {hs : VcmpHandshake}

/-- What is read back from a built packet is what it was built of, and an `HS_ACK` with a key passes the checks of
    `PUBKEY_WAIT`. -/
structure ReadsBack (type : UInt8) (keylen : UInt32) (pubkey : List UInt8) (hs : VcmpHandshake) (past : Mem) : Prop where
  valid : vcmpValidate (VcmpHeader.read (ofBytes hs.bytes past)) = 0
  typed : (VcmpHeader.read (ofBytes hs.bytes past)).type = type
  counted : readKeylen (ofBytes hs.bytes past) = keylen
  key : slice (ofBytes hs.bytes past) sizeofHandshake keylen.toNat = pubkey
  accepted : type = vcmpTypeHsAck → pubkey ≠ [] → AckIn hs.bytes past

theorem bytes_built (counted : pubkey.length = keylen.toNat) (built : vcmpGenHsHeader true type keylen pubkey = some hs) :
    hs.bytes = handshakePacket vcmpTypeHsInit pubkey := by
  obtain rfl := Option.some.inj built
  rw [handshakePacket, counted, ← List.append_assoc]
  simp only [VcmpHandshake.bytes, ← counted, List.take_length]
  rfl

/-- Every packet is built with the type of an `HS_INIT`. -/
theorem readsBack_iff (counted : pubkey.length = keylen.toNat) (past : Mem)
    (built : vcmpGenHsHeader true type keylen pubkey = some hs) :
    ReadsBack type keylen pubkey hs past ↔ type = vcmpTypeHsInit := by
  have hbytes := bytes_built counted built
  have hheader : VcmpHeader.read (ofBytes hs.bytes past) = vcmpGenHeader vcmpTypeHsInit := by
    rw [hbytes]
    exact read_packetHeader
  constructor
  · intro back
    have htype := back.typed
    rw [hheader] at htype
    exact htype.symm
  · rintro rfl
    have hlt : pubkey.length < 2 ^ 32 := counted ▸ keylen.toNat_lt
    refine ⟨by rw [hheader]; rfl, by rw [hheader]; rfl, ?_, ?_, fun htype => absurd htype (by decide)⟩
    · rw [hbytes, ← UInt32.toNat_inj, readKeylen_handshakePacket hlt, counted]
    · rw [hbytes, ← counted]
      exact slice_handshakePacket

theorem readsBack_iff_sample : ReadsBack vcmpTypeHsInit 1 [9] ⟨vcmpGenHeader vcmpTypeHsInit, 1, [9]⟩ fun _ => 0 :=
  (readsBack_iff rfl (fun _ => 0) (show vcmpGenHsHeader true vcmpTypeHsInit 1 [9] = _ from rfl)).mpr rfl

/-- An `HS_ACK` goes out as an `HS_INIT`. -/
theorem ack_not_readsBack : ∃ hs, vcmpGenHsHeader true vcmpTypeHsAck 1 [9] = some hs ∧
    hs.bytes = handshakePacket vcmpTypeHsInit [9] ∧ ¬ReadsBack vcmpTypeHsAck 1 [9] hs fun _ => 0 := by
  refine ⟨_, rfl, rfl, fun back => ?_⟩
  exact absurd back.typed (by decide)

end Built

end Vcmp.Listener
