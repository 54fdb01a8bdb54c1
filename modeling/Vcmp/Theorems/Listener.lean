import Vcmp.Theorems.Packets

/-! What one `read_cb` of the listener can do: drop the connection, or take the one packet its stage waits
    for. Every invariant of the listener is derived from `readCb_cases`. -/

namespace Vcmp.Listener
open ByteMem CInt

variable {K : Type} {env : Env K} {keypair : K} {s t : Conn K}

/-! ### The packets a stage waits for -/

/-- The buffer passes the length, header and type checks of `PUBKEY_WAIT`. -/
structure AckIn (input : List UInt8) (past : Mem) : Prop where
  header : sizeofHeader ≤ input.length
  long : sizeofHandshake < toSize (toInt input.length)
  exact : toSize (toInt input.length) = sizeofHandshake + (readKeylen (ofBytes input past)).toNat
  valid : vcmpValidate (VcmpHeader.read (ofBytes input past)) = 0
  type : (VcmpHeader.read (ofBytes input past)).type = vcmpTypeHsAck

/-- The buffer passes the length, header and type checks of `PUBKEY_CHECK`. -/
structure DataIn (input : List UInt8) (past : Mem) : Prop where
  header : sizeofHeader ≤ input.length
  long : sizeofData < toSize (toInt input.length)
  exact : toSize (toInt input.length) = sizeofData + (readLen (ofBytes input past)).toNat
  valid : vcmpValidate (VcmpHeader.read (ofBytes input past)) = 0
  type : (VcmpHeader.read (ofBytes input past)).type = vcmpTypeData

def ackKey (input : List UInt8) (past : Mem) : List UInt8 :=
  slice (ofBytes input past) sizeofHandshake (readKeylen (ofBytes input past)).toNat

def dataPayload (input : List UInt8) (past : Mem) : List UInt8 :=
  slice (ofBytes input past) sizeofData (readLen (ofBytes input past)).toNat

/-- The packet that carries the challenge, before it is written. -/
def challenge (env : Env K) (enc : Block) : VcmpData :=
  vcmpGenDataHeader env.uuid env.time (UInt32.ofNat enc.outlen) enc.bytes

def Conn.answered (s : Conn K) (hs : VcmpHandshake) : Conn K :=
  { s with
    peer := { s.peer with stage := .pubkeyWait }
    input := s.input.drop sizeofHeader
    written := s.written ++ [hs.bytes.take (sizeofHandshake + hs.keylen.toNat)] }

def Conn.challenged (s : Conn K) (env : Env K) (key : K) (enc : Block) : Conn K :=
  { s with
    peer := ⟨some key, .pubkeyCheck, env.randArray⟩
    input := s.input.drop (toSize (toInt s.input.length))
    written := s.written ++ [(challenge env enc).bytes.take sizeofPointer] }

def Conn.authenticated (s : Conn K) : Conn K :=
  { s with
    peer := { s.peer with stage := .ready }
    input := s.input.drop (toSize (toInt s.input.length)) }

/-- An `HS_ACK` that the listener accepts: it passes the checks, its key loads and the challenge can be
    encrypted and sent. -/
structure Accepted (env : Env K) (s : Conn K) (key : K) (enc : Block) : Prop where
  ack : AckIn s.input env.past
  loaded : env.rsaLoadDerPubkey (ackKey s.input env.past) = some key
  encrypted : env.rsaEncrypt env.randArray.toList key = some enc
  malloc : env.mallocData = true
  write : env.write = true

/-! ### One stage -/

/-- The connection was released, and nothing was written. -/
def Dropped (s t : Conn K) : Prop := t.freed ≠ [] ∧ t.written = s.written

theorem dropped_of_reject {u : Conn K} (h : u.reject = t) (same : u.written = s.written) : Dropped s t :=
  h ▸ ⟨by simp [Conn.reject], same⟩

theorem dropped_of_rejectKey {u : Conn K} {key : Option K} (h : u.rejectKey key = t) (same : u.written = s.written) :
    Dropped s t := h ▸ ⟨by simp [Conn.rejectKey], same⟩

theorem passed {c P : Prop} [Decidable c] {d u : Conn K} (h : (if c then d else u) = t) (drops : d = t → P) :
    P ∨ ¬c ∧ u = t := by
  by_cases hc : c
  · rw [if_pos hc] at h
    exact Or.inl (drops h)
  · rw [if_neg hc] at h
    exact Or.inr ⟨hc, h⟩

/-- The four checks of a packet: its length twice, its header and its type. -/
theorem passed_packet {long exact invalid other P : Prop} [Decidable long] [Decidable exact] [Decidable invalid]
    [Decidable other] {d₁ d u : Conn K}
    (h : (if long then d₁ else if exact then d else if invalid then d else if other then d else u) = t)
    (drops₁ : d₁ = t → P) (drops : d = t → P) : P ∨ (¬long ∧ ¬exact ∧ ¬invalid ∧ ¬other) ∧ u = t := by
  rcases passed h drops₁ with hdrop | ⟨hlong, h⟩
  · exact Or.inl hdrop
  rcases passed h drops with hdrop | ⟨hexact, h⟩
  · exact Or.inl hdrop
  rcases passed h drops with hdrop | ⟨hvalid, h⟩
  · exact Or.inl hdrop
  rcases passed h drops with hdrop | ⟨htype, h⟩
  · exact Or.inl hdrop
  · exact Or.inr ⟨⟨hlong, hexact, hvalid, htype⟩, h⟩

/-- The packet that carries the exported key `der`. -/
def hsInit (der : List UInt8) : VcmpHandshake :=
  ⟨vcmpGenHeader vcmpTypeHsInit, UInt32.ofNat der.length, der.take (UInt32.ofNat der.length).toNat⟩

/-- A `VERIFY` that the listener answers: its header is valid, and the key can be exported and sent. -/
structure Verified (env : Env K) (keypair : K) (s : Conn K) (der : List UInt8) : Prop where
  valid : vcmpValidate (VcmpHeader.read (ofBytes s.input env.past)) = 0
  type : (VcmpHeader.read (ofBytes s.input env.past)).type = vcmpTypeVerify
  exported : env.rsaGetDerPubkey keypair = some der
  malloc : env.mallocHandshake = true
  write : env.write = true

theorem readNone_cases (h : readNone env keypair s = t) :
    Dropped s t ∨ ∃ der, Verified env keypair s der ∧ t = s.answered (hsInit der) := by
  simp only [readNone] at h
  rcases passed h (dropped_of_reject · rfl) with hdrop | ⟨hvalid, h⟩
  · exact Or.inl hdrop
  obtain ⟨valid, type⟩ : _ ∧ _ := by simpa only [not_or, not_not] using hvalid
  cases hder : env.rsaGetDerPubkey keypair with
  | none =>
    rw [hder] at h
    exact Or.inl (dropped_of_reject h rfl)
  | some der =>
    rw [hder] at h
    cases hmalloc : env.mallocHandshake with
    | false =>
      rw [hmalloc] at h
      exact Or.inl (dropped_of_reject h rfl)
    | true =>
      rw [hmalloc] at h
      rcases passed h (dropped_of_reject · rfl) with hdrop | ⟨hwrite, h⟩
      · exact Or.inl hdrop
      rw [Bool.not_eq_true, Bool.not_eq_false'] at hwrite
      exact Or.inr ⟨der, ⟨valid, type, hder, hmalloc, hwrite⟩, h.symm⟩

theorem readNone_verified {der : List UInt8} (h : Verified env keypair s der) :
    readNone env keypair s = s.answered (hsInit der) := by
  have hvalid : ¬(vcmpValidate (VcmpHeader.read (ofBytes s.input env.past)) ≠ 0 ∨
      (VcmpHeader.read (ofBytes s.input env.past)).type ≠ vcmpTypeVerify) := by
    rintro (hne | hne)
    · exact hne h.valid
    · exact hne h.type
  simp only [readNone]
  rw [if_neg hvalid]
  simp only [h.exported, h.malloc, h.write, vcmpGenHsHeader, Bool.not_true, Bool.false_eq_true, if_false, if_true,
    Conn.answered, Conn.write, Conn.drain, hsInit]

theorem readPubkeyWait_cases (header : sizeofHeader ≤ s.input.length) (h : readPubkeyWait env s = t) :
    Dropped s t ∨ ∃ key enc, Accepted env s key enc ∧ t = s.challenged env key enc := by
  simp only [readPubkeyWait] at h
  rcases passed_packet h (dropped_of_reject · rfl) (dropped_of_reject · rfl) with hdrop | ⟨⟨hlong, hexact, hvalid, htype⟩, h⟩
  · exact Or.inl hdrop
  have hack : AckIn s.input env.past :=
    ⟨header, Nat.lt_of_not_le hlong, not_not.mp hexact, not_not.mp hvalid, not_not.mp htype⟩
  cases hload : env.rsaLoadDerPubkey (ackKey s.input env.past) with
  | none =>
    rw [ackKey] at hload
    rw [hload] at h
    exact Or.inl (dropped_of_reject h rfl)
  | some key =>
    rw [ackKey] at hload
    simp only [hload] at h
    cases henc : env.rsaEncrypt env.randArray.toList key with
    | none =>
      rw [henc] at h
      exact Or.inl (dropped_of_rejectKey h rfl)
    | some enc =>
      rw [henc] at h
      rcases passed h (dropped_of_rejectKey · rfl) with hdrop | ⟨hmalloc, h⟩
      · exact Or.inl hdrop
      rcases passed h (dropped_of_rejectKey · rfl) with hdrop | ⟨hwrite, h⟩
      · exact Or.inl hdrop
      rw [Bool.not_eq_true, Bool.not_eq_false'] at hmalloc hwrite
      refine Or.inr ⟨key, enc, ⟨hack, hload, henc, hmalloc, hwrite⟩, ?_⟩
      rw [← h]
      simp only [Conn.challenged, Conn.write, Conn.drain, challenge]

theorem readPubkeyWait_accepted {key : K} {enc : Block} (h : Accepted env s key enc) :
    readPubkeyWait env s = s.challenged env key enc := by
  have hload := h.loaded
  rw [ackKey] at hload
  simp only [readPubkeyWait]
  rw [if_neg (Nat.not_le_of_lt h.ack.long), if_neg (not_not.mpr h.ack.exact), if_neg (not_not.mpr h.ack.valid),
    if_neg (not_not.mpr h.ack.type)]
  simp only [hload, h.encrypted, h.malloc, h.write, Bool.not_true, Bool.false_eq_true, if_false, Conn.challenged,
    Conn.write, Conn.drain, challenge]

/-- A `DATA` that proves the peer: it passes the checks and decrypts to the challenge. -/
structure Proved (env : Env K) (keypair : K) (s : Conn K) (dec : Block) : Prop where
  data : DataIn s.input env.past
  decrypted : env.rsaDecrypt (dataPayload s.input env.past) keypair = some dec
  same : slice dec.mem 0 12 = s.peer.authenticity.toList

theorem readPubkeyCheck_cases (header : sizeofHeader ≤ s.input.length) (h : readPubkeyCheck env keypair s = t) :
    Dropped s t ∨ ∃ dec, Proved env keypair s dec ∧ t = s.authenticated := by
  simp only [readPubkeyCheck] at h
  rcases passed_packet h (dropped_of_reject · rfl) (dropped_of_rejectKey · rfl) with hdrop | ⟨⟨hlong, hexact, hvalid, htype⟩, h⟩
  · exact Or.inl hdrop
  have hdata : DataIn s.input env.past :=
    ⟨header, Nat.lt_of_not_le hlong, not_not.mp hexact, not_not.mp hvalid, not_not.mp htype⟩
  cases hdec : env.rsaDecrypt (dataPayload s.input env.past) keypair with
  | none =>
    rw [dataPayload] at hdec
    rw [hdec] at h
    exact Or.inl (dropped_of_rejectKey h rfl)
  | some dec =>
    rw [dataPayload] at hdec
    simp only [hdec] at h
    rcases passed h (dropped_of_rejectKey · rfl) with hdrop | ⟨hsame, h⟩
    · exact Or.inl hdrop
    · refine Or.inr ⟨dec, ⟨hdata, hdec, (not_not.mp hsame).symm⟩, ?_⟩
      rw [← h]
      simp only [Conn.authenticated, Conn.drain]

theorem readPubkeyCheck_proved {dec : Block} (h : Proved env keypair s dec) :
    readPubkeyCheck env keypair s = s.authenticated := by
  have hdec := h.decrypted
  rw [dataPayload] at hdec
  simp only [readPubkeyCheck]
  rw [if_neg (Nat.not_le_of_lt h.data.long), if_neg (not_not.mpr h.data.exact), if_neg (not_not.mpr h.data.valid),
    if_neg (not_not.mpr h.data.type)]
  simp only [hdec]
  exact if_neg (not_not.mpr h.same.symm)

/-! ### One read -/

theorem AckIn.packet {input : List UInt8} {past : Mem} (h : AckIn input past) (bound : input.length < 2 ^ 31) :
    input = handshakePacket vcmpTypeHsAck (ackKey input past) ∧ (ackKey input past).length < 2 ^ 32 := by
  have hexact := h.exact
  rw [toSize_toInt bound] at hexact
  obtain ⟨hpacket, hlt⟩ := eq_handshakePacket hexact h.valid
  have hkey : ackKey input past = input.drop sizeofHandshake := by
    rw [ackKey, slice_ofBytes (by omega), List.take_of_length_le (by rw [List.length_drop]; omega)]
  rw [hkey]
  rw [h.type] at hpacket
  exact ⟨hpacket, hlt⟩

theorem DataIn.packet {input : List UInt8} {past : Mem} (h : DataIn input past) (bound : input.length < 2 ^ 31) :
    ∃ stamp, stamp.length = 24 ∧ input = dataPacket stamp (dataPayload input past) ∧
      (dataPayload input past).length < 2 ^ 32 := by
  have hexact := h.exact
  rw [toSize_toInt bound] at hexact
  have hpayload : dataPayload input past = input.drop sizeofData := by
    rw [dataPayload, slice_ofBytes (by omega), List.take_of_length_le (by rw [List.length_drop]; omega)]
  rw [hpayload]
  exact eq_dataPacket hexact h.valid h.type

/-- What a `read_cb` that does not drop the connection does. -/
inductive Reads (env : Env K) (keypair : K) (s : Conn K) : Conn K → Prop
  | verified {rest der : List UInt8} {hs : VcmpHandshake} (stage : s.peer.stage = .none)
      (input : s.input = verifyPacket ++ rest) (exported : env.rsaGetDerPubkey keypair = some der)
      (packet : vcmpGenHsHeader true vcmpTypeHsInit (UInt32.ofNat der.length) der = some hs) :
      Reads env keypair s (s.answered hs)
  | acknowledged {key : K} {enc : Block} (stage : s.peer.stage = .pubkeyWait) (accepted : Accepted env s key enc) :
      Reads env keypair s (s.challenged env key enc)
  | authenticated {dec : Block} (stage : s.peer.stage = .pubkeyCheck) (data : DataIn s.input env.past)
      (decrypted : env.rsaDecrypt (dataPayload s.input env.past) keypair = some dec)
      (same : slice dec.mem 0 12 = s.peer.authenticity.toList) :
      Reads env keypair s s.authenticated
  | idle (stage : s.peer.stage = .ready) : Reads env keypair s s

theorem readCb_cases (h : readCb env keypair s = t) : Dropped s t ∨ Reads env keypair s t := by
  rw [readCb] at h
  rcases passed h (dropped_of_reject · rfl) with hdrop | ⟨hheader, h⟩
  · exact Or.inl hdrop
  have header : sizeofHeader ≤ s.input.length := Nat.le_of_not_lt hheader
  cases hstage : s.peer.stage with
  | none =>
    rw [hstage] at h
    rcases readNone_cases h with hdrop | ⟨der, hverified, rfl⟩
    · exact Or.inl hdrop
    · have hinput := List.take_append_drop 7 s.input
      rw [take_valid header hverified.valid, hverified.type] at hinput
      exact Or.inr (.verified hstage hinput.symm hverified.exported rfl)
  | pubkeyWait =>
    rw [hstage] at h
    rcases readPubkeyWait_cases header h with hdrop | ⟨key, enc, haccepted, rfl⟩
    · exact Or.inl hdrop
    · exact Or.inr (.acknowledged hstage haccepted)
  | pubkeyCheck =>
    rw [hstage] at h
    rcases readPubkeyCheck_cases header h with hdrop | ⟨dec, hproved, rfl⟩
    · exact Or.inl hdrop
    · exact Or.inr (.authenticated hstage hproved.data hproved.decrypted hproved.same)
  | ready =>
    rw [hstage] at h
    subst h
    exact Or.inr (.idle hstage)

theorem readCb_accepted {key : K} {enc : Block} (stage : s.peer.stage = .pubkeyWait) (h : Accepted env s key enc) :
    readCb env keypair s = s.challenged env key enc := by
  rw [readCb, if_neg (Nat.not_lt_of_le h.ack.header), stage]
  exact readPubkeyWait_accepted h

theorem acceptConnCb_cases {bufferevent peer : Bool} (h : acceptConnCb bufferevent peer = some s) :
    s = { peer := ⟨none, .none, Vector.replicate 12 0⟩, input := [], written := [], freed := [] } := by
  cases bufferevent with
  | false => cases h
  | true =>
    cases peer with
    | false => cases h
    | true => exact (Option.some.inj h).symm

/-- A step is taken by a live connection, and is a read of what it then holds or changes nothing. -/
theorem step_cases {e : Event K} (h : step keypair s e = some t) : s.freed = [] ∧
    ((∃ bytes env, e = .read bytes env ∧ (t.freed ≠ [] ∨ Reads env keypair { s with input := s.input ++ bytes } t)) ∨
      (∃ events, e = .event events) ∧ t = s) := by
  cases e with
  | read bytes env =>
    rw [step, Option.ite_none_right_eq_some, List.isEmpty_iff] at h
    exact ⟨h.1, Or.inl ⟨bytes, env, rfl, (readCb_cases (Option.some.inj h.2)).imp_left And.left⟩⟩
  | event events =>
    rw [step, Option.ite_none_right_eq_some, List.isEmpty_iff] at h
    exact ⟨h.1, Or.inr ⟨⟨events, rfl⟩, (Option.some.inj h.2).symm⟩⟩

end Vcmp.Listener
