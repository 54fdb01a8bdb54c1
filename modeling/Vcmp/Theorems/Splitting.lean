import Vcmp.Lib.Parts
import Vcmp.Theorems.PubkeyWait

/-! The handshake of a peer against the reads that bring it: which splits of a `VERIFY`, an `HS_ACK` and a `DATA`
    packet end like one packet a read. -/

namespace Vcmp.Listener
open ByteOrder ByteMem CInt Parts

/-! ### A buffer that holds the beginning of a stream -/

section Buffer
variable {buf body rest der stamp payload : List UInt8} {past : Mem}

theorem count_arrived (front : List UInt8) {n : Nat} (h : buf <+: front ++ (toLE 4 n ++ body)) (hn : n < 2 ^ 32)
    (hl : front.length + 4 ≤ buf.length) :
    (UInt32.ofNat (ofLE (slice (ofBytes buf past) front.length 4))).toNat = n := by
  rw [← List.append_assoc] at h
  obtain ⟨u, rfl, -⟩ := prefix_append h (by rw [List.length_append, length_toLE]; exact hl)
  rw [List.append_assoc]
  exact ofLE_slice_toLE front hn

theorem read_arrived {type : UInt8} (h : buf <+: packetHeader type ++ rest) (hl : sizeofHeader ≤ buf.length) :
    VcmpHeader.read (ofBytes buf past) = vcmpGenHeader type := by
  obtain ⟨u, rfl, -⟩ := prefix_append h hl
  exact read_packetHeader

theorem lt_length_of_lt_toSize {n k : Nat} (hk : k < 2 ^ 31) (h : k < toSize (toInt n)) : k < n := by
  by_contra hle
  rw [toSize_toInt (by omega)] at h
  exact hle h

/-- The two length checks of a stage, on a packet of `k` bytes behind a header of `size` bytes that says so. -/
theorem lengths_iff {size n k count : Nat} (hsize : size < 2 ^ 31) (hk : k < 2 ^ 32) (hcount : size ≤ n → count = k) :
    size < toSize (toInt n) ∧ toSize (toInt n) = size + count ↔ 0 < k ∧ size + k < 2 ^ 31 ∧ n % 2 ^ 32 = size + k := by
  constructor
  · rintro ⟨long, exact'⟩
    have hlong := lt_length_of_lt_toSize hsize long
    rw [hcount (Nat.le_of_lt hlong)] at exact'
    obtain ⟨hmod, hshort⟩ := (toSize_toInt_eq_iff (by omega)).mp exact'
    exact ⟨by omega, hshort, hmod⟩
  · rintro ⟨hpos, hshort, hmod⟩
    have exact' := (toSize_toInt_eq_iff (by omega)).mpr ⟨hmod, hshort⟩
    have hle := Nat.mod_le n (2 ^ 32)
    exact ⟨by omega, by rw [hcount (by omega), exact']⟩

theorem length_handshakePacket : (handshakePacket vcmpTypeHsAck der).length = sizeofHandshake + der.length := by
  simp only [handshakePacket, List.length_append, length_toLE, show (packetHeader vcmpTypeHsAck).length = 7 from rfl,
    sizeofHandshake]
  omega

theorem ackIn_iff (h : buf <+: handshakePacket vcmpTypeHsAck der ++ rest) (fits : der.length < 2 ^ 32) :
    AckIn buf past ↔ der ≠ [] ∧ (handshakePacket vcmpTypeHsAck der).length < 2 ^ 31 ∧
      buf.length % 2 ^ 32 = (handshakePacket vcmpTypeHsAck der).length := by
  have count : sizeofHandshake ≤ buf.length → (readKeylen (ofBytes buf past)).toNat = der.length := by
    intro hl
    rw [handshakePacket, List.append_assoc, List.append_assoc] at h
    exact count_arrived (packetHeader vcmpTypeHsAck) h fits hl
  have hheader : sizeofHeader ≤ buf.length → VcmpHeader.read (ofBytes buf past) = vcmpGenHeader vcmpTypeHsAck := by
    rw [handshakePacket, List.append_assoc] at h
    exact read_arrived h
  rw [length_handshakePacket]
  constructor
  · intro hack
    obtain ⟨hpos, hshort, hmod⟩ := (lengths_iff (by decide) fits count).mp ⟨hack.long, hack.exact⟩
    exact ⟨List.ne_nil_of_length_pos hpos, hshort, hmod⟩
  · rintro ⟨long, hshort, hmod⟩
    obtain ⟨hlong, hexact⟩ := (lengths_iff (by decide) fits count).mpr ⟨List.length_pos_of_ne_nil long, hshort, hmod⟩
    have hle : sizeofHandshake + der.length ≤ buf.length := hmod ▸ Nat.mod_le _ _
    have header : sizeofHeader ≤ buf.length := Nat.le_trans (Nat.le_add_right_of_le (by decide)) hle
    have hread := hheader header
    exact ⟨header, hlong, hexact, vcmpValidate_eq_zero.mpr (by rw [hread]; rfl), by rw [hread]; rfl⟩

theorem ackKey_arrived (h : buf <+: handshakePacket vcmpTypeHsAck der ++ rest) (fits : der.length < 2 ^ 32)
    (whole : (handshakePacket vcmpTypeHsAck der).length ≤ buf.length) : ackKey buf past = der := by
  obtain ⟨u, rfl, -⟩ := prefix_append h whole
  rw [ackKey, ofBytes_append, readKeylen_handshakePacket fits]
  exact slice_handshakePacket

theorem dataIn_iff (h : buf <+: dataPacket stamp payload) (stamped : stamp.length = 24) (fits : payload.length < 2 ^ 32) :
    DataIn buf past ↔ payload ≠ [] ∧ (dataPacket stamp payload).length < 2 ^ 31 ∧
      buf.length = (dataPacket stamp payload).length := by
  have count : sizeofData ≤ buf.length → (readLen (ofBytes buf past)).toNat = payload.length := by
    intro hl
    have hfront : (packetHeader vcmpTypeData ++ stamp).length = 31 := by rw [List.length_append, stamped]; rfl
    rw [dataPacket, ← List.append_assoc] at h
    rw [readLen, ← hfront]
    exact count_arrived _ h fits (by rw [hfront]; exact hl)
  have hheader : sizeofHeader ≤ buf.length → VcmpHeader.read (ofBytes buf past) = vcmpGenHeader vcmpTypeData := read_arrived h
  have hle := h.length_le
  rw [length_dataPacket stamped] at hle ⊢
  constructor
  · intro hdata
    obtain ⟨hpos, hshort, hmod⟩ := (lengths_iff (by decide) fits count).mp ⟨hdata.long, hdata.exact⟩
    exact ⟨List.ne_nil_of_length_pos hpos, hshort, by omega⟩
  · rintro ⟨long, hshort, hlength⟩
    have hmod : buf.length % 2 ^ 32 = sizeofData + payload.length := by omega
    obtain ⟨hlong, hexact⟩ := (lengths_iff (by decide) fits count).mpr ⟨List.length_pos_of_ne_nil long, hshort, hmod⟩
    have header : sizeofHeader ≤ buf.length := hlength ▸ Nat.le_add_right_of_le (by decide)
    have hread := hheader header
    exact ⟨header, hlong, hexact, vcmpValidate_eq_zero.mpr (by rw [hread]; rfl), by rw [hread]; rfl⟩

end Buffer

/-! ### What a callback makes of its packet -/

/-- The bytes of a read and the memory behind the buffer that they are in. -/
abbrev Read : Type := List UInt8 × Mem

variable {K : Type} {env : Env K} {keypair key : K} {enc dec : Block} {s t : Conn K} {r : Read}
  {rest der stamp payload : List UInt8}

def Env.at (env : Env K) (r : Read) : Env K := { env with past := r.2 }

structure Answers (env : Env K) (keypair : K) (der : List UInt8) : Prop where
  exported : env.rsaGetDerPubkey keypair = some der
  malloc : env.mallocHandshake = true
  write : env.write = true

structure Challenges (env : Env K) (der : List UInt8) (key : K) (enc : Block) : Prop where
  long : der ≠ []
  short : (handshakePacket vcmpTypeHsAck der).length < 2 ^ 31
  loaded : env.rsaLoadDerPubkey der = some key
  encrypted : env.rsaEncrypt env.randArray.toList key = some enc
  malloc : env.mallocData = true
  write : env.write = true

/-- A `DATA` with this payload proves that its sender has read the challenge. -/
structure Proves (env : Env K) (keypair : K) (authenticity : Vector UInt8 12) (stamp payload : List UInt8) (dec : Block) :
    Prop where
  long : payload ≠ []
  short : (dataPacket stamp payload).length < 2 ^ 31
  decrypted : env.rsaDecrypt payload keypair = some dec
  same : slice dec.mem 0 12 = authenticity.toList

theorem verified_iff (h : s.input <+: verifyPacket ++ rest) (header : sizeofHeader ≤ s.input.length) :
    Verified (env.at r) keypair s der ↔ Answers env keypair der := by
  have hread : VcmpHeader.read (ofBytes s.input r.2) = vcmpGenHeader vcmpTypeVerify := read_arrived h header
  constructor
  · exact fun verified => ⟨verified.exported, verified.malloc, verified.write⟩
  · intro answers
    refine ⟨?_, ?_, answers.exported, answers.malloc, answers.write⟩
    · show vcmpValidate (VcmpHeader.read (ofBytes s.input r.2)) = 0
      rw [hread]
      rfl
    · exact congrArg VcmpHeader.type hread

theorem accepted_iff (h : s.input <+: handshakePacket vcmpTypeHsAck der ++ rest) (fits : der.length < 2 ^ 32) :
    Accepted (env.at r) s key enc ↔
      Challenges env der key enc ∧ s.input.length % 2 ^ 32 = (handshakePacket vcmpTypeHsAck der).length := by
  constructor
  · intro accepted
    obtain ⟨long, short, whole⟩ := (ackIn_iff h fits).mp accepted.ack
    have loaded : env.rsaLoadDerPubkey (ackKey s.input r.2) = some key := accepted.loaded
    rw [ackKey_arrived h fits (whole ▸ Nat.mod_le _ _)] at loaded
    exact ⟨⟨long, short, loaded, accepted.encrypted, accepted.malloc, accepted.write⟩, whole⟩
  · rintro ⟨challenges, whole⟩
    have loaded : env.rsaLoadDerPubkey (ackKey s.input r.2) = some key := by
      rw [ackKey_arrived h fits (whole ▸ Nat.mod_le _ _)]
      exact challenges.loaded
    exact ⟨(ackIn_iff h fits).mpr ⟨challenges.long, challenges.short, whole⟩, loaded, challenges.encrypted,
      challenges.malloc, challenges.write⟩

theorem proved_iff (h : s.input <+: dataPacket stamp payload) (stamped : stamp.length = 24) (fits : payload.length < 2 ^ 32) :
    Proved (env.at r) keypair s dec ↔
      Proves env keypair s.peer.authenticity stamp payload dec ∧ s.input.length = (dataPacket stamp payload).length := by
  have hpayload : s.input.length = (dataPacket stamp payload).length → dataPayload s.input r.2 = payload := by
    intro whole
    rw [dataPayload, h.eq_of_length whole, readLen_dataPacket stamped fits]
    exact slice_dataPacket stamped
  constructor
  · intro proved
    obtain ⟨long, short, whole⟩ := (dataIn_iff h stamped fits).mp proved.data
    have decrypted : env.rsaDecrypt (dataPayload s.input r.2) keypair = some dec := proved.decrypted
    rw [hpayload whole] at decrypted
    exact ⟨⟨long, short, decrypted, proved.same⟩, whole⟩
  · rintro ⟨proves, whole⟩
    have decrypted : env.rsaDecrypt (dataPayload s.input r.2) keypair = some dec := by
      rw [hpayload whole]
      exact proves.decrypted
    exact ⟨(dataIn_iff h stamped fits).mpr ⟨proves.long, proves.short, whole⟩, decrypted, proves.same⟩

theorem readCb_none_dropped (stage : s.peer.stage = .none)
    (h : sizeofHeader ≤ s.input.length → ∀ der, ¬Verified env keypair s der) : Dropped s (readCb env keypair s) := by
  rw [readCb]
  split
  · exact dropped_of_reject rfl rfl
  next header =>
    rw [stage]
    refine (readNone_cases rfl).resolve_right ?_
    rintro ⟨der, verified, -⟩
    exact h (Nat.le_of_not_lt header) der verified

theorem readCb_wait_dropped (stage : s.peer.stage = .pubkeyWait) (h : ∀ key enc, ¬Accepted env s key enc) :
    Dropped s (readCb env keypair s) := by
  generalize ht : readCb env keypair s = t
  refine (readCb_cases ht).resolve_right fun hreads => ?_
  cases hreads with
  | verified stage' => cases stage.symm.trans stage'
  | @acknowledged key enc _ accepted => exact h key enc accepted
  | authenticated stage' => cases stage.symm.trans stage'
  | idle stage' => cases stage.symm.trans stage'

theorem readCb_check_dropped (stage : s.peer.stage = .pubkeyCheck) (h : ∀ dec, ¬Proved env keypair s dec) :
    Dropped s (readCb env keypair s) := by
  generalize ht : readCb env keypair s = t
  refine (readCb_cases ht).resolve_right fun hreads => ?_
  cases hreads with
  | verified stage' => cases stage.symm.trans stage'
  | acknowledged stage' => cases stage.symm.trans stage'
  | @authenticated dec _ data decrypted same => exact h dec ⟨data, decrypted, same⟩
  | idle stage' => cases stage.symm.trans stage'

theorem readCb_verified (stage : s.peer.stage = .none) (header : sizeofHeader ≤ s.input.length)
    (h : Verified env keypair s der) : readCb env keypair s = s.answered (hsInit der) := by
  rw [readCb, if_neg (Nat.not_lt_of_le header), stage]
  exact readNone_verified h

theorem readCb_proved (stage : s.peer.stage = .pubkeyCheck) (h : Proved env keypair s dec) :
    readCb env keypair s = s.authenticated := by
  rw [readCb, if_neg (Nat.not_lt_of_le h.data.header), stage]
  exact readPubkeyCheck_proved h

/-! ### A stream in reads -/

def stream (reads : List Read) : List UInt8 := (reads.map Prod.fst).flatten

/-- The reads one after the other, the first in `env 0`; what arrives on a connection that was dropped goes
    nowhere. -/
def serve (keypair : K) (env : Nat → Env K) (s : Conn K) : List Read → Conn K
  | [] => s
  | r :: reads =>
    serve keypair (fun i => env (i + 1)) ((step keypair s (.read r.1 { env 0 with past := r.2 })).getD s) reads

/-- Where a connection ends: the stage of its peer, unless the peer was dropped, and the packets that were
    written. -/
def outcome (s : Conn K) : Option Stage × List (List UInt8) :=
  (if s.freed = [] then some s.peer.stage else none, s.written)

variable {envs : Nat → Env K} {reads : List Read}

theorem stream_cons : stream (r :: reads) = r.1 ++ stream reads := rfl

def Conn.arrive (s : Conn K) (r : Read) : Conn K := { s with input := s.input ++ r.1 }

theorem serve_cons (live : s.freed = []) : serve keypair envs s (r :: reads) =
    serve keypair (fun i => envs (i + 1)) (readCb ((envs 0).at r) keypair (s.arrive r)) reads := by
  have open' : s.freed.isEmpty = true := List.isEmpty_iff.mpr live
  rw [serve, step, if_pos open']
  rfl

theorem serve_dropped (h : s.freed ≠ []) : serve keypair envs s reads = s := by
  induction reads generalizing envs with
  | nil => rfl
  | cons r reads ih =>
    rw [serve, step, if_neg (by rwa [List.isEmpty_iff]), Option.getD_none]
    exact ih

theorem written_readCb (env : Env K) (keypair : K) (s : Conn K) : s.written <+: (readCb env keypair s).written := by
  generalize ht : readCb env keypair s = t
  rcases readCb_cases ht with hdrop | hreads
  · exact hdrop.2 ▸ List.prefix_rfl
  · cases hreads with
    | verified => exact List.prefix_append _ _
    | acknowledged => exact List.prefix_append _ _
    | authenticated => exact List.prefix_rfl
    | idle => exact List.prefix_rfl

theorem written_serve (keypair : K) (envs : Nat → Env K) (s : Conn K) (reads : List Read) :
    s.written <+: (outcome (serve keypair envs s reads)).2 := by
  induction reads generalizing envs s with
  | nil => exact List.prefix_rfl
  | cons r reads ih =>
    by_cases live : s.freed = []
    · rw [serve_cons live]
      exact (written_readCb ((envs 0).at r) keypair (s.arrive r)).trans (ih _ _)
    · rw [serve_dropped live]
      exact List.prefix_rfl

/-- A connection that wrote a packet more does not end like one that did not. -/
theorem outcome_ne {packet : List UInt8} {ws : List (List UInt8)} {stage : Option Stage} (h : s.written = ws ++ [packet]) :
    (stage, ws) ≠ outcome (serve keypair envs s reads) := by
  intro heq
  have hle := (written_serve keypair envs s reads).length_le
  rw [← congrArg Prod.snd heq, h, List.length_append] at hle
  exact absurd hle (by simp)

theorem outcome_dropped (live : s.freed = []) (h : Dropped (s.arrive r) (readCb ((envs 0).at r) keypair (s.arrive r))) :
    outcome (serve keypair envs s (r :: reads)) = (none, s.written) := by
  rw [serve_cons live, serve_dropped h.1, outcome, if_neg h.1, h.2]
  rfl

theorem outcome_nil (live : s.freed = []) : outcome (serve keypair envs s []) = (some s.peer.stage, s.written) := by
  rw [serve, outcome, if_pos live]

/-- Reads of which the first drops the peer end in a drop, unless there are none. -/
theorem outcome_refused_iff {P : Read → List Read → Prop} (live : s.freed = [])
    (refused : ∀ r rest, reads = r :: rest → outcome (serve keypair envs s (r :: rest)) = (none, s.written) ∧ P r rest) :
    outcome (serve keypair envs s reads) = (none, s.written) ↔ ∃ r rest, reads = r :: rest ∧ P r rest := by
  cases reads with
  | nil =>
    rw [outcome_nil live]
    exact iff_of_false (by simp) not_exists_cons
  | cons r rest =>
    obtain ⟨hdropped, hrest⟩ := refused r rest rfl
    rw [hdropped, exists_cons_iff]
    exact iff_of_true rfl hrest

/-! ### `PUBKEY_CHECK` -/

/-- The peer is in `stage`, and the reads bring the rest of `packets`. -/
structure Expects (stage : Stage) (packets : List UInt8) (s : Conn K) (reads : List Read) : Prop where
  stage : s.peer.stage = stage
  live : s.freed = []
  stream : s.input ++ stream reads = packets

theorem Expects.arrived {stage : Stage} {packets : List UInt8} (h : Expects stage packets s (r :: reads)) :
    (s.arrive r).input <+: packets := by
  rw [← h.stream, stream_cons, ← List.append_assoc]
  exact List.prefix_append _ _

theorem Expects.length {stage : Stage} {packets : List UInt8} (h : Expects stage packets s reads) :
    s.input.length + (Listener.stream reads).length = packets.length := by
  rw [← h.stream, List.length_append]

theorem outcome_ready (h : Expects .pubkeyCheck (dataPacket stamp payload) s (r :: reads)) (stamped : stamp.length = 24)
    (fits : payload.length < 2 ^ 32) (nonempty : ∀ r ∈ reads, r.1 ≠ [])
    (proves : Proves (envs 0) keypair s.peer.authenticity stamp payload dec)
    (whole : s.input.length + r.1.length = (dataPacket stamp payload).length) :
    outcome (serve keypair envs s (r :: reads)) = (some .ready, s.written) := by
  have hwhole : (s.arrive r).input.length = (dataPacket stamp payload).length := by
    rw [← whole]
    exact List.length_append
  have hproved : Proved ((envs 0).at r) keypair (s.arrive r) dec :=
    (proved_iff h.arrived stamped fits).mpr ⟨proves, hwhole⟩
  have last : reads = [] := by
    have hlength := h.length
    rw [stream_cons, List.length_append] at hlength
    cases reads with
    | nil => rfl
    | cons r' reads =>
      have hpos := List.length_pos_of_ne_nil (nonempty r' List.mem_cons_self)
      rw [stream_cons, List.length_append] at hlength
      omega
  have hread : readCb ((envs 0).at r) keypair (s.arrive r) = (s.arrive r).authenticated := readCb_proved h.stage hproved
  rw [serve_cons h.live, hread, last]
  exact outcome_nil h.live

/-- A `DATA` that is cut off, or does not prove the peer, drops it. -/
theorem outcome_unproved (h : Expects .pubkeyCheck (dataPacket stamp payload) s (r :: reads)) (stamped : stamp.length = 24)
    (fits : payload.length < 2 ^ 32)
    (fails : (∃ dec, Proves (envs 0) keypair s.peer.authenticity stamp payload dec) →
      s.input.length + r.1.length ≠ (dataPacket stamp payload).length) :
    outcome (serve keypair envs s (r :: reads)) = (none, s.written) := by
  refine outcome_dropped h.live (readCb_check_dropped h.stage fun dec hdec => ?_)
  obtain ⟨proves, whole⟩ := (proved_iff h.arrived stamped fits).mp hdec
  exact fails ⟨dec, proves⟩ (List.length_append.symm.trans whole)

/-- What a split of the reads in `PUBKEY_CHECK` and the whole packet have in common. -/
theorem same_check {s' : Conn K} {d : Read} (h : Expects .pubkeyCheck (dataPacket stamp payload) s reads)
    (h' : Expects .pubkeyCheck (dataPacket stamp payload) s' [d]) (same : s'.input = [] ∧ s'.written = s.written ∧
      s'.peer.authenticity = s.peer.authenticity)
    (stamped : stamp.length = 24) (fits : payload.length < 2 ^ 32) (nonempty : ∀ r ∈ reads, r.1 ≠ []) :
    outcome (serve keypair envs s reads) = outcome (serve keypair envs s' [d]) ↔
      ∃ third rest, reads = third :: rest ∧
        ((∃ dec, Proves (envs 0) keypair s.peer.authenticity stamp payload dec) →
          s.input.length + third.1.length = (dataPacket stamp payload).length) := by
  obtain ⟨input, written, authenticity⟩ := same
  have hd : s'.input.length + d.1.length = (dataPacket stamp payload).length := by
    have hlength := h'.length
    rw [stream_cons, List.length_append] at hlength
    exact hlength
  by_cases proves : ∃ dec, Proves (envs 0) keypair s.peer.authenticity stamp payload dec
  · have hready : outcome (serve keypair envs s' [d]) = (some .ready, s.written) := by
      obtain ⟨dec, hdec⟩ := proves
      rw [← written]
      exact outcome_ready h' stamped fits (fun _ hr => absurd hr List.not_mem_nil) (authenticity ▸ hdec) hd
    rw [hready]
    cases reads with
    | nil =>
      rw [outcome_nil h.live, h.stage]
      exact iff_of_false (by simp) not_exists_cons
    | cons third rest =>
      rw [exists_cons_iff]
      by_cases whole : s.input.length + third.1.length = (dataPacket stamp payload).length
      · obtain ⟨dec, hdec⟩ := proves
        rw [outcome_ready h stamped fits (fun r hr => nonempty r (List.mem_cons_of_mem third hr)) hdec whole]
        exact iff_of_true rfl fun _ => whole
      · rw [outcome_unproved h stamped fits fun _ => whole]
        exact iff_of_false (by simp) fun hwhole => whole (hwhole proves)
  · have hdropped : outcome (serve keypair envs s' [d]) = (none, s.written) := by
      rw [← written]
      exact outcome_unproved h' stamped fits fun hp => absurd (authenticity ▸ hp) proves
    rw [hdropped]
    refine outcome_refused_iff h.live fun third rest hreads => ?_
    subst hreads
    exact ⟨outcome_unproved h stamped fits fun hp => absurd hp proves, fun hp => absurd hp proves⟩

/-! ### `PUBKEY_WAIT` -/

theorem serve_challenged (keypair : K) (h : Expects .pubkeyWait (handshakePacket vcmpTypeHsAck der ++ rest) s (r :: reads))
    (fits : der.length < 2 ^ 32) (challenges : Challenges (envs 0) der key enc)
    (whole : (s.input.length + r.1.length) % 2 ^ 32 = (handshakePacket vcmpTypeHsAck der).length) :
    ∃ t, serve keypair envs s (r :: reads) = serve keypair (fun i => envs (i + 1)) t reads ∧
      Expects .pubkeyCheck rest t reads ∧ t.written = s.written ++ [(challenge (envs 0) enc).bytes.take sizeofPointer] ∧
      t.peer.authenticity = (envs 0).randArray ∧
      t.input.length + (handshakePacket vcmpTypeHsAck der).length = s.input.length + r.1.length := by
  have hlength : (s.arrive r).input.length = s.input.length + r.1.length := List.length_append
  have accepted : Accepted ((envs 0).at r) (s.arrive r) key enc :=
    (accepted_iff h.arrived fits).mpr ⟨challenges, hlength ▸ whole⟩
  have hread : readCb ((envs 0).at r) keypair (s.arrive r) = (s.arrive r).challenged ((envs 0).at r) key enc :=
    readCb_accepted h.stage accepted
  have hdrain : toSize (toInt (s.arrive r).input.length) = (handshakePacket vcmpTypeHsAck der).length :=
    (toSize_toInt_eq_iff (Nat.lt_trans challenges.short (by decide))).mpr ⟨hlength ▸ whole, challenges.short⟩
  have hle : (handshakePacket vcmpTypeHsAck der).length ≤ (s.arrive r).input.length :=
    hlength ▸ whole ▸ Nat.mod_le _ _
  obtain ⟨u, hu, -⟩ := prefix_append h.arrived hle
  refine ⟨(s.arrive r).challenged ((envs 0).at r) key enc, by rw [serve_cons h.live, hread], ⟨rfl, h.live, ?_⟩, rfl, rfl, ?_⟩
  · have hstream : (s.arrive r).input ++ stream reads = handshakePacket vcmpTypeHsAck der ++ rest := by
      rw [← h.stream, stream_cons, ← List.append_assoc]
      rfl
    rw [hu, List.append_assoc, List.append_cancel_left_eq] at hstream
    simp only [Conn.challenged, hdrain]
    rw [hu, List.drop_left, hstream]
  · simp only [Conn.challenged, hdrain]
    rw [List.length_drop, ← hlength]
    omega

/-- An `HS_ACK` that is cut off, followed by more, or not to be answered drops the peer. -/
theorem outcome_unchallenged (h : Expects .pubkeyWait (handshakePacket vcmpTypeHsAck der ++ rest) s (r :: reads))
    (fits : der.length < 2 ^ 32) (fails : (∃ key enc, Challenges (envs 0) der key enc) →
      (s.input.length + r.1.length) % 2 ^ 32 ≠ (handshakePacket vcmpTypeHsAck der).length) :
    outcome (serve keypair envs s (r :: reads)) = (none, s.written) := by
  refine outcome_dropped h.live (readCb_wait_dropped h.stage fun key enc accepted => ?_)
  obtain ⟨challenges, whole⟩ := (accepted_iff h.arrived fits).mp accepted
  rw [show (s.arrive r).input.length = s.input.length + r.1.length from List.length_append] at whole
  exact fails ⟨key, enc, challenges⟩ whole

/-- The reads from `PUBKEY_WAIT` on, as many bytes after the last packet as `held`, end where the packets end as far
    as the packets are taken. -/
def AckAligned (keypair : K) (envs : Nat → Env K) (der stamp payload : List UInt8) (held : Nat) (reads : List Read) :
    Prop :=
  ∃ second rest, reads = second :: rest ∧
    ((∃ key enc, Challenges (envs 0) der key enc) →
      (held + second.1.length) % 2 ^ 32 = (handshakePacket vcmpTypeHsAck der).length ∧
      ∃ third rest', rest = third :: rest' ∧
        ((∃ dec, Proves (envs 1) keypair (envs 0).randArray stamp payload dec) →
          held + second.1.length + third.1.length =
            (handshakePacket vcmpTypeHsAck der).length + (dataPacket stamp payload).length))

theorem same_wait {s' : Conn K} {a d : Read}
    (h : Expects .pubkeyWait (handshakePacket vcmpTypeHsAck der ++ dataPacket stamp payload) s reads)
    (h' : Expects .pubkeyWait (handshakePacket vcmpTypeHsAck der ++ dataPacket stamp payload) s' [a, d])
    (ha : a.1 = handshakePacket vcmpTypeHsAck der) (input : s'.input = []) (written : s'.written = s.written)
    (fits : der.length < 2 ^ 32) (stamped : stamp.length = 24) (fits' : payload.length < 2 ^ 32)
    (nonempty : ∀ r ∈ reads, r.1 ≠ []) :
    outcome (serve keypair envs s reads) = outcome (serve keypair envs s' [a, d]) ↔
      AckAligned keypair envs der stamp payload s.input.length reads := by
  rw [AckAligned]
  by_cases challenges : ∃ key enc, Challenges (envs 0) der key enc
  · obtain ⟨key, enc, hchallenges⟩ := challenges
    have hwhole : s'.input.length + a.1.length = (handshakePacket vcmpTypeHsAck der).length := by
      rw [input, ha, List.length_nil, Nat.zero_add]
    have hmod := Nat.mod_eq_of_lt (Nat.lt_trans hchallenges.short (show 2 ^ 31 < 2 ^ 32 by decide))
    obtain ⟨t', hserve', expects', hwritten', authenticity', hinput'⟩ :=
      serve_challenged keypair h' fits hchallenges (hwhole ▸ hmod)
    rw [written] at hwritten'
    rw [hserve']
    cases reads with
    | nil =>
      rw [outcome_nil h.live]
      exact iff_of_false (outcome_ne hwritten') not_exists_cons
    | cons second rest =>
      rw [exists_cons_iff]
      have hrest := fun r hr => nonempty r (List.mem_cons_of_mem second hr)
      by_cases whole : (s.input.length + second.1.length) % 2 ^ 32 = (handshakePacket vcmpTypeHsAck der).length
      · obtain ⟨t, hserve, expects, hwritten, authenticity, hinput⟩ :=
          serve_challenged keypair h fits hchallenges whole
        have same : t'.input = [] ∧ t'.written = t.written ∧ t'.peer.authenticity = t.peer.authenticity :=
          ⟨List.eq_nil_of_length_eq_zero (by omega), by rw [hwritten', hwritten], by rw [authenticity', authenticity]⟩
        rw [hserve, same_check expects expects' same stamped fits' hrest, authenticity]
        constructor
        · rintro ⟨third, rest', rfl, hwhole⟩
          refine fun _ => ⟨whole, third, rest', rfl, fun proves => ?_⟩
          have hlast := hwhole proves
          omega
        · intro haligned
          obtain ⟨-, third, rest', rfl, hwhole⟩ := haligned ⟨key, enc, hchallenges⟩
          refine ⟨third, rest', rfl, fun proves => ?_⟩
          have hlast := hwhole proves
          omega
      · rw [outcome_unchallenged h fits fun _ => whole]
        exact iff_of_false (outcome_ne hwritten') fun haligned => whole (haligned ⟨key, enc, hchallenges⟩).1
  · have hdropped : outcome (serve keypair envs s' [a, d]) = (none, s.written) := by
      rw [← written]
      exact outcome_unchallenged h' fits fun hc => absurd hc challenges
    rw [hdropped]
    refine outcome_refused_iff h.live fun second rest hreads => ?_
    subst hreads
    exact ⟨outcome_unchallenged h fits fun hc => absurd hc challenges, fun hc => absurd hc challenges⟩

/-! ### `NONE` -/

theorem serve_answered (h : Expects .none (verifyPacket ++ rest) s (r :: reads)) (input : s.input = [])
    (answers : Answers (envs 0) keypair der) (header : sizeofHeader ≤ r.1.length) :
    ∃ t, serve keypair envs s (r :: reads) = serve keypair (fun i => envs (i + 1)) t reads ∧
      Expects .pubkeyWait rest t reads ∧
      t.written = s.written ++ [(hsInit der).bytes.take (sizeofHandshake + (hsInit der).keylen.toNat)] ∧
      t.input.length = r.1.length - sizeofHeader := by
  have harrive : (s.arrive r).input = r.1 := by rw [Conn.arrive, input, List.nil_append]
  have header' : sizeofHeader ≤ (s.arrive r).input.length := by rwa [harrive]
  have hread : readCb ((envs 0).at r) keypair (s.arrive r) = (s.arrive r).answered (hsInit der) :=
    readCb_verified h.stage header' ((verified_iff h.arrived header').mpr answers)
  obtain ⟨u, hu, -⟩ := prefix_append h.arrived header'
  refine ⟨(s.arrive r).answered (hsInit der), by rw [serve_cons h.live, hread], ⟨rfl, h.live, ?_⟩, rfl, ?_⟩
  · have hstream : (s.arrive r).input ++ stream reads = verifyPacket ++ rest := by
      rw [← h.stream, stream_cons, ← List.append_assoc]
      rfl
    rw [hu, List.append_assoc, List.append_cancel_left_eq] at hstream
    show (s.arrive r).input.drop sizeofHeader ++ stream reads = rest
    rw [hu, ← hstream]
    rfl
  · show ((s.arrive r).input.drop sizeofHeader).length = r.1.length - sizeofHeader
    rw [List.length_drop, harrive]

theorem outcome_unanswered (h : Expects .none (verifyPacket ++ rest) s (r :: reads)) (input : s.input = [])
    (fails : (∃ der, Answers (envs 0) keypair der) → ¬sizeofHeader ≤ r.1.length) :
    outcome (serve keypair envs s (r :: reads)) = (none, s.written) := by
  have harrive : (s.arrive r).input = r.1 := by rw [Conn.arrive, input, List.nil_append]
  refine outcome_dropped h.live (readCb_none_dropped h.stage fun header der verified => ?_)
  exact fails ⟨der, (verified_iff h.arrived header).mp verified⟩ (harrive ▸ header)

/-- The first read holds the whole `VERIFY`, the second ends where the `HS_ACK` ends and the third where the `DATA`
    ends, as far as the packets are taken. -/
def Aligned (keypair : K) (envs : Nat → Env K) (der stamp payload : List UInt8) (reads : List Read) : Prop :=
  (∃ own, Answers (envs 0) keypair own) → ∃ first rest, reads = first :: rest ∧ sizeofHeader ≤ first.1.length ∧
    AckAligned keypair (fun i => envs (i + 1)) der stamp payload (first.1.length - sizeofHeader) rest

/-- The three packets of a handshake, split into reads in any way, end like one packet a read exactly if the
    reads are aligned with the packets. -/
theorem split_iff {bufferevent peer : Bool} {start : Conn K} {packets : List Read}
    (accept : acceptConnCb bufferevent peer = some start) (stamped : stamp.length = 24) (fits : der.length < 2 ^ 32)
    (fits' : payload.length < 2 ^ 32) (nonempty : ∀ r ∈ reads, r.1 ≠ [])
    (one : packets.map Prod.fst = [verifyPacket, handshakePacket vcmpTypeHsAck der, dataPacket stamp payload])
    (split : stream reads = stream packets) :
    outcome (serve keypair envs start reads) = outcome (serve keypair envs start packets) ↔
      Aligned keypair envs der stamp payload reads := by
  obtain rfl := acceptConnCb_cases accept
  obtain ⟨v, packets, rfl, hv, hrest⟩ := List.map_eq_cons_iff.mp one
  obtain ⟨a, packets, rfl, ha, hrest⟩ := List.map_eq_cons_iff.mp hrest
  obtain ⟨d, rfl, hd⟩ := List.map_eq_singleton_iff.mp hrest
  have hpackets : stream [v, a, d] = verifyPacket ++ (handshakePacket vcmpTypeHsAck der ++ dataPacket stamp payload) := by
    rw [stream_cons, stream_cons, stream_cons, hv, ha, hd]
    exact congrArg (fun l => verifyPacket ++ (handshakePacket vcmpTypeHsAck der ++ l)) (List.append_nil _)
  generalize hs : (⟨⟨none, .none, Vector.replicate 12 0⟩, [], [], []⟩ : Conn K) = s
  have input : s.input = [] := hs ▸ rfl
  have expects' : Expects .none (verifyPacket ++ (handshakePacket vcmpTypeHsAck der ++ dataPacket stamp payload)) s
      [v, a, d] := by
    subst hs
    exact ⟨rfl, rfl, hpackets⟩
  have expects : Expects .none (verifyPacket ++ (handshakePacket vcmpTypeHsAck der ++ dataPacket stamp payload)) s
      reads := by
    subst hs
    exact ⟨rfl, rfl, split.trans hpackets⟩
  have hheader : sizeofHeader ≤ v.1.length := by rw [hv]; decide
  match reads with
  | [] =>
    rw [stream, List.map_nil, List.flatten_nil, hpackets] at split
    cases split
  | first :: rest =>
    rw [Aligned, exists_cons_iff]
    have hrest := fun r hr => nonempty r (List.mem_cons_of_mem first hr)
    by_cases answers : ∃ own, Answers (envs 0) keypair own
    · obtain ⟨own, hanswers⟩ := answers
      obtain ⟨t', hserve', waits', hwritten', hinput'⟩ := serve_answered expects' input hanswers hheader
      rw [hserve']
      by_cases header : sizeofHeader ≤ first.1.length
      · obtain ⟨t, hserve, waits, hwritten, hinput⟩ := serve_answered expects input hanswers header
        have empty : t'.input = [] := List.eq_nil_of_length_eq_zero (by rw [hinput', hv]; rfl)
        rw [hserve, same_wait waits waits' ha empty (hwritten'.trans hwritten.symm) fits stamped fits' hrest, hinput]
        constructor
        · exact fun haligned _ => ⟨header, haligned⟩
        · exact fun haligned => (haligned ⟨own, hanswers⟩).2
      · rw [outcome_unanswered expects input fun _ => header]
        exact iff_of_false (outcome_ne hwritten') fun haligned => header (haligned ⟨own, hanswers⟩).1
    · rw [outcome_unanswered expects input fun ha => absurd ha answers,
        outcome_unanswered expects' input fun ha => absurd ha answers]
      exact iff_of_true rfl fun ha => absurd ha answers

def packetReads : List Read :=
  [(verifyPacket, fun _ => 0), (handshakePacket vcmpTypeHsAck [9], fun _ => 0),
    (dataPacket (List.replicate 24 0) (7 :: sampleEnv.randArray.toList), fun _ => 0)]

/-- A read that ends within the `HS_ACK` and brings the whole `VERIFY`. -/
def alignedReads : List Read :=
  [((stream packetReads).take 9, fun _ => 0), (((stream packetReads).drop 9).take 10, fun _ => 1),
    ((stream packetReads).drop 19, fun _ => 2)]

theorem split_iff_sample : outcome (serve 7 (fun _ => sampleEnv) sampleStart alignedReads) =
      outcome (serve 7 (fun _ => sampleEnv) sampleStart packetReads) ↔
    Aligned 7 (fun _ => sampleEnv) [9] (List.replicate 24 0) (7 :: sampleEnv.randArray.toList) alignedReads :=
  split_iff (show acceptConnCb true true = some sampleStart from rfl) rfl (by decide) (by decide) (by decide) rfl
    (by decide +kernel)

/-- The same bytes with the `VERIFY` cut, and all in one read. -/
def cutReads : List Read := [((stream packetReads).take 3, fun _ => 0), ((stream packetReads).drop 3, fun _ => 0)]

def joinedReads : List Read := [(stream packetReads, fun _ => 0)]

/-- The peer of the cut `VERIFY` is dropped; the peer of the one read waits for a packet that has arrived. -/
theorem outcome_depends : stream cutReads = stream packetReads ∧ stream joinedReads = stream packetReads ∧
    (outcome (serve 7 (fun _ => sampleEnv) sampleStart packetReads)).1 = some .ready ∧
    (outcome (serve 7 (fun _ => sampleEnv) sampleStart cutReads)).1 = none ∧
    (outcome (serve 7 (fun _ => sampleEnv) sampleStart joinedReads)).1 = some .pubkeyWait := by
  decide +kernel

end Vcmp.Listener
