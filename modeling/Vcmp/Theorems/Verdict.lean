import Vcmp.Theorems.PeekedPackets
import Vcmp.Theorems.Splitting

/-! What the verdict of `PUBKEY_CHECK` depends on: the comparison covers twelve bytes of the block that `rsa_decrypt`
    returns, however many of them are plaintext. -/

namespace Vcmp.Listener
open ByteMem

variable {K : Type} {env : Env K} {keypair : K} {s : Conn K} {decrypt : List UInt8 → K → Option (List UInt8)} {plain : List UInt8}
  {stale : Mem}

/-- `rsa_decrypt` as a function that gives a plaintext, with whatever the block and the memory behind it hold after that. -/
def Env.decrypting (env : Env K) (decrypt : List UInt8 → K → Option (List UInt8)) (stale : Mem) : Env K :=
  { env with rsaDecrypt := fun payload key => (decrypt payload key).map fun plain => ⟨ofBytes plain stale, plain.length⟩ }

/-- `memcmp(peer->authenticity, dec, sizeof(peer->authenticity)) != 0` -/
def memcmpDec (authenticity : Vector UInt8 12) : Prog Bool := do
  return decide (authenticity.toList ≠ (← loadBytes 0 12))

/-- The verdict is that of the plaintext: it does not change with what lies behind it, and nothing of that is
    compared. -/
structure Verdict (decrypt : List UInt8 → K → Option (List UInt8)) (env : Env K) (keypair : K) (s : Conn K) : Prop where
  ready : ∀ stale, (readCb (env.decrypting decrypt stale) keypair s).peer.stage = .ready ↔ DataIn s.input env.past ∧
    ∃ plain, decrypt (dataPayload s.input env.past) keypair = some plain ∧ plain.length = 12 ∧
      plain = s.peer.authenticity.toList
  same : ∀ stale stale', readCb (env.decrypting decrypt stale) keypair s = readCb (env.decrypting decrypt stale') keypair s
  inside : DataIn s.input env.past → ∀ plain, decrypt (dataPayload s.input env.past) keypair = some plain →
    ∀ stale, Within plain.length ((memcmpDec s.peer.authenticity).run { mem := ofBytes plain stale }).2

theorem memcmpDec_within : Within plain.length ((memcmpDec s.peer.authenticity).run { mem := ofBytes plain stale }).2 ↔
    12 ≤ plain.length := by
  simp only [Within, memcmpDec, Prog.run_bind, run_loadBytes, Prog.run_pure, List.append_nil, List.mem_reverse,
    List.mem_range'_1]
  constructor
  · exact fun h => h 11 ⟨by decide, by decide⟩
  · exact fun h i hi => Nat.lt_of_lt_of_le hi.2 h

theorem memcmpDec_eq_false {m : Mem} {authenticity : Vector UInt8 12} :
    ((memcmpDec authenticity).run { mem := m }).1 = false ↔ slice m 0 12 = authenticity.toList := by
  simp only [memcmpDec, Prog.run_bind, run_loadBytes, Prog.run_pure, decide_eq_false_iff_not, not_not]
  exact eq_comm

theorem slice_plain (h : 12 ≤ plain.length) : slice (ofBytes plain stale) 0 12 = plain.take 12 := by
  rw [slice_ofBytes (by omega), List.drop_zero]

/-! ### The stage -/

/-- Behind its checks, the stage goes by what the payload decrypts to. -/
theorem readCb_check (env : Env K) (keypair : K) (stage : s.peer.stage = .pubkeyCheck) (data : DataIn s.input env.past) : readCb env keypair s =
    authenticate (env.rsaDecrypt (dataPayload s.input env.past) keypair) (s.drain (CInt.toSize (CInt.toInt s.input.length))) := by
  rw [readCb, if_neg (Nat.not_lt_of_le data.header), stage]
  simp only [readPubkeyCheck]
  rw [if_neg (Nat.not_le_of_lt data.long), if_neg (not_not_intro data.exact), if_neg (not_not_intro data.valid),
    if_neg (not_not_intro data.type)]
  rfl

/-- A packet that fails a check is refused whatever it would decrypt to. -/
theorem readCb_refused (stage : s.peer.stage = .pubkeyCheck) (h : ¬DataIn s.input env.past) (stale stale' : Mem) :
    (readCb (env.decrypting decrypt stale) keypair s).peer.stage ≠ .ready ∧
      readCb (env.decrypting decrypt stale) keypair s = readCb (env.decrypting decrypt stale') keypair s := by
  have hstage : s.peer.stage ≠ .ready := fun hready => by cases stage.symm.trans hready
  simp only [readCb, stage, readPubkeyCheck, Env.decrypting]
  by_cases header : s.input.length < sizeofHeader
  · rw [if_pos header, if_pos header]
    exact ⟨hstage, rfl⟩
  rw [if_neg header, if_neg header]
  by_cases long : CInt.toSize (CInt.toInt s.input.length) ≤ sizeofData
  · rw [if_pos long, if_pos long]
    exact ⟨hstage, rfl⟩
  rw [if_neg long, if_neg long]
  by_cases exact' : CInt.toSize (CInt.toInt s.input.length) ≠ sizeofData + (readLen (ofBytes s.input env.past)).toNat
  · rw [if_pos exact', if_pos exact']
    exact ⟨hstage, rfl⟩
  rw [if_neg exact', if_neg exact']
  by_cases valid : vcmpValidate (VcmpHeader.read (ofBytes s.input env.past)) ≠ 0
  · rw [if_pos valid, if_pos valid]
    exact ⟨hstage, rfl⟩
  rw [if_neg valid, if_neg valid]
  by_cases type : (VcmpHeader.read (ofBytes s.input env.past)).type ≠ vcmpTypeData
  · rw [if_pos type, if_pos type]
    exact ⟨hstage, rfl⟩
  · exact absurd ⟨Nat.le_of_not_lt header, Nat.lt_of_not_le long, not_not.mp exact', not_not.mp valid, not_not.mp type⟩ h

theorem stage_authenticate (stage : s.peer.stage = .pubkeyCheck) (dec : Block) :
    (authenticate (some dec) s).peer.stage = .ready ↔ ((memcmpDec s.peer.authenticity).run { mem := dec.mem }).1 = false := by
  rw [memcmpDec_eq_false]
  simp only [authenticate]
  by_cases hsame : s.peer.authenticity.toList = slice dec.mem 0 12
  · rw [if_neg (not_not_intro hsame)]
    exact iff_of_true rfl hsame.symm
  · rw [if_pos hsame]
    exact iff_of_false (fun h => Stage.noConfusion (stage.symm.trans h)) fun h => hsame h.symm

/-- `PUBKEY_CHECK` moves to `READY` where the twelve bytes at the front of the block are the challenge. -/
theorem stage_readCb (stage : s.peer.stage = .pubkeyCheck) (stale : Mem) :
    (readCb (env.decrypting decrypt stale) keypair s).peer.stage = .ready ↔ DataIn s.input env.past ∧
      ∃ plain, decrypt (dataPayload s.input env.past) keypair = some plain ∧
        slice (ofBytes plain stale) 0 12 = s.peer.authenticity.toList := by
  by_cases data : DataIn s.input env.past
  · have hread := readCb_check (env.decrypting decrypt stale) keypair stage data
    have hdecrypt : (env.decrypting decrypt stale).rsaDecrypt (dataPayload s.input env.past) keypair =
      (decrypt (dataPayload s.input env.past) keypair).map fun plain => ⟨ofBytes plain stale, plain.length⟩ := rfl
    rw [hread, and_iff_right data]
    cases hplain : decrypt (dataPayload s.input env.past) keypair with
    | none =>
      rw [hplain] at hdecrypt
      refine iff_of_false (fun h => ?_) (by rintro ⟨plain, ⟨⟩, -⟩)
      rw [show (env.decrypting decrypt stale).past = env.past from rfl, hdecrypt] at h
      exact Stage.noConfusion (stage.symm.trans h)
    | some plain =>
      rw [hplain] at hdecrypt
      rw [show (env.decrypting decrypt stale).past = env.past from rfl, hdecrypt, Option.map_some,
        stage_authenticate (s := s.drain _) stage, memcmpDec_eq_false]
      constructor
      · exact fun h => ⟨plain, rfl, h⟩
      · rintro ⟨plain', hsome, h⟩
        exact Option.some.inj hsome ▸ h
  · exact iff_of_false (readCb_refused stage data stale stale).1 fun h => data h.1

/-! ### The verdict -/

/-- The verdict is that of the plaintext exactly where this has twelve bytes, or more and the wrong ones in front. -/
theorem verdict_iff (stage : s.peer.stage = .pubkeyCheck) : Verdict decrypt env keypair s ↔ (DataIn s.input env.past →
    ∀ plain, decrypt (dataPayload s.input env.past) keypair = some plain →
      plain.length = 12 ∨ 12 < plain.length ∧ plain.take 12 ≠ s.peer.authenticity.toList) := by
  constructor
  · intro verdict data plain hplain
    have hle : 12 ≤ plain.length := memcmpDec_within.mp (verdict.inside data plain hplain fun _ => 0)
    rcases Nat.eq_or_lt_of_le hle with heq | hlt
    · exact Or.inl heq.symm
    · refine Or.inr ⟨hlt, fun hsame => ?_⟩
      have hready : (readCb (env.decrypting decrypt fun _ => 0) keypair s).peer.stage = .ready :=
        (stage_readCb stage _).mpr ⟨data, plain, hplain, (slice_plain hle).trans hsame⟩
      obtain ⟨-, plain', hplain', hlength, -⟩ := (verdict.ready _).mp hready
      obtain rfl := Option.some.inj (hplain.symm.trans hplain')
      omega
  · intro h
    have hle : DataIn s.input env.past → ∀ plain, decrypt (dataPayload s.input env.past) keypair = some plain →
        12 ≤ plain.length := by
      intro data plain hplain
      rcases h data plain hplain with heq | ⟨hlt, -⟩
      · exact heq.ge
      · exact Nat.le_of_lt hlt
    refine ⟨fun stale => ?_, fun stale stale' => ?_, fun data plain hplain stale => memcmpDec_within.mpr (hle data plain hplain)⟩
    · rw [stage_readCb stage]
      refine and_congr_right fun data => exists_congr fun plain => and_congr_right fun hplain => ?_
      rw [slice_plain (hle data plain hplain)]
      rcases h data plain hplain with heq | ⟨hlt, hne⟩
      · rw [List.take_of_length_le heq.le, and_iff_right heq]
      · exact iff_of_false hne fun hlength => absurd hlength.1 hlt.ne'
    · by_cases data : DataIn s.input env.past
      · have hread (stale : Mem) := readCb_check (env.decrypting decrypt stale) keypair stage data
        rw [hread stale, hread stale']
        simp only [Env.decrypting]
        cases hplain : decrypt (dataPayload s.input env.past) keypair with
        | none => rfl
        | some plain =>
          simp only [Option.map_some, authenticate, slice_plain (hle data plain hplain)]
      · exact (readCb_refused stage data stale stale').2

/-- A connection that waits for its challenge of twelve zeros, with an answer in its buffer. -/
def sampleCheck : Conn UInt8 where
  peer := ⟨some 9, .pubkeyCheck, Vector.replicate 12 0⟩
  input := dataPacket (List.replicate 24 0) [1]
  written := []
  freed := []

theorem verdict_iff_sample : Verdict (fun _ _ => some (List.replicate 12 0)) sampleEnv 7 sampleCheck := by
  refine (verdict_iff rfl).mpr fun _ plain hplain => Or.inl ?_
  obtain rfl := Option.some.inj hplain
  rfl

/-- An answer that decrypts to nothing is taken or refused by what the block held before. -/
theorem stale_verdict : ¬Verdict (fun _ _ => some []) sampleEnv 7 sampleCheck ∧
    (readCb (sampleEnv.decrypting (fun _ _ => some []) fun _ => 0) 7 sampleCheck).peer.stage = .ready ∧
    (readCb (sampleEnv.decrypting (fun _ _ => some []) fun _ => 1) 7 sampleCheck).peer.stage = .pubkeyCheck := by
  have hready : (readCb (sampleEnv.decrypting (fun _ _ => some []) fun _ => 0) 7 sampleCheck).peer.stage = .ready := by
    decide +kernel
  have hrefused : (readCb (sampleEnv.decrypting (fun _ _ => some []) fun _ => 1) 7 sampleCheck).peer.stage = .pubkeyCheck := by
    decide +kernel
  refine ⟨fun verdict => ?_, hready, hrefused⟩
  rw [verdict.same (fun _ => 0) fun _ => 1] at hready
  exact Stage.noConfusion (hrefused.symm.trans hready)

end Vcmp.Listener
