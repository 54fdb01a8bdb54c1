import Vcmp.Extents
import Vcmp.Lib.Reach
import Vcmp.Theorems.Packets

/-! The read callbacks of the SOCKS5 client and the listener over the first extent: what they do where it is the whole
    buffer, and when they stay inside. -/

namespace Vcmp
open ByteMem CInt ByteOrder

/-! ### The SOCKS5 client -/

namespace Socks5
variable {σ : Type} {app : App σ} {env : Env} {s : Conn σ} {m : Mem} {n : Nat}

theorem gives_peekIdent : Gives (peekIdent app env s) (ofBytes s.input env.past) (readIdent app env s) := by
  refine (gives_load 0).bind ((gives_load 1).bind ?_)
  simp only [readIdent]
  exact (gives_pure _).ite (((gives_pure _).ite (gives_pure _)).ite (gives_pure _))

theorem gives_peekRequest : Gives (peekRequest app s) (ofBytes s.input env.past) (readRequest app env s) := by
  refine (gives_load 0).bind ?_
  have hsplit (t u : Conn σ) : (if ofBytes s.input env.past 0 ≠ socks5Version ∨ ofBytes s.input env.past 2 ≠ socks5Reserved
      then t else u) = if ofBytes s.input env.past 0 ≠ socks5Version then t
        else if ofBytes s.input env.past 2 ≠ socks5Reserved then t else u := ite_or _ _ _ _
  simp only [readRequest]
  rw [hsplit]
  exact (gives_pure _).ite ((gives_load 2).bind ((gives_pure _).ite ((gives_load 1).bind ((gives_pure _).ite (gives_pure _)))))

/-- On a buffer in one extent, the program is `read_cb`. -/
theorem gives_peekCb (app : App σ) (env : Env) (s : Conn σ) :
    Gives (peekCb app env s) (ofBytes s.input env.past) (readCb app env s) :=
  gives_peekIdent.ite (gives_peekRequest.ite ((gives_pure _).ite (gives_pure _)))

theorem local_peekCb : Local (peekCb app env s) := by
  refine Local.ite (fun _ => ?_) fun _ => Local.ite (fun _ => ?_) fun _ => Local.ite (fun _ => local_pure _) fun _ => local_pure _
  · refine (local_load 0).bind fun ver => (local_load 1).bind fun method => ?_
    refine Local.ite (fun _ => local_pure _) fun _ => Local.ite (fun _ => ?_) fun _ => local_pure _
    exact Local.ite (fun _ => local_pure _) fun _ => local_pure _
  · refine (local_load 0).bind fun ver => Local.ite (fun _ => local_pure _) fun _ => ?_
    refine (local_load 2).bind fun res => Local.ite (fun _ => local_pure _) fun _ => ?_
    exact (local_load 1).bind fun rep => Local.ite (fun _ => local_pure _) fun _ => local_pure _

theorem stays_peekIdent : Stays n (peekIdent app env s) m (2 ≤ n) := by
  refine ((reaches_load 0).stays ((reaches_load 1).stays ((stays_pure _).ite (((stays_pure _).ite (stays_pure _)).ite
    (stays_pure _))))).congr ?_
  simp
  omega

/-- A version that is not that of SOCKS5 is all that is looked at. -/
theorem stays_peekRequest : Stays n (peekRequest app s) m (1 ≤ n ∧ (m 0 = socks5Version → 3 ≤ n)) := by
  refine ((reaches_load 0).stays ((stays_pure _).ite ((reaches_load 2).stays ((stays_pure _).ite
    ((reaches_load 1).stays ((stays_pure _).ite (stays_pure _))))))).congr ?_
  grind

/-- Room in the first extent for what `read_cb` looks at. -/
structure Room (stage : UInt32) (first : List UInt8) : Prop where
  ident : stage = socks5StageIdent → 2 ≤ first.length
  request : stage = socks5StageRequest → 1 ≤ first.length ∧ (first.head? = some socks5Version → 3 ≤ first.length)

theorem head?_iff {first : List UInt8} {past : Mem} {b : UInt8} (h : 1 ≤ first.length) :
    first.head? = some b ↔ ofBytes first past 0 = b := by
  obtain ⟨c, first, rfl⟩ := List.exists_cons_of_length_pos h
  exact Option.some_inj

theorem respects_iff (app : App σ) (env : Env) (s : Conn σ) (b : Extents) (past : Mem) :
    Respects (callback app env s) b past ↔ Room s.ctx.stage b.first := by
  rw [callback, respects_iff_within fun _ => local_peekCb, peekCb]
  have hdistinct : socks5StageIdent ≠ socks5StageRequest := by decide
  by_cases hident : s.ctx.stage = socks5StageIdent
  · rw [if_pos hident, stays_peekIdent.within]
    exact ⟨fun h => ⟨fun _ => h, fun hrequest => absurd (hident.symm.trans hrequest) hdistinct⟩, fun room => room.ident hident⟩
  by_cases hrequest : s.ctx.stage = socks5StageRequest
  · have hroom : (1 ≤ b.first.length ∧ (ofBytes b.first past 0 = socks5Version → 3 ≤ b.first.length)) ↔
        1 ≤ b.first.length ∧ (b.first.head? = some socks5Version → 3 ≤ b.first.length) :=
      and_congr_right fun h => by rw [head?_iff h]
    rw [if_neg hident, if_pos hrequest, stays_peekRequest.within, hroom]
    exact ⟨fun h => ⟨fun h' => absurd h' hident, fun _ => h⟩, fun room => room.request hrequest⟩
  · rw [if_neg hident, if_neg hrequest]
    refine iff_of_true ?_ ⟨fun h => absurd h hident, fun h => absurd h hrequest⟩
    split <;> exact List.forall_mem_nil _

end Socks5

/-! ### The listener -/

namespace Listener
variable {K : Type} {env : Env K} {keypair : K} {s : Conn K} {m : Mem} {i n len size field : Nat} {type : UInt8} {l : List UInt8}

theorem local_differs (i : Nat) (l : List UInt8) : Local (differs i l) := by
  induction l generalizing i with
  | nil => exact local_pure false
  | cons b l ih => exact (local_load i).bind fun _ => Local.ite (fun _ => local_pure true) fun _ => ih (i + 1)

/-- Bytes that differ are found before the bound, or all that are compared lie before it. -/
theorem reaches_differs (i : Nat) (l : List UInt8) :
    Reaches n (differs i l) m (decide (slice m i l.length ≠ l)) (slice m i (n - i) <+: l → l.length ≤ n - i) := by
  induction l generalizing i with
  | nil => exact (reaches_pure false).congr (by simp)
  | cons b l ih =>
    have hvalue : decide (slice m i (b :: l).length ≠ b :: l) =
        if m i ≠ b then true else decide (slice m (i + 1) l.length ≠ l) := by
      by_cases hb : m i = b <;> simp [slice_succ, hb]
    rw [hvalue]
    refine ((reaches_load i).bind ((reaches_pure true).ite (ih (i + 1)))).congr ?_
    by_cases hi : i < n
    · have hsplit : slice m i (n - i) = m i :: slice m (i + 1) (n - (i + 1)) := by
        rw [← slice_succ, show n - (i + 1) + 1 = n - i by omega]
      rw [hsplit, List.cons_prefix_cons, and_imp, and_iff_right hi, and_iff_right fun _ => trivial, not_not, List.length_cons]
      exact imp_congr_right fun _ => imp_congr_right fun _ => by omega
    · rw [show n - i = 0 by omega]
      exact iff_of_false (fun h => hi h.1) fun h => absurd (h List.nil_prefix) (by simp)

theorem reaches_peekInvalid (m : Mem) (n : Nat) (type : UInt8) :
    Reaches n (peekInvalid type) m (decide (slice m 0 sizeofHeader ≠ packetHeader type))
      (slice m 0 n <+: packetHeader type → sizeofHeader ≤ n) :=
  reaches_differs 0 (packetHeader type)

/-- The bytes are compared as the header is checked. -/
theorem invalid_iff : (vcmpValidate (VcmpHeader.read m) ≠ 0 ∨ (VcmpHeader.read m).type ≠ type) ↔
    slice m 0 sizeofHeader ≠ packetHeader type := by
  have hread : slice m 0 sizeofHeader = (VcmpHeader.read m).bytes := rfl
  rw [← not_and_or, not_iff_not, vcmpValidate_eq_zero, hread]
  constructor
  · rintro ⟨hvalid, rfl⟩
    rw [hvalid]
    rfl
  · intro h
    obtain ⟨hmagic, hrest⟩ : (VcmpHeader.read m).magic = vcmpMagic ∧ _ := List.append_inj h rfl
    obtain ⟨hversion, htype⟩ := List.cons.inj hrest
    have htype : (VcmpHeader.read m).type = type := (List.cons.inj htype).1
    exact ⟨by rw [vcmpGenHeader, ← hmagic, ← hversion], htype⟩

/-! ### The callback on one extent -/

theorem gives_peekNone : Gives (peekNone env keypair s) (ofBytes s.input env.past) (readNone env keypair s) := by
  refine ((reaches_peekInvalid _ 0 _).gives).bind ?_
  simp only [readNone, invalid_iff, decide_eq_true_eq]
  exact (gives_pure _).ite (gives_pure _)

/-- What the checks of a packet hand on. -/
def packetIn (m : Mem) (len size field : Nat) (type : UInt8) : Option (List UInt8) :=
  let n := (UInt32.ofNat (ofLE (slice m field 4))).toNat
  if len ≠ size + n then none
  else if slice m 0 sizeofHeader ≠ packetHeader type then none
  else some (slice m size n)

theorem gives_peekPacket (m : Mem) (len size field : Nat) (type : UInt8) :
    Gives (peekPacket len size field type) m (packetIn m len size field type) := by
  refine (reaches_loadBytes (n := 0) field 4).gives.bind ((gives_pure _).ite ((reaches_peekInvalid _ 0 _).gives.bind ?_))
  simp only [decide_eq_true_eq]
  exact (gives_pure _).ite ((reaches_loadBytes (n := 0) _ _).gives.bind (gives_pure _))

/-- The checks of `PUBKEY_WAIT` and `PUBKEY_CHECK` in the order of the source. -/
theorem gives_checked (t : Conn K) (u : List UInt8 → Conn K) :
    Gives (peekPacket len size field type >>= fun
      | none => pure t
      | some payload => pure (u payload)) m
    (if len ≠ size + (UInt32.ofNat (ofLE (slice m field 4))).toNat then t
    else if vcmpValidate (VcmpHeader.read m) ≠ 0 then t
    else if (VcmpHeader.read m).type ≠ type then t
    else u (slice m size (UInt32.ofNat (ofLE (slice m field 4))).toNat)) := by
  refine (gives_peekPacket m len size field type).bind ?_
  simp only [packetIn, ← invalid_iff]
  by_cases hlen : len ≠ size + (UInt32.ofNat (ofLE (slice m field 4))).toNat
  · rw [if_pos hlen, if_pos hlen]
    exact gives_pure t
  by_cases hvalid : vcmpValidate (VcmpHeader.read m) ≠ 0
  · rw [if_neg hlen, if_neg hlen, if_pos hvalid, if_pos (Or.inl hvalid)]
    exact gives_pure t
  by_cases htype : (VcmpHeader.read m).type ≠ type
  · rw [if_neg hlen, if_neg hlen, if_neg hvalid, if_pos htype, if_pos (Or.inr htype)]
    exact gives_pure t
  · rw [if_neg hlen, if_neg hlen, if_neg hvalid, if_neg htype, if_neg (not_or.mpr ⟨hvalid, htype⟩)]
    exact gives_pure _

theorem gives_peekPubkeyWait : Gives (peekPubkeyWait env s) (ofBytes s.input env.past) (readPubkeyWait env s) :=
  (gives_pure s.reject).ite (gives_checked s.reject fun key =>
    acknowledge env (env.rsaLoadDerPubkey key) (s.drain (toSize (toInt s.input.length))))

theorem gives_peekPubkeyCheck : Gives (peekPubkeyCheck env keypair s) (ofBytes s.input env.past) (readPubkeyCheck env keypair s) :=
  (gives_pure s.reject).ite (gives_checked (s.rejectKey s.peer.pubkey) fun payload =>
    authenticate (env.rsaDecrypt payload keypair) (s.drain (toSize (toInt s.input.length))))

/-- On a buffer in one extent, the program is `read_cb`. -/
theorem gives_peekCb (env : Env K) (keypair : K) (s : Conn K) :
    Gives (peekCb env keypair s) (ofBytes s.input env.past) (readCb env keypair s) := by
  refine (gives_pure _).ite ?_
  cases s.peer.stage with
  | none => exact gives_peekNone
  | pubkeyWait => exact gives_peekPubkeyWait
  | pubkeyCheck => exact gives_peekPubkeyCheck
  | ready => exact gives_pure s

/-! ### The callback on the first extent -/

theorem local_peekPacket (len size field : Nat) (type : UInt8) : Local (peekPacket len size field type) := by
  refine (local_loadBytes field 4).bind fun n => Local.ite (fun _ => local_pure none) fun _ => ?_
  refine (local_differs 0 _).bind fun invalid => Local.ite (fun _ => local_pure none) fun _ => ?_
  exact (local_loadBytes size _).bind fun payload => local_pure (some payload)

theorem local_peekCb : Local (peekCb env keypair s) := by
  refine Local.ite (fun _ => local_pure _) fun _ => ?_
  cases s.peer.stage with
  | none => exact (local_differs 0 _).bind fun _ => Local.ite (fun _ => local_pure _) fun _ => local_pure _
  | pubkeyWait =>
    refine Local.ite (fun _ => local_pure _) fun _ => (local_peekPacket _ _ _ _).bind fun key => ?_
    cases key <;> exact local_pure _
  | pubkeyCheck =>
    refine Local.ite (fun _ => local_pure _) fun _ => (local_peekPacket _ _ _ _).bind fun payload => ?_
    cases payload <;> exact local_pure _
  | ready => exact local_pure s

theorem stays_peekPacket (hfield : field + 4 = size) (hsize : sizeofHeader ≤ size) (hlen : size < len) :
    Stays n (peekPacket len size field type) m (size ≤ n ∧ (len = size + (UInt32.ofNat (ofLE (slice m field 4))).toNat →
      slice m 0 sizeofHeader = packetHeader type → len ≤ n)) := by
  refine ((reaches_loadBytes field 4).stays ((stays_pure none).ite ((reaches_peekInvalid m n type).stays
    ((stays_pure none).ite ((reaches_loadBytes size _).stays (stays_pure _)))))).congr ?_
  rw [hfield, or_iff_right (Nat.succ_ne_zero 3)]
  refine and_congr_right fun hn => ?_
  simp only [decide_eq_true_eq, not_not, ne_eq, implies_true, true_and, and_true]
  refine imp_congr_right fun hexact => ?_
  rw [and_iff_right fun _ => hsize.trans hn]
  exact imp_congr_right fun _ => by omega

/-- Room in the first extent for a packet of `len` bytes, `size` of them in front of the payload that the number at
    `field` counts. -/
def PacketRoom (len size field : Nat) (type : UInt8) (first : List UInt8) : Prop :=
  len ≤ size ∨ size ≤ first.length ∧
    (len = size + ofLE ((first.drop field).take 4) → packetHeader type <+: first → len ≤ first.length)

/-- Room in the first extent for what `read_cb` looks at. -/
structure Room (stage : Stage) (input first : List UInt8) : Prop where
  verify : stage = .none → sizeofHeader ≤ input.length →
    sizeofHeader ≤ first.length ∨ ¬first <+: packetHeader vcmpTypeVerify
  ack : stage = .pubkeyWait → PacketRoom (toSize (toInt input.length)) sizeofHandshake 7 vcmpTypeHsAck first
  data : stage = .pubkeyCheck → PacketRoom (toSize (toInt input.length)) sizeofData 31 vcmpTypeData first

section Room
variable {first : List UInt8} {past : Mem}

theorem slice_first_iff (h : sizeofHeader ≤ first.length) :
    slice (ofBytes first past) 0 sizeofHeader = packetHeader type ↔ packetHeader type <+: first := by
  rw [slice_ofBytes (by rwa [Nat.zero_add]), List.drop_zero]
  constructor
  · exact fun htake => htake ▸ List.take_prefix _ _
  · exact fun hprefix => (List.prefix_iff_eq_take.mp hprefix).symm

theorem stays_packet {f : Option (List UInt8) → Prog (Conn K)} {t : Conn K} (hfield : field + 4 = size)
    (hsize : sizeofHeader ≤ size) (hf : ∀ o, Stays first.length (f o) (ofBytes first past) True) :
    Stays first.length (if len ≤ size then pure t else peekPacket len size field type >>= f) (ofBytes first past)
      (PacketRoom len size field type first) := by
  by_cases hlen : len ≤ size
  · rw [if_pos hlen]
    exact (stays_pure t).congr (iff_of_true trivial (Or.inl hlen))
  · rw [if_neg hlen]
    refine ((stays_peekPacket hfield hsize (Nat.lt_of_not_le hlen)).bind hf).congr ?_
    rw [PacketRoom, or_iff_right hlen]
    refine and_congr_right fun hn => ?_
    have hcount : (UInt32.ofNat (ofLE (slice (ofBytes first past) field 4))).toNat = ofLE ((first.drop field).take 4) := by
      have hlt := ofLE_lt ((first.drop field).take 4)
      rw [List.length_take, List.length_drop, Nat.min_eq_left (by omega)] at hlt
      rw [slice_ofBytes (by omega), UInt32.toNat_ofNat']
      omega
    rw [hcount, slice_first_iff (hsize.trans hn)]

theorem respects_iff (env : Env K) (keypair : K) (s : Conn K) (b : Extents) (past : Mem) :
    Respects (callback env keypair s) b past ↔ Room s.peer.stage b.bytes b.first := by
  rw [callback, respects_iff_within fun _ => local_peekCb, peekCb]
  have hpure : ∀ t : Conn K, Within b.first.length ((pure t : Prog (Conn K)).run { mem := ofBytes b.first past }).2 :=
    fun t => List.forall_mem_nil _
  have hle := b.first_isPrefix.length_le
  by_cases hheader : b.bytes.length < sizeofHeader
  · have hsize : toSize (toInt b.bytes.length) = b.bytes.length := toSize_toInt (Nat.lt_trans hheader (by decide))
    rw [if_pos hheader]
    refine iff_of_true (hpure _) ⟨fun _ h => absurd hheader (Nat.not_lt.mpr h), fun _ => Or.inl ?_, fun _ => Or.inl ?_⟩
    · rw [hsize]
      exact Nat.le_trans (Nat.le_of_lt hheader) (by decide)
    · rw [hsize]
      exact Nat.le_trans (Nat.le_of_lt hheader) (by decide)
  · rw [if_neg hheader]
    cases hstage : s.peer.stage with
    | none =>
      have hstays : Stays b.first.length (peekNone env keypair { s with input := b.bytes }) (ofBytes b.first past)
          (sizeofHeader ≤ b.first.length ∨ ¬b.first <+: packetHeader vcmpTypeVerify) := by
        refine ((reaches_peekInvalid _ _ _).stays ((stays_pure _).ite (stays_pure _))).congr ?_
        rw [slice_ofBytes_self]
        tauto
      refine hstays.within.trans ⟨fun h => ⟨fun _ _ => h, Stage.noConfusion, Stage.noConfusion⟩, fun room => ?_⟩
      exact room.verify rfl (Nat.not_lt.mp hheader)
    | pubkeyWait =>
      refine (stays_packet rfl (by decide) fun o => ?_).within.trans
        ⟨fun h => ⟨Stage.noConfusion, fun _ => h, Stage.noConfusion⟩, fun room => room.ack rfl⟩
      cases o <;> exact stays_pure _
    | pubkeyCheck =>
      refine (stays_packet rfl (by decide) fun o => ?_).within.trans
        ⟨fun h => ⟨Stage.noConfusion, Stage.noConfusion, fun _ => h⟩, fun room => room.data rfl⟩
      cases o <;> exact stays_pure _
    | ready => exact iff_of_true (hpure _) ⟨Stage.noConfusion, Stage.noConfusion, Stage.noConfusion⟩

end Room
end Listener
end Vcmp
