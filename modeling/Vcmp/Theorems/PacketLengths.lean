import Vcmp.Theorems.PeekedPackets
import Vcmp.Theorems.Splitting

/-! The length checks of `PUBKEY_WAIT` and `PUBKEY_CHECK` in the widths of the host: the length of the buffer is
    narrowed to an `int` and then compared with a `size_t`. -/

namespace Vcmp.Listener
open ByteMem CInt ByteOrder

variable {K : Type} {env : Env K} {keypair : K} {s : Conn K} {past : Mem} {size declared n : Nat}

/-- What a stage waits for: the size of the struct at the front of its packet, and the number of bytes behind that
    the struct declares. -/
def awaited (past : Mem) (s : Conn K) : Option (Nat × Nat) :=
  match s.peer.stage with
  | .none => none
  | .pubkeyWait => some (sizeofHandshake, (readKeylen (ofBytes s.input past)).toNat)
  | .pubkeyCheck => some (sizeofData, (readLen (ofBytes s.input past)).toNat)
  | .ready => none

/-- Neither of the two length checks rejects a buffer of `n` bytes. -/
def Passes (size declared n : Nat) : Prop := ¬toSize (toInt n) ≤ size ∧ ¬toSize (toInt n) ≠ size + declared

/-- The length of the buffer is that of the packet only in its lower 32 bits. -/
def Wraps (size declared n : Nat) : Prop :=
  2 ^ 32 ≤ n ∧ 1 ≤ declared ∧ size + declared < 2 ^ 31 ∧ n % 2 ^ 32 = size + declared

/-- A packet that gets past the length checks is the whole buffer, has a byte behind its struct, is looked at inside the
    buffer only, and leaves nothing when it is drained. -/
structure Exact (env : Env K) (keypair : K) (s : Conn K) (size declared : Nat) : Prop where
  length : s.input.length = size + declared
  pos : 1 ≤ declared
  inside : Within s.input.length ((peekCb env keypair s).run { mem := ofBytes s.input env.past }).2
  drained : (s.drain (toSize (toInt s.input.length))).input = []

def LengthsExact (env : Env K) (keypair : K) (s : Conn K) : Prop :=
  ∀ size declared, awaited env.past s = some (size, declared) → Passes size declared s.input.length →
    Exact env keypair s size declared

theorem passes_iff (hsize : size < 2 ^ 31) (hdeclared : declared < 2 ^ 32) :
    Passes size declared n ↔ 1 ≤ declared ∧ size + declared < 2 ^ 31 ∧ n % 2 ^ 32 = size + declared := by
  rw [Passes, Nat.not_le, not_not]
  constructor
  · rintro ⟨long, exact'⟩
    obtain ⟨hmod, hshort⟩ := (toSize_toInt_eq_iff (by omega)).mp exact'
    exact ⟨by omega, hshort, hmod⟩
  · rintro ⟨hpos, hshort, hmod⟩
    have exact' := (toSize_toInt_eq_iff (by omega)).mpr ⟨hmod, hshort⟩
    exact ⟨by omega, exact'⟩

theorem awaited_lt (h : awaited past s = some (size, declared)) : size < 2 ^ 31 ∧ declared < 2 ^ 32 := by
  unfold awaited at h
  cases hstage : s.peer.stage <;> simp only [hstage, Option.some.injEq, Prod.mk.injEq, reduceCtorEq] at h
  · obtain ⟨rfl, rfl⟩ := h
    exact ⟨by decide, UInt32.toNat_lt _⟩
  · obtain ⟨rfl, rfl⟩ := h
    exact ⟨by decide, UInt32.toNat_lt _⟩

/-- A buffer that the length checks refuse drops its peer. -/
theorem dropped_of_not_passes (h : awaited env.past s = some (size, declared)) (no : ¬Passes size declared s.input.length) :
    Dropped s (readCb env keypair s) := by
  unfold awaited at h
  cases hstage : s.peer.stage <;> simp only [hstage, Option.some.injEq, Prod.mk.injEq, reduceCtorEq] at h
  · obtain ⟨rfl, rfl⟩ := h
    refine readCb_wait_dropped hstage fun key enc accepted => no ⟨?_, not_not_intro accepted.ack.exact⟩
    exact Nat.not_le.mpr accepted.ack.long
  · obtain ⟨rfl, rfl⟩ := h
    refine readCb_check_dropped hstage fun dec proved => no ⟨?_, not_not_intro proved.data.exact⟩
    exact Nat.not_le.mpr proved.data.long

/-- What is looked at of a packet that passes the checks lies in the buffer. -/
theorem inside_of_passes (h : awaited env.past s = some (size, declared)) (passes : Passes size declared s.input.length) :
    Within s.input.length ((peekCb env keypair s).run { mem := ofBytes s.input env.past }).2 := by
  obtain ⟨hsize, hdeclared⟩ := awaited_lt h
  obtain ⟨hpos, hshort, hmod⟩ := (passes_iff hsize hdeclared).mp passes
  have hlen : toSize (toInt s.input.length) = size + declared := not_not.mp passes.2
  have hle : size + declared ≤ s.input.length := hmod ▸ Nat.mod_le _ _
  have room (field : Nat) (type : UInt8) : PacketRoom (toSize (toInt s.input.length)) size field type s.input :=
    Or.inr ⟨Nat.le_of_add_right_le hle, fun _ _ => hlen ▸ hle⟩
  unfold awaited at h
  cases hstage : s.peer.stage <;> simp only [hstage, Option.some.injEq, Prod.mk.injEq, reduceCtorEq] at h
  · obtain ⟨rfl, rfl⟩ := h
    have hheader : ¬s.input.length < sizeofHeader := by
      simp only [sizeofHeader, sizeofHandshake] at hle ⊢
      omega
    simp only [peekCb, if_neg hheader, hstage]
    refine (stays_packet rfl (by decide) fun o => ?_).within.mpr (room 7 vcmpTypeHsAck)
    cases o <;> exact stays_pure _
  · obtain ⟨rfl, rfl⟩ := h
    have hheader : ¬s.input.length < sizeofHeader := by
      simp only [sizeofHeader, sizeofData] at hle ⊢
      omega
    simp only [peekCb, if_neg hheader, hstage]
    refine (stays_packet rfl (by decide) fun o => ?_).within.mpr (room 31 vcmpTypeData)
    cases o <;> exact stays_pure _

/-- The length checks are exact in the buffers whose length does not wrap round to that of a packet. -/
theorem lengthsExact_iff (env : Env K) (keypair : K) (s : Conn K) :
    LengthsExact env keypair s ↔ ∀ size declared, awaited env.past s = some (size, declared) →
      ¬Wraps size declared s.input.length := by
  refine forall_congr' fun size => forall_congr' fun declared => forall_congr' fun h => ?_
  obtain ⟨hsize, hdeclared⟩ := awaited_lt h
  constructor
  · rintro exact' ⟨hlong, hpos, hshort, hmod⟩
    have hlength := (exact' ((passes_iff hsize hdeclared).mpr ⟨hpos, hshort, hmod⟩)).length
    omega
  · intro no passes
    obtain ⟨hpos, hshort, hmod⟩ := (passes_iff hsize hdeclared).mp passes
    have hlt : s.input.length < 2 ^ 32 := Nat.not_le.mp fun hlong => no ⟨hlong, hpos, hshort, hmod⟩
    rw [Nat.mod_eq_of_lt hlt] at hmod
    refine ⟨hmod, hpos, inside_of_passes h passes, ?_⟩
    have hdrain : toSize (toInt s.input.length) = s.input.length := (not_not.mp passes.2).trans hmod.symm
    rw [Conn.drain, hdrain, List.drop_length]

/-- A connection that waits for a key, with 4 GiB behind the handshake of a peer. -/
def sampleFlood : Conn UInt8 := { sampleWait with input := handshakePacket vcmpTypeHsAck [9] ++ List.replicate (2 ^ 32) 0 }

/-- The handshake is taken although the buffer holds more, and what lies behind it stays in the buffer. -/
theorem flood_not_exact : Passes sizeofHandshake 1 sampleFlood.input.length ∧ ¬LengthsExact sampleEnv 7 sampleFlood := by
  have hlength : sampleFlood.input.length = 12 + 2 ^ 32 := by
    rw [sampleFlood, List.length_append, List.length_replicate]
    rfl
  have hpasses : Passes sizeofHandshake 1 sampleFlood.input.length :=
    (passes_iff (by decide) (by decide)).mpr ⟨by decide, by decide, by rw [hlength]; rfl⟩
  have hawaited : awaited sampleEnv.past sampleFlood = some (sizeofHandshake, 1) := rfl
  refine ⟨hpasses, fun h => ?_⟩
  have hexact := (h sizeofHandshake 1 hawaited hpasses).length
  rw [hlength] at hexact
  exact absurd hexact (by decide)

end Vcmp.Listener
