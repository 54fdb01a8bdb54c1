import Vcmp.Rsa

/-! The wrappers of `rsa.c` over a library that behaves as documented: encryption works, and decryption asks
    a context that was initialised to decrypt to encrypt. -/

namespace Vcmp
open ByteMem

section Wrappers
variable {E : Evp} {env env' : RsaEnv} {m : List UInt8} {k : E.PKey} {c : Block}

/-! ### The shared shape -/

section Transform
variable {init : E.Ctx → Int × E.Ctx} {size operation : E.Ctx → Option Mem → Nat → List UInt8 → EvpResult E.Ctx}

/-- What a call that returns a block went through: every step succeeded, the last one on the context that
    the size query left. -/
theorem rsaTransform_eq_some : rsaTransform E init size operation env m k = some c ↔ ∃ ctx block,
    E.ctxNew k env.seed = some ctx ∧ 0 < (init ctx).1 ∧ env.malloc = some block ∧
      let query := size (init ctx).2 none 0 m
      let r := operation query.ctx (some block) query.outlen m
      0 < query.ret ∧ 0 < r.ret ∧ c = ⟨r.out, r.outlen⟩ := by
  simp only [rsaTransform, Option.bind_eq_bind, Option.bind_eq_some_iff, Option.ite_none_left_eq_some, not_le,
    Option.pure_def, Option.some.injEq]
  constructor
  · rintro ⟨ctx, hctx, hinit, hquery, block, hmalloc, hret, rfl⟩
    exact ⟨ctx, block, hctx, hinit, hmalloc, hquery, hret, rfl⟩
  · rintro ⟨ctx, block, hctx, hinit, hmalloc, hquery, hret, rfl⟩
    exact ⟨ctx, hctx, hinit, hquery, block, hmalloc, hret, rfl⟩

end Transform

/-! ### The shipped pair -/

/-- A context that was initialised to decrypt refuses to encrypt, so `rsa_decrypt` always fails. -/
theorem rsaDecrypt_eq_none (doc : E.Documented) : rsaDecrypt E env m k = none := by
  rw [Option.eq_none_iff_forall_ne_some]
  intro c h
  obtain ⟨ctx, block, -, hinit, -, -, hret, -⟩ := rsaTransform_eq_some.mp h
  have encrypts := doc.encrypt_operation _ _ _ _ hret
  rw [doc.decrypt_ctx, doc.decryptInit_operation ctx hinit] at encrypts
  cases encrypts

/-- `rsa_decrypt` gives back the message that `rsa_encrypt` encrypted. -/
def RoundTrips (E : Evp) (env : RsaEnv) (m : List UInt8) (c : Block) (k : E.PKey) : Prop :=
  ∃ d, rsaDecrypt E env c.bytes k = some d ∧ d.outlen = m.length ∧ d.bytes = m

theorem not_roundTrips (doc : E.Documented) (_h : rsaEncrypt E env m (E.publicHalf k) = some c) :
    ¬RoundTrips E env' m c k := by
  rintro ⟨d, hd, -, -⟩
  rw [rsaDecrypt_eq_none doc] at hd
  cases hd

/-! ### The copy in the tests -/

def Decrypts (E : Evp) (k : E.PKey) (sent m : List UInt8) : Prop :=
  ∀ d, E.key d = k → E.operation d = some .decrypt → 0 < (E.decrypt d none 0 sent).ret ∧
    ∀ d' out', E.key d' = k → E.operation d' = some .decrypt →
      let got := E.decrypt d' (some out') (E.decrypt d none 0 sent).outlen sent
      0 < got.ret ∧ got.outlen = m.length ∧ slice got.out 0 m.length = m

theorem decrypts_rsaEncrypt (doc : E.Documented) (pair : E.keyPair k) (h : rsaEncrypt E env m (E.publicHalf k) = some c) :
    Decrypts E k c.bytes m := by
  obtain ⟨ctx, block, hctx, -, -, -, hret, rfl⟩ := rsaTransform_eq_some.mp h
  have hkey : E.key (E.encrypt (E.encryptInit ctx).2 none 0 m).ctx = E.publicHalf k := by
    rw [doc.encrypt_key, doc.encryptInit_key, doc.ctxNew_key hctx]
  intro d dkey doperation
  obtain ⟨hquery, -, inverts⟩ := doc.decrypt_encrypt pair hkey hret d dkey doperation
  exact ⟨hquery, inverts⟩

/-- The copy of `rsa_decrypt` in the tests does decrypt. -/
theorem testRsaDecrypt_of_decrypts (doc : E.Documented) {sent : List UInt8} (h : Decrypts E k sent m) {ctx : E.Ctx}
    {block : Mem} (hctx : E.ctxNew k env.seed = some ctx) (hinit : 0 < (E.decryptInit ctx).1)
    (hmalloc : env.malloc = some block) :
    ∃ d, testRsaDecrypt E env k sent = some d ∧ d.outlen = m.length ∧ d.bytes = m := by
  have hkey : E.key (E.decryptInit ctx).2 = k := by rw [doc.decryptInit_key, doc.ctxNew_key hctx]
  have hoperation := doc.decryptInit_operation ctx hinit
  obtain ⟨hquery, inverts⟩ := h _ hkey hoperation
  obtain ⟨hret, hlen, hbytes⟩ := inverts (E.decrypt (E.decryptInit ctx).2 none 0 sent).ctx block
    (by rw [doc.decrypt_key, hkey]) (by rw [doc.decrypt_ctx, hoperation])
  refine ⟨_, rsaTransform_eq_some.mpr ⟨ctx, block, hctx, hinit, hmalloc, hquery, hret, rfl⟩, hlen, ?_⟩
  rw [Block.bytes, hlen]
  exact hbytes

end Wrappers

/-! ### A library

Keys are numbered, ciphertexts are blocks of 256 bytes: the number of the key, the length of the message
and the message. -/

structure SampleCtx where
  key : UInt8 × Bool
  operation : Option Operation

def sampleBlock (key : UInt8) (m : List UInt8) : List UInt8 :=
  key :: UInt8.ofNat m.length :: (m ++ List.replicate (254 - m.length) 0)

def sampleEncrypt (c : SampleCtx) (out : Option Mem) (_n : Nat) (m : List UInt8) : EvpResult SampleCtx :=
  if c.operation = some .encrypt ∧ m.length ≤ 245 then
    match out with
    | none => ⟨1, fun _ => 0, 256, c⟩
    | some past => ⟨1, ofBytes (sampleBlock c.key.1 m) past, 256, c⟩
  else ⟨-1, fun _ => 0, 0, c⟩

def sampleDecrypt (c : SampleCtx) (out : Option Mem) (n : Nat) (m : List UInt8) : EvpResult SampleCtx :=
  if c.operation = some .decrypt ∧ c.key.2 = true ∧ m.length = 256 ∧ m.head? = some c.key.1 then
    match out with
    | none => ⟨1, fun _ => 0, 256, c⟩
    | some past =>
      if (m.getD 1 0).toNat ≤ n then ⟨1, ofBytes ((m.drop 2).take (m.getD 1 0).toNat) past, (m.getD 1 0).toNat, c⟩
      else ⟨-1, fun _ => 0, 0, c⟩
  else ⟨-1, fun _ => 0, 0, c⟩

/-- A key is its number and whether the private half is there. -/
def sampleEvp : Evp where
  PKey := UInt8 × Bool
  Ctx := SampleCtx
  operation := SampleCtx.operation
  key := SampleCtx.key
  publicHalf k := (k.1, false)
  keyPair k := k.2 = true
  ctxNew k _ := some ⟨k, none⟩
  encryptInit c := (1, { c with operation := some .encrypt })
  decryptInit c := (1, { c with operation := some .decrypt })
  encrypt := sampleEncrypt
  decrypt := sampleDecrypt
  i2dPubkey k := some [k.1]
  d2iPubkey der := der.head?.map fun n => (n, false)

theorem length_sampleBlock {key : UInt8} {m : List UInt8} (h : m.length ≤ 245) : (sampleBlock key m).length = 256 := by
  simp only [sampleBlock, List.length_cons, List.length_append, List.length_replicate]
  omega

theorem sampleEncrypt_ctx (c : SampleCtx) (out : Option Mem) (n : Nat) (m : List UInt8) :
    (sampleEncrypt c out n m).ctx = c := by
  unfold sampleEncrypt
  split
  · cases out <;> rfl
  · rfl

theorem sampleDecrypt_ctx (c : SampleCtx) (out : Option Mem) (n : Nat) (m : List UInt8) :
    (sampleDecrypt c out n m).ctx = c := by
  unfold sampleDecrypt
  split
  · cases out with
    | none => rfl
    | some past =>
      dsimp only
      split <;> rfl
  · rfl

theorem sampleEncrypt_ret {c : SampleCtx} {out : Option Mem} {n : Nat} {m : List UInt8}
    (h : 0 < (sampleEncrypt c out n m).ret) : c.operation = some .encrypt ∧ m.length ≤ 245 := by
  unfold sampleEncrypt at h
  by_contra hc
  rw [if_neg hc] at h
  exact absurd h (show ¬(0 : Int) < -1 by decide)

theorem sampleDecrypt_ret {c : SampleCtx} {out : Option Mem} {n : Nat} {m : List UInt8}
    (h : 0 < (sampleDecrypt c out n m).ret) : c.operation = some .decrypt := by
  unfold sampleDecrypt at h
  by_contra hc
  rw [if_neg fun hand => hc hand.1] at h
  exact absurd h (show ¬(0 : Int) < -1 by decide)

theorem sampleEncrypt_block {c : SampleCtx} {past : Mem} {n : Nat} {m : List UInt8}
    (operation : c.operation = some .encrypt) (short : m.length ≤ 245) :
    sampleEncrypt c (some past) n m = ⟨1, ofBytes (sampleBlock c.key.1 m) past, 256, c⟩ := by
  unfold sampleEncrypt
  rw [if_pos ⟨operation, short⟩]

theorem sampleDecrypt_block {d : SampleCtx} {m : List UInt8} (h : m.length ≤ 245)
    (operation : d.operation = some .decrypt) (priv : d.key.2 = true) :
    sampleDecrypt d none 0 (sampleBlock d.key.1 m) = ⟨1, fun _ => 0, 256, d⟩ ∧
      ∀ past, sampleDecrypt d (some past) 256 (sampleBlock d.key.1 m) = ⟨1, ofBytes m past, m.length, d⟩ := by
  have count : ((sampleBlock d.key.1 m).getD 1 0).toNat = m.length := by
    rw [sampleBlock, List.getD_cons_succ, List.getD_cons_zero, UInt8.toNat_ofNat']
    omega
  have message : ((sampleBlock d.key.1 m).drop 2).take m.length = m := by
    rw [sampleBlock, List.drop_succ_cons, List.drop_succ_cons, List.drop_zero, List.take_left]
  have accepts : d.operation = some .decrypt ∧ d.key.2 = true ∧ (sampleBlock d.key.1 m).length = 256 ∧
      (sampleBlock d.key.1 m).head? = some d.key.1 := ⟨operation, priv, length_sampleBlock h, rfl⟩
  refine ⟨?_, fun past => ?_⟩
  · rw [sampleDecrypt, if_pos accepts]
  · rw [sampleDecrypt, if_pos accepts]
    rw [count, if_pos (by omega), message]

theorem sampleEvp_documented : sampleEvp.Documented where
  ctxNew_key h := by
    cases h
    rfl
  encryptInit_key _ := rfl
  decryptInit_key _ := rfl
  encrypt_key c out n m := congrArg SampleCtx.key (sampleEncrypt_ctx c out n m)
  decrypt_key c out n m := congrArg SampleCtx.key (sampleDecrypt_ctx c out n m)
  encryptInit_operation _ _ := rfl
  decryptInit_operation _ _ := rfl
  encrypt_operation _ _ n _ h := (sampleEncrypt_ret (n := n) h).1
  decrypt_operation _ _ n _ h := sampleDecrypt_ret (n := n) h
  encrypt_ctx c out n m := congrArg SampleCtx.operation (sampleEncrypt_ctx c out n m)
  decrypt_ctx c out n m := congrArg SampleCtx.operation (sampleDecrypt_ctx c out n m)
  decrypt_encrypt {k c out n m} pair hkey hret d dkey doperation := by
    obtain ⟨operation, short⟩ := sampleEncrypt_ret hret
    have half : c.key = (k.1, false) := hkey
    have number : c.key.1 = k.1 := by rw [half]
    intro sent
    have hsent : sent = sampleBlock k.1 m := by
      show slice (sampleEncrypt c (some out) n m).out 0 (sampleEncrypt c (some out) n m).outlen = _
      rw [sampleEncrypt_block operation short, number, ← length_sampleBlock short, slice_ofBytes_self]
    subst dkey
    obtain ⟨query, -⟩ := sampleDecrypt_block short doperation pair
    have hquery : sampleEvp.decrypt d none 0 sent = ⟨1, fun _ => 0, 256, d⟩ := hsent ▸ query
    rw [hquery, hsent]
    refine ⟨Int.one_pos, Nat.le_trans short (show 245 ≤ 256 by decide), fun d' out' dkey' doperation' => ?_⟩
    have pair' : d'.key.2 = true := (congrArg Prod.snd dkey').trans pair
    obtain ⟨-, got⟩ := sampleDecrypt_block short doperation' pair'
    have hgot : sampleEvp.decrypt d' (some out') 256 (sampleBlock (sampleEvp.key d).1 m) =
        ⟨1, ofBytes m out', m.length, d'⟩ := dkey' ▸ got out'
    rw [hgot]
    exact ⟨Int.one_pos, rfl, slice_ofBytes_self⟩
  d2i_i2d h := by
    cases h
    rfl

/-! ### The test's message -/

def sampleMessage : List UInt8 := [114, 115, 97, 32, 116, 101, 115, 116, 32, 49, 50, 51]

def sampleRsaEnv : RsaEnv := ⟨0, some fun _ => 0⟩

def sampleCiphertext : Block := ⟨ofBytes (sampleBlock 7 sampleMessage) fun _ => 0, 256⟩

theorem sample_rsaEncrypt :
    rsaEncrypt sampleEvp sampleRsaEnv sampleMessage (sampleEvp.publicHalf (7, true)) = some sampleCiphertext := rfl

theorem not_roundTrips_sample : ¬RoundTrips sampleEvp sampleRsaEnv sampleMessage sampleCiphertext (7, true) :=
  not_roundTrips sampleEvp_documented sample_rsaEncrypt

theorem rsaDecrypt_refuses : ¬∀ (E : Evp) (env env' : RsaEnv) (m : List UInt8) (c : Block) (k : E.PKey), E.Documented →
    E.keyPair k → rsaEncrypt E env m (E.publicHalf k) = some c → RoundTrips E env' m c k := by
  intro h
  obtain ⟨d, hd, -, -⟩ := h sampleEvp sampleRsaEnv sampleRsaEnv sampleMessage sampleCiphertext (7, true)
    sampleEvp_documented rfl sample_rsaEncrypt
  have refused : (rsaDecrypt sampleEvp sampleRsaEnv sampleCiphertext.bytes (7, true)).isNone = true := by decide +kernel
  rw [hd] at refused
  cases refused

end Vcmp
