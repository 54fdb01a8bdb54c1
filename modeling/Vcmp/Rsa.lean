import Vcmp.Lib.Memory

/-! `src/rsa.c` over the part of OpenSSL's EVP interface that it calls. -/

namespace Vcmp
open ByteMem

/-! ### OpenSSL -/

/-- What a context was last initialised for. -/
inductive Operation where
  | encrypt
  | decrypt
  deriving DecidableEq

/-- What `EVP_PKEY_encrypt` or `EVP_PKEY_decrypt` leaves: the return value, the block behind `out`,
    `*outlen` and the context. -/
structure EvpResult (Ctx : Type) where
  ret : Int
  out : Mem
  outlen : Nat
  ctx : Ctx

/-- The calls of the library. `operation`, `key`, `publicHalf` and `keyPair` (the private half is there) are
    what its documentation speaks of; the code reads none of them. The seed of a context stands for the
    library's random state. -/
structure Evp where
  PKey : Type
  Ctx : Type
  operation : Ctx → Option Operation
  key : Ctx → PKey
  publicHalf : PKey → PKey
  keyPair : PKey → Prop
  ctxNew : PKey → Nat → Option Ctx
  encryptInit : Ctx → Int × Ctx
  decryptInit : Ctx → Int × Ctx
  encrypt : Ctx → Option Mem → Nat → List UInt8 → EvpResult Ctx
  decrypt : Ctx → Option Mem → Nat → List UInt8 → EvpResult Ctx
  i2dPubkey : PKey → Option (List UInt8)
  d2iPubkey : List UInt8 → Option PKey

/-- The documented behaviour of the library. -/
structure Evp.Documented (E : Evp) : Prop where
  ctxNew_key : ∀ {k seed c}, E.ctxNew k seed = some c → E.key c = k
  encryptInit_key : ∀ c, E.key (E.encryptInit c).2 = E.key c
  decryptInit_key : ∀ c, E.key (E.decryptInit c).2 = E.key c
  encrypt_key : ∀ c out n m, E.key (E.encrypt c out n m).ctx = E.key c
  decrypt_key : ∀ c out n m, E.key (E.decrypt c out n m).ctx = E.key c
  encryptInit_operation : ∀ c, 0 < (E.encryptInit c).1 → E.operation (E.encryptInit c).2 = some .encrypt
  decryptInit_operation : ∀ c, 0 < (E.decryptInit c).1 → E.operation (E.decryptInit c).2 = some .decrypt
  /-- Neither operation succeeds on a context that was initialised for something else. -/
  encrypt_operation : ∀ c out n m, 0 < (E.encrypt c out n m).ret → E.operation c = some .encrypt
  decrypt_operation : ∀ c out n m, 0 < (E.decrypt c out n m).ret → E.operation c = some .decrypt
  encrypt_ctx : ∀ c out n m, E.operation (E.encrypt c out n m).ctx = E.operation c
  decrypt_ctx : ∀ c out n m, E.operation (E.decrypt c out n m).ctx = E.operation c
  /-- Decryption inverts encryption: the size query gives room enough, and with that room the message
      comes back. -/
  decrypt_encrypt : ∀ {k c out n m}, E.keyPair k → E.key c = E.publicHalf k → 0 < (E.encrypt c (some out) n m).ret →
    ∀ d, E.key d = k → E.operation d = some .decrypt →
      let sent := slice (E.encrypt c (some out) n m).out 0 (E.encrypt c (some out) n m).outlen
      0 < (E.decrypt d none 0 sent).ret ∧ m.length ≤ (E.decrypt d none 0 sent).outlen ∧
        ∀ d' out', E.key d' = k → E.operation d' = some .decrypt →
          let got := E.decrypt d' (some out') (E.decrypt d none 0 sent).outlen sent
          0 < got.ret ∧ got.outlen = m.length ∧ slice got.out 0 m.length = m
  /-- Key export and import are inverse on the public half. -/
  d2i_i2d : ∀ {k der}, E.i2dPubkey k = some der → E.d2iPubkey der = some (E.publicHalf k)

/-! ### The wrappers -/

/-- A block that a function returns, and the length it reports. -/
structure Block where
  mem : Mem
  outlen : Nat

def Block.bytes (b : Block) : List UInt8 := slice b.mem 0 b.outlen

/-- What one call of a wrapper meets: the library's random state, and the block that `malloc` returns. -/
structure RsaEnv where
  seed : Nat
  malloc : Option Mem

section Wrappers
variable (E : Evp)

def rsaGetDerPubkey (pubkey : E.PKey) : Option (List UInt8) :=
  match E.i2dPubkey pubkey with
  | some key => if key.length ≤ 0 then none else some key
  | none => none

def rsaLoadDerPubkey (pubkey : List UInt8) : Option E.PKey := E.d2iPubkey pubkey

/-- The shape that `rsa_encrypt` and `rsa_decrypt` share: a context for the key, its initialisation, a query
    of the size with a `NULL` output, the allocation and the operation itself. -/
def rsaTransform (init : E.Ctx → Int × E.Ctx) (size operation : E.Ctx → Option Mem → Nat → List UInt8 → EvpResult E.Ctx)
    (env : RsaEnv) (buf : List UInt8) (key : E.PKey) : Option Block := do
  let ctx ← E.ctxNew key env.seed
  let (ret, ctx) := init ctx
  if ret ≤ 0 then none else
  let query := size ctx none 0 buf
  if query.ret ≤ 0 then none else
  let block ← env.malloc
  let r := operation query.ctx (some block) query.outlen buf
  if r.ret ≤ 0 then none else
  return ⟨r.out, r.outlen⟩

def rsaEncrypt (env : RsaEnv) (buf : List UInt8) (pubkey : E.PKey) : Option Block :=
  rsaTransform E E.encryptInit E.encrypt E.encrypt env buf pubkey

/-- The last call is `EVP_PKEY_encrypt`, as in the source. -/
def rsaDecrypt (env : RsaEnv) (buf : List UInt8) (privkey : E.PKey) : Option Block :=
  rsaTransform E E.decryptInit E.decrypt E.encrypt env buf privkey

/-- `rsa_decrypt` of `tests/test_rsa.c`, which decrypts. -/
def testRsaDecrypt (env : RsaEnv) (pkey : E.PKey) (buf : List UInt8) : Option Block :=
  rsaTransform E E.decryptInit E.decrypt E.decrypt env buf pkey

end Wrappers
end Vcmp
