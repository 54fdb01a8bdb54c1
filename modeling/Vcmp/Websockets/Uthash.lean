import Vcmp.Lib.Links

/-! `websockets/uthash.h` as `handshake.c` compiles it: `HASH_JEN`, no Bloom filter, and a process that ends where no memory is
left.

An element and its handle go by one name, for `tbl->hho` never changes. Keys are shorter than 2^32 bytes, as `keylen` counts them. -/

namespace Vcmp.Uthash

/-! ### `HASH_JEN` -/

/-- `HASH_JEN_MIX` -/
def hashJenMix (a b c : UInt32) : UInt32 × UInt32 × UInt32 :=
  let a := a - b - c
  let a := a ^^^ (c >>> 13)
  let b := b - c - a
  let b := b ^^^ (a <<< 8)
  let c := c - a - b
  let c := c ^^^ (b >>> 13)
  let a := a - b - c
  let a := a ^^^ (c >>> 12)
  let b := b - c - a
  let b := b ^^^ (a <<< 16)
  let c := c - a - b
  let c := c ^^^ (b >>> 5)
  let a := a - b - c
  let a := a ^^^ (c >>> 3)
  let b := b - c - a
  let b := b ^^^ (a <<< 10)
  let c := c - a - b
  let c := c ^^^ (b >>> 15)
  (a, b, c)

/-- Four bytes of the key, the first the lowest. -/
def jenWord (k₀ k₁ k₂ k₃ : UInt8) : UInt32 :=
  k₀.toUInt32 + (k₁.toUInt32 <<< 8) + (k₂.toUInt32 <<< 16) + (k₃.toUInt32 <<< 24)

/-- The loop over whole blocks of twelve bytes, and the bytes that it leaves. -/
def hashJenBlocks (i j hashv : UInt32) : List UInt8 → (UInt32 × UInt32 × UInt32) × List UInt8
  | k₀ :: k₁ :: k₂ :: k₃ :: k₄ :: k₅ :: k₆ :: k₇ :: k₈ :: k₉ :: k₁₀ :: k₁₁ :: key =>
    let (i, j, hashv) := hashJenMix (i + jenWord k₀ k₁ k₂ k₃) (j + jenWord k₄ k₅ k₆ k₇) (hashv + jenWord k₈ k₉ k₁₀ k₁₁)
    hashJenBlocks i j hashv key
  | key => ((i, j, hashv), key)

def hashJen (key : List UInt8) : UInt32 :=
  let ((i, j, hashv), rest) := hashJenBlocks 0x9e3779b9 0x9e3779b9 0xfeedbeef key
  let hashv := hashv + UInt32.ofNat key.length
  -- the cases fall through: bytes that are not there add nothing
  let byteAt (n : Nat) : UInt32 := (rest.getD n 0).toUInt32
  let hashv := hashv + (byteAt 10 <<< 24) + (byteAt 9 <<< 16) + (byteAt 8 <<< 8)
  let j := j + (byteAt 7 <<< 24) + (byteAt 6 <<< 16) + (byteAt 5 <<< 8) + byteAt 4
  let i := i + (byteAt 3 <<< 24) + (byteAt 2 <<< 16) + (byteAt 1 <<< 8) + byteAt 0
  (hashJenMix i j hashv).2.2

/-! ### Handles, buckets and the table -/

/-- Why a call does not come to its end: the process exits, the head is `NULL` where it is read, a loop takes more turns than it was
given, or a freed element is touched. -/
inductive Halt where
  | exit
  | null
  | turns
  | freed
  deriving DecidableEq

/-- The hash handles of all elements: `prev` and `next`, `hh_prev` and `hh_next`, `key` with `keylen`, `hashv`. -/
structure Handles (P : Type) where
  app : Links P
  chain : Links P
  key : P → List UInt8
  hashv : P → UInt32

/-- `UT_hash_bucket` -/
structure Bucket (P : Type) where
  hhHead : Option P
  count : UInt32
  expandMult : UInt32

/-- What `uthash_bzero` leaves. -/
def Bucket.zero {P : Type} : Bucket P := ⟨none, 0, 0⟩

/-- `UT_hash_table` -/
structure Table (P : Type) where
  buckets : Nat → Bucket P
  numBuckets : UInt32
  log2NumBuckets : UInt32
  numItems : UInt32
  tail : P
  idealChainMaxlen : UInt32
  nonidealItems : UInt32
  ineffExpands : UInt32
  noexpand : Bool

/-- The handles, and the head of the hash with the table that its handle points to. -/
structure Hash (P : Type) where
  handles : Handles P
  head : Option (P × Table P)

/-- Whether `uthash_malloc` gives a block of that size during a call; no call asks for the same size twice. -/
abbrev Alloc := Nat → Bool

variable {P : Type} [DecidableEq P]

def initialNumBuckets : UInt32 := 32
def initialNumBucketsLog2 : UInt32 := 5
def bktCapacityThresh : UInt32 := 10

/-- `sizeof(UT_hash_table)` -/
def sizeofTable : Nat := 64

/-- `sizeof(UT_hash_bucket)` -/
def sizeofBucket : Nat := 16

/-- `HASH_TO_BKT` -/
def hashToBkt (hashv numBkts : UInt32) : Nat := (hashv &&& (numBkts - 1)).toNat

/-- `HASH_MAKE_TABLE` -/
def hashMakeTable (room : Alloc) (add : P) : Except Halt (Table P) :=
  if room sizeofTable = false then throw .exit
  else if room (initialNumBuckets.toNat * sizeofBucket) = false then throw .exit
  else
    return {
      buckets := fun _ => .zero
      numBuckets := initialNumBuckets
      log2NumBuckets := initialNumBucketsLog2
      numItems := 0
      tail := add
      idealChainMaxlen := 0
      nonidealItems := 0
      ineffExpands := 0
      noexpand := false }

/-- `HASH_APPEND_LIST` -/
def hashAppendList (app : Links P) (tbl : Table P) (add : P) : Links P × Table P :=
  let app := app.setNext add none
  let app := app.setPrev add (some tbl.tail)
  let app := app.setNext tbl.tail (some add)
  (app, { tbl with tail := add })

/-! ### `HASH_EXPAND_BUCKETS` -/

/-- What the loops over the old buckets write. -/
structure Rehash (P : Type) where
  chain : Links P
  newBuckets : Nat → Bucket P
  nonidealItems : UInt32

/-- One handle goes to the front of its new bucket. -/
def hashMove (hashv : P → UInt32) (numBuckets idealChainMaxlen : UInt32) (st : Rehash P) (thh : P) : Rehash P :=
  let bkt := hashToBkt (hashv thh) (numBuckets * 2)
  let newbkt := st.newBuckets bkt
  let count := newbkt.count + 1
  let nonidealItems := if idealChainMaxlen < count then st.nonidealItems + 1 else st.nonidealItems
  let expandMult :=
    if idealChainMaxlen < count ∧ newbkt.expandMult * idealChainMaxlen < count then newbkt.expandMult + 1 else newbkt.expandMult
  let chain := st.chain.setPrev thh none
  let chain := chain.setNext thh newbkt.hhHead
  let chain :=
    match newbkt.hhHead with
    | none => chain
    | some h => chain.setPrev h (some thh)
  { chain, nonidealItems, newBuckets := Function.update st.newBuckets bkt ⟨some thh, count, expandMult⟩ }

/-- The loop over one chain, for at most that many handles. -/
def hashMoveChain (hashv : P → UInt32) (numBuckets idealChainMaxlen : UInt32) :
    Nat → Option P → Rehash P → Except Halt (Rehash P)
  | _, none, st => return st
  | 0, some _, _ => throw .turns
  | n + 1, some thh, st =>
    hashMoveChain hashv numBuckets idealChainMaxlen n (st.chain.next thh) (hashMove hashv numBuckets idealChainMaxlen st thh)

/-- The loop over the `n` old buckets from the one of index `i` on. -/
def hashMoveBuckets (hashv : P → UInt32) (tbl : Table P) (idealChainMaxlen : UInt32) (i : Nat) :
    Nat → Rehash P → Except Halt (Rehash P)
  | 0, st => return st
  | n + 1, st => do
    let st ← hashMoveChain hashv tbl.numBuckets idealChainMaxlen tbl.numItems.toNat (tbl.buckets i).hhHead st
    hashMoveBuckets hashv tbl idealChainMaxlen (i + 1) n st

/-- The length of the chains if the elements spread evenly over twice the buckets. -/
def Table.idealChain (tbl : Table P) : UInt32 :=
  (tbl.numItems >>> (tbl.log2NumBuckets + 1)) + (if tbl.numItems &&& (tbl.numBuckets * 2 - 1) ≠ 0 then 1 else 0)

/-- The table with the new buckets in place. -/
def Table.expanded (tbl : Table P) (st : Rehash P) : Table P :=
  let ineffExpands := if tbl.numItems >>> 1 < st.nonidealItems then tbl.ineffExpands + 1 else 0
  { tbl with
    buckets := st.newBuckets
    numBuckets := tbl.numBuckets * 2
    log2NumBuckets := tbl.log2NumBuckets + 1
    idealChainMaxlen := tbl.idealChain
    nonidealItems := st.nonidealItems
    ineffExpands
    noexpand := if 1 < ineffExpands then true else tbl.noexpand }

def hashExpandBuckets (room : Alloc) (h : Handles P) (tbl : Table P) : Except Halt (Links P × Table P) :=
  if room (sizeofBucket * tbl.numBuckets.toNat * 2) = false then throw .exit
  else do
    let st ← hashMoveBuckets h.hashv tbl tbl.idealChain 0 tbl.numBuckets.toNat ⟨h.chain, fun _ => .zero, 0⟩
    return (st.chain, tbl.expanded st)

/-! ### `HASH_ADD_KEYPTR` -/

/-- `HASH_ADD_TO_BKT` -/
def hashAddToBkt (room : Alloc) (h : Handles P) (tbl : Table P) (bkt : Nat) (add : P) : Except Halt (Handles P × Table P) :=
  let head := tbl.buckets bkt
  let count := head.count + 1
  let chain := h.chain.setNext add head.hhHead
  let chain := chain.setPrev add none
  let chain :=
    match head.hhHead with
    | none => chain
    | some first => chain.setPrev first (some add)
  let h := { h with chain }
  let tbl := { tbl with buckets := Function.update tbl.buckets bkt ⟨some add, count, head.expandMult⟩ }
  if (head.expandMult + 1) * bktCapacityThresh ≤ count ∧ tbl.noexpand = false then do
    let (chain, tbl) ← hashExpandBuckets room h tbl
    return ({ h with chain }, tbl)
  else return (h, tbl)

/-- `HASH_ADD_TO_TABLE` -/
def hashAddToTable (room : Alloc) (h : Handles P) (tbl : Table P) (hashval : UInt32) (add : P) :
    Except Halt (Handles P × Table P) :=
  let tbl := { tbl with numItems := tbl.numItems + 1 }
  hashAddToBkt room h tbl (hashToBkt hashval tbl.numBuckets) add

/-- `HASH_ADD_KEYPTR` -/
def hashAddKeyptr (room : Alloc) (hash : Hash P) (keyptr : List UInt8) (add : P) : Except Halt (Hash P) :=
  let hashval := hashJen keyptr
  let h := { hash.handles with
    hashv := Function.update hash.handles.hashv add hashval
    key := Function.update hash.handles.key add keyptr }
  match hash.head with
  | none => do
    let h := { h with app := (h.app.setNext add none).setPrev add none }
    let tbl ← hashMakeTable room add
    let (h, tbl) ← hashAddToTable room h tbl hashval add
    return ⟨h, some (add, tbl)⟩
  | some (head, tbl) => do
    let (app, tbl) := hashAppendList h.app tbl add
    let (h, tbl) ← hashAddToTable room { h with app } tbl hashval add
    return ⟨h, some (head, tbl)⟩

/-! ### `HASH_FIND` -/

/-- `HASH_FIND_IN_BKT`, for at most that many handles. -/
def hashFindInBkt (h : Handles P) (keyptr : List UInt8) (hashval : UInt32) : Nat → Option P → Except Halt (Option P)
  | _, none => return none
  | 0, some _ => throw .turns
  | n + 1, some out =>
    if h.hashv out = hashval ∧ (h.key out).length = keyptr.length ∧ h.key out = keyptr then return some out
    else hashFindInBkt h keyptr hashval n (h.chain.next out)

def hashFind (hash : Hash P) (keyptr : List UInt8) : Except Halt (Option P) :=
  match hash.head with
  | none => return none
  | some (_, tbl) =>
    let hashval := hashJen keyptr
    hashFindInBkt hash.handles keyptr hashval tbl.numItems.toNat (tbl.buckets (hashToBkt hashval tbl.numBuckets)).hhHead

/-! ### `HASH_DEL` -/

/-- `HASH_DEL_IN_BKT` -/
def hashDelInBkt (chain : Links P) (head : Bucket P) (delhh : P) : Links P × Bucket P :=
  let hhHead := if head.hhHead = some delhh then chain.next delhh else head.hhHead
  let chain :=
    match chain.prev delhh with
    | none => chain
    | some p => chain.setNext p (chain.next delhh)
  let chain :=
    match chain.next delhh with
    | none => chain
    | some n => chain.setPrev n (chain.prev delhh)
  (chain, ⟨hhHead, head.count - 1, head.expandMult⟩)

/-- `HASH_DELETE`; the two blocks of the table are freed with its last element. -/
def hashDelete (hash : Hash P) (delptr : P) : Except Halt (Hash P) :=
  match hash.head with
  | none => throw .null
  | some (head, tbl) =>
    let h := hash.handles
    if h.app.prev delptr = none ∧ h.app.next delptr = none then return ⟨h, none⟩
    else
      -- the last element is not the only one here, so there is one in front of it
      let tail := if delptr = tbl.tail then (h.app.prev delptr).getD tbl.tail else tbl.tail
      let (app, head) :=
        match h.app.prev delptr with
        | none => (h.app, (h.app.next delptr).getD head)
        | some p => (h.app.setNext p (h.app.next delptr), head)
      let app :=
        match app.next delptr with
        | none => app
        | some n => app.setPrev n (app.prev delptr)
      let bkt := hashToBkt (h.hashv delptr) tbl.numBuckets
      let (chain, bucket) := hashDelInBkt h.chain (tbl.buckets bkt) delptr
      return ⟨{ h with app, chain }, some (head, { tbl with
        tail
        buckets := Function.update tbl.buckets bkt bucket
        numItems := tbl.numItems - 1 })⟩

/-! ### `HASH_FSCK` -/

/-- The loop over one chain of handles: the number of them, if each points back to the one before it. -/
def fsckChain (links : Links P) (count : UInt32) (prev : Option P) : Nat → Option P → Except Halt (Option UInt32)
  | _, none => return some count
  | 0, some _ => throw .turns
  | n + 1, some thh =>
    if prev ≠ links.prev thh then return none
    else fsckChain links (count + 1) (some thh) n (links.next thh)

/-- The loop over the `n` buckets from index `i` on: the number of handles in them, if each bucket counts its own. -/
def fsckBuckets (h : Handles P) (tbl : Table P) (i : Nat) (count : UInt32) : Nat → Except Halt (Option UInt32)
  | 0 => return some count
  | n + 1 => do
    match ← fsckChain h.chain 0 none tbl.numItems.toNat (tbl.buckets i).hhHead with
    | none => return none
    | some bktCount =>
      if (tbl.buckets i).count ≠ bktCount then return none
      else fsckBuckets h tbl (i + 1) (count + bktCount) n

/-- Whether the check that `HASH_DEBUG` compiles in comes to its end without `HASH_OOPS`. -/
def hashFsck (hash : Hash P) : Except Halt Bool :=
  match hash.head with
  | none => return true
  | some (head, tbl) => do
    match ← fsckBuckets hash.handles tbl 0 0 tbl.numBuckets.toNat with
    | none => return false
    | some count =>
      if count ≠ tbl.numItems then return false
      else
        match ← fsckChain hash.handles.app 0 none tbl.numItems.toNat (some head) with
        | none => return false
        | some count => return count = tbl.numItems

/-! ### Calls one after another -/

/-- The calls that change the hash. -/
inductive Call (P : Type) where
  | add (room : Alloc) (keyptr : List UInt8) (add : P)
  | del (delptr : P)

def hashCall (hash : Hash P) : Call P → Except Halt (Hash P)
  | .add room keyptr add => hashAddKeyptr room hash keyptr add
  | .del delptr => hashDelete hash delptr

def hashCalls (hash : Hash P) : List (Call P) → Except Halt (Hash P)
  | [] => return hash
  | call :: calls => do hashCalls (← hashCall hash call) calls

end Vcmp.Uthash
