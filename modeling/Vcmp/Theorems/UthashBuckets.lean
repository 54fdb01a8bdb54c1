import Mathlib.Algebra.Group.Nat.Defs
import Mathlib.Data.List.Find
import Mathlib.Data.List.Perm.Basic
import Vcmp.Websockets.Uthash

/-! The buckets of `uthash.h` hold an order of elements, each bucket its own: adding an element and doubling the buckets. -/

namespace Vcmp.Uthash
open Links

variable {P : Type}

/-! ### Buckets -/

/-- The index of a hash value among `2 ^ k` buckets. -/
def bucketOf (hashv : UInt32) (k : Nat) : Nat := hashv.toNat % 2 ^ k

theorem hashToBkt_eq {n : UInt32} {k : Nat} (h : n.toNat = 2 ^ k) (hashv : UInt32) : hashToBkt hashv n = bucketOf hashv k := by
  have hone : 1 ≤ n := UInt32.le_iff_toNat_le.mpr (h ▸ Nat.one_le_two_pow)
  rw [hashToBkt, UInt32.toNat_and, UInt32.toNat_sub_of_le n 1 hone, h]
  exact Nat.and_two_pow_sub_one_eq_mod _ _

/-- What lies in bucket `b` of `2 ^ k`. -/
def inBucket (hashv : P → UInt32) (k b : Nat) (order : List P) : List P := order.filter fun x => bucketOf (hashv x) k = b

section Buckets
variable {hashv : P → UInt32} {k b c : Nat} {order : List P} {x : P}

theorem mem_inBucket : x ∈ inBucket hashv k b order ↔ x ∈ order ∧ bucketOf (hashv x) k = b := by
  simp [inBucket]

theorem inBucket_cons_self :
    inBucket hashv k (bucketOf (hashv x) k) (x :: order) = x :: inBucket hashv k (bucketOf (hashv x) k) order :=
  List.filter_cons_of_pos (by simp)

theorem inBucket_cons_of_ne (h : b ≠ bucketOf (hashv x) k) : inBucket hashv k b (x :: order) = inBucket hashv k b order :=
  List.filter_cons_of_neg (by simpa using h.symm)

/-- Buckets walked over one after another: what holds of the elements of one bucket only is found there. -/
theorem filter_flatMap_inBucket {p : P → Bool} (h : ∀ x ∈ order, p x = true → bucketOf (hashv x) k = c) (i : Nat) :
    ((List.range i).flatMap fun b => inBucket hashv k b order).filter p = if c < i then order.filter p else [] := by
  induction i with
  | zero => rfl
  | succ i ih =>
    rw [List.range_succ, List.flatMap_append, List.filter_append, ih, List.flatMap_singleton, inBucket, List.filter_filter]
    by_cases hci : c = i
    · subst hci
      have hall : (order.filter fun x => p x && decide (bucketOf (hashv x) k = c)) = order.filter p := by
        refine List.filter_congr fun x hx => ?_
        cases hp : p x with
        | false => rfl
        | true => simp [h x hx hp]
      rw [if_neg (Nat.lt_irrefl c), if_pos (Nat.lt_succ_self c), List.nil_append, hall]
    · have hnone : (order.filter fun x => p x && decide (bucketOf (hashv x) k = i)) = [] := by
        refine List.filter_eq_nil_iff.mpr fun x hx hp => ?_
        rw [Bool.and_eq_true, decide_eq_true_iff] at hp
        exact hci ((h x hx hp.1).symm.trans hp.2)
      rw [hnone, List.append_nil]
      exact if_congr (by omega) rfl rfl

/-- The chains of the buckets before `i`, in the order in which they are walked. -/
def walked (hashv : P → UInt32) (k : Nat) (order : List P) (i : Nat) : List P :=
  (List.range i).flatMap fun b => inBucket hashv k b order

theorem walked_succ (hashv : P → UInt32) (k : Nat) (order : List P) (i : Nat) :
    walked hashv k order (i + 1) = walked hashv k order i ++ inBucket hashv k i order := by
  rw [walked, walked, List.range_succ, List.flatMap_append, List.flatMap_singleton]

theorem mem_walked {i : Nat} : x ∈ walked hashv k order i ↔ x ∈ order ∧ bucketOf (hashv x) k < i := by
  simp only [walked, List.mem_flatMap, List.mem_range, mem_inBucket]
  constructor
  · rintro ⟨b, hb, hx, rfl⟩
    exact ⟨hx, hb⟩
  · rintro ⟨hx, hlt⟩
    exact ⟨_, hlt, hx, rfl⟩

theorem inBucket_congr {hashv' : P → UInt32} (h : ∀ x ∈ order, hashv' x = hashv x) (k b : Nat) :
    inBucket hashv' k b order = inBucket hashv k b order :=
  List.filter_congr fun x hx => by rw [h x hx]

theorem walked_congr {hashv' : P → UInt32} (h : ∀ x ∈ order, hashv' x = hashv x) (k i : Nat) :
    walked hashv' k order i = walked hashv k order i := by
  simp only [walked, inBucket_congr h]

theorem bucketOf_halve (hashv : UInt32) (k : Nat) : bucketOf hashv k = bucketOf hashv (k + 1) % 2 ^ k := by
  rw [bucketOf, bucketOf, Nat.mod_mod_of_dvd _ (Nat.pow_dvd_pow 2 (Nat.le_succ k))]

/-- Moving all chains turns each new bucket around. -/
theorem inBucket_walked (hashv : P → UInt32) (k b : Nat) (order : List P) :
    inBucket hashv (k + 1) b (walked hashv k order (2 ^ k)).reverse = inBucket hashv (k + 1) b order.reverse := by
  rw [inBucket, inBucket, List.filter_reverse, List.filter_reverse, walked,
    filter_flatMap_inBucket (c := b % 2 ^ k), if_pos (Nat.mod_lt b (Nat.two_pow_pos k))]
  intro x _ hx
  rw [bucketOf_halve, of_decide_eq_true hx]

end Buckets

/-! ### Expansion -/

/-- What was counted as often as there are elements is counted once more. -/
theorem ofNat_succ (n : Nat) : UInt32.ofNat n + 1 = UInt32.ofNat (n + 1) := (UInt32.ofNat_add n 1).symm

theorem ofNat_pred (n : Nat) : UInt32.ofNat (n + 1) - 1 = UInt32.ofNat n := by
  rw [← ofNat_succ, UInt32.add_sub_cancel]

section Expansion
variable [DecidableEq P]

/-- The `2 ^ k` new buckets hold what was moved, the latest first. -/
structure Rehashed (hashv : P → UInt32) (k : Nat) (st : Rehash P) (moved : List P) : Prop where
  chain : ∀ b, st.chain.Listed (inBucket hashv k b moved)
  hhHead : ∀ b, (st.newBuckets b).hhHead = (inBucket hashv k b moved).head?
  count : ∀ b, (st.newBuckets b).count = UInt32.ofNat (inBucket hashv k b moved).length

variable {hashv : P → UInt32} {n ideal : UInt32} {k : Nat} {st : Rehash P} {moved xs ys : List P} {x : P}

theorem hashMove_chain : (hashMove hashv n ideal st x).chain =
    st.chain.pushFront (st.newBuckets (hashToBkt (hashv x) (n * 2))).hhHead x := rfl

variable (n ideal) in
theorem Rehashed.agree_move (h : Rehashed hashv k st moved) (hx : x ∉ ys) (apart : ∀ y ∈ moved, y ∉ ys) :
    Agree st.chain (hashMove hashv n ideal st x).chain ys := by
  rw [hashMove_chain, h.hhHead]
  exact agree_pushFront hx fun y hy => apart y (mem_inBucket.mp (List.mem_of_mem_head? hy)).1

section Move
variable (ideal) (hn : (n * 2).toNat = 2 ^ k)
include hn

theorem Rehashed.move (h : Rehashed hashv k st moved) (hx : x ∉ moved) :
    Rehashed hashv k (hashMove hashv n ideal st x) (x :: moved) := by
  set bkt := bucketOf (hashv x) k with hbkt
  have hindex : hashToBkt (hashv x) (n * 2) = bkt := hashToBkt_eq hn _
  have hbuckets : ∀ b, b ≠ bkt → (hashMove hashv n ideal st x).newBuckets b = st.newBuckets b := fun b hb =>
    Function.update_of_ne (hindex ▸ hb) _ _
  obtain ⟨mult, hself⟩ : ∃ mult, (hashMove hashv n ideal st x).newBuckets (hashToBkt (hashv x) (n * 2)) =
      ⟨some x, (st.newBuckets (hashToBkt (hashv x) (n * 2))).count + 1, mult⟩ := ⟨_, Function.update_self _ _ _⟩
  rw [hindex] at hself
  have hout : x ∉ inBucket hashv k bkt moved := fun hmem => hx (mem_inBucket.mp hmem).1
  refine ⟨fun b => ?_, fun b => ?_, fun b => ?_⟩
  · by_cases hb : b = bkt
    · rw [hb, hashMove_chain, hindex, h.hhHead, inBucket_cons_self]
      exact (h.chain bkt).pushFront hout
    · rw [inBucket_cons_of_ne hb, hashMove_chain, hindex, h.hhHead]
      refine (h.chain b).congr (agree_pushFront (fun hmem => hx (mem_inBucket.mp hmem).1) fun y hy hmem => ?_)
      exact hb ((mem_inBucket.mp hmem).2.symm.trans (mem_inBucket.mp (List.mem_of_mem_head? hy)).2)
  · by_cases hb : b = bkt
    · rw [hb, hself, inBucket_cons_self]
      rfl
    · rw [inBucket_cons_of_ne hb, hbuckets b hb, h.hhHead]
  · by_cases hb : b = bkt
    · rw [hb, hself, inBucket_cons_self, List.length_cons, h.count, ofNat_succ]
    · rw [inBucket_cons_of_ne hb, hbuckets b hb, h.count]

/-- One chain is moved, element by element; what lies elsewhere keeps its links. -/
theorem Rehashed.moveChain (h : Rehashed hashv k st moved) (ahead : st.chain.Ahead xs) (nodup : xs.Nodup)
    (apart : ∀ x ∈ xs, x ∉ moved) {turns : Nat} (enough : xs.length ≤ turns) :
    hashMoveChain hashv n ideal turns xs.head? st = .ok (xs.foldl (hashMove hashv n ideal) st) ∧
      Rehashed hashv k (xs.foldl (hashMove hashv n ideal) st) (xs.reverse ++ moved) ∧
      ∀ ys, (∀ x ∈ xs, x ∉ ys) → (∀ x ∈ moved, x ∉ ys) → Agree st.chain (xs.foldl (hashMove hashv n ideal) st).chain ys := by
  induction xs generalizing st moved turns with
  | nil => exact ⟨by cases turns <;> rfl, h, fun ys _ _ => fun y _ => ⟨rfl, rfl⟩⟩
  | cons x xs ih =>
    obtain ⟨turns, rfl⟩ : ∃ t, turns = t + 1 := ⟨turns - 1, by rw [List.length_cons] at enough; omega⟩
    obtain ⟨hx, hxs⟩ := List.nodup_cons.mp nodup
    have happart : ∀ y ∈ moved, y ∉ xs := fun y hy hmem => apart y (List.mem_cons_of_mem x hmem) hy
    have hmove := h.move ideal hn (apart x List.mem_cons_self)
    have hahead : (hashMove hashv n ideal st x).chain.Ahead xs := ahead.2.congr (h.agree_move n ideal hx happart)
    have happart' : ∀ y ∈ xs, y ∉ x :: moved := fun y hy hmem => by
      rcases List.mem_cons.mp hmem with rfl | hmem
      · exact hx hy
      · exact happart y hmem hy
    obtain ⟨hrun, hst', hframe⟩ := ih hmove hahead hxs happart' (Nat.le_of_succ_le_succ enough)
    refine ⟨?_, ?_, fun ys hys hmoved => ?_⟩
    · rw [List.head?_cons, hashMoveChain, ahead.1, hrun, List.foldl_cons]
    · rwa [List.reverse_cons, List.append_assoc]
    · have hfirst := h.agree_move n ideal (hys x List.mem_cons_self) hmoved
      refine hfirst.trans (hframe ys (fun y hy => hys y (List.mem_cons_of_mem x hy)) fun y hy => ?_)
      rcases List.mem_cons.mp hy with rfl | hy
      · exact hys y List.mem_cons_self
      · exact hmoved y hy

end Move

/-- The state behind the chains before bucket `i`. -/
def movedTo (hashv : P → UInt32) (n ideal : UInt32) (k : Nat) (order : List P) (st : Rehash P) (i : Nat) : Rehash P :=
  (walked hashv k order i).foldl (hashMove hashv n ideal) st

variable (ideal) in
/-- The chains that are left are moved, bucket by bucket. -/
theorem Rehashed.moveBuckets {tbl : Table P} {start : Rehash P} {order : List P} (hn : (tbl.numBuckets * 2).toNat = 2 ^ (k + 1))
    (nodup : order.Nodup) (hchain : ∀ b, start.chain.Listed (inBucket hashv k b order))
    (hhead : ∀ b, (tbl.buckets b).hhHead = (inBucket hashv k b order).head?) (enough : order.length ≤ tbl.numItems.toNat) (i m : Nat)
    (h : Rehashed hashv (k + 1) (movedTo hashv tbl.numBuckets ideal k order start i) (walked hashv k order i).reverse)
    (same : ∀ b, i ≤ b → Agree start.chain (movedTo hashv tbl.numBuckets ideal k order start i).chain (inBucket hashv k b order)) :
    hashMoveBuckets hashv tbl ideal i m (movedTo hashv tbl.numBuckets ideal k order start i) =
        .ok (movedTo hashv tbl.numBuckets ideal k order start (i + m)) ∧
      Rehashed hashv (k + 1) (movedTo hashv tbl.numBuckets ideal k order start (i + m)) (walked hashv k order (i + m)).reverse := by
  induction m generalizing i with
  | zero => exact ⟨rfl, h⟩
  | succ m ih =>
    have hapart : ∀ x ∈ inBucket hashv k i order, x ∉ (walked hashv k order i).reverse := by
      intro x hx hmem
      have hlt := (mem_walked.mp (List.mem_reverse.mp hmem)).2
      rw [(mem_inBucket.mp hx).2] at hlt
      exact Nat.lt_irrefl i hlt
    have hlength : (inBucket hashv k i order).length ≤ tbl.numItems.toNat := (List.length_filter_le _ _).trans enough
    obtain ⟨hrun, hst', hframe⟩ :=
      h.moveChain ideal hn ((hchain i).ahead.congr (same i (Nat.le_refl i))) (nodup.filter _) hapart hlength
    have hnext : (inBucket hashv k i order).foldl (hashMove hashv tbl.numBuckets ideal)
        (movedTo hashv tbl.numBuckets ideal k order start i) = movedTo hashv tbl.numBuckets ideal k order start (i + 1) := by
      rw [movedTo, movedTo, walked_succ, List.foldl_append]
    rw [hnext, ← List.reverse_append, ← walked_succ] at hst'
    rw [hnext] at hrun hframe
    obtain ⟨hrun', hst''⟩ := ih (i + 1) hst' fun b hb => by
      refine (same b (Nat.le_of_succ_le hb)).trans (hframe _ (fun x hx hmem => ?_) fun x hx hmem => ?_)
      · have heq := (mem_inBucket.mp hx).2.symm.trans (mem_inBucket.mp hmem).2
        omega
      · have hlt := (mem_walked.mp (List.mem_reverse.mp hx)).2
        rw [(mem_inBucket.mp hmem).2] at hlt
        omega
    rw [Nat.add_assoc, Nat.add_comm 1 m] at hrun' hst''
    refine ⟨?_, hst''⟩
    rw [hashMoveBuckets, hhead, hrun]
    exact hrun'

/-- The buckets hold the elements of `order`, each bucket its own in that order. -/
structure Bucketed (hashv : P → UInt32) (chain : Links P) (tbl : Table P) (order : List P) : Prop where
  nodup : order.Nodup
  log2 : initialNumBucketsLog2.toNat ≤ tbl.log2NumBuckets.toNat
  numBuckets : tbl.numBuckets.toNat = 2 ^ tbl.log2NumBuckets.toNat
  chain : ∀ b, chain.Listed (inBucket hashv tbl.log2NumBuckets.toNat b order)
  hhHead : ∀ b, (tbl.buckets b).hhHead = (inBucket hashv tbl.log2NumBuckets.toNat b order).head?
  count : ∀ b, (tbl.buckets b).count = UInt32.ofNat (inBucket hashv tbl.log2NumBuckets.toNat b order).length
  expandMult : tbl.log2NumBuckets.toNat = initialNumBucketsLog2.toNat → ∀ b, (tbl.buckets b).expandMult = 0

/-- No block of 64 GiB or more is given, which `2 ^ 32` buckets would take. -/
def Modest (room : Alloc) : Prop := ∀ size, 2 ^ 36 ≤ size → room size = false

/-- Every block of less than 64 GiB is given. -/
def ampleRoom : Alloc := fun size => decide (size < 2 ^ 36)

theorem ampleRoom_modest : Modest ampleRoom := fun _ hsize => decide_eq_false (Nat.not_lt.mpr hsize)

omit [DecidableEq P] in
theorem Modest.log2_lt {room : Alloc} {tbl : Table P} {hashv : P → UInt32} {chain : Links P} {order : List P} (modest : Modest room)
    (hb : Bucketed hashv chain tbl order) (hroom : room (sizeofBucket * tbl.numBuckets.toNat * 2) = true) :
    tbl.log2NumBuckets.toNat < 31 := by
  by_contra hlong
  have hpow : 2 ^ 31 ≤ tbl.numBuckets.toNat := hb.numBuckets ▸ Nat.pow_le_pow_right Nat.two_pos (Nat.le_of_not_lt hlong)
  have hsize : 2 ^ 36 ≤ sizeofBucket * tbl.numBuckets.toNat * 2 := by
    rw [sizeofBucket]
    omega
  rw [modest _ hsize] at hroom
  cases hroom

omit [DecidableEq P] in
/-- Below `2 ^ 31` buckets, the number of them can be doubled. -/
theorem Bucketed.double {hashv : P → UInt32} {chain : Links P} {tbl : Table P} {order : List P} (hb : Bucketed hashv chain tbl order)
    (hlt : tbl.log2NumBuckets.toNat < 31) : (tbl.log2NumBuckets + 1).toNat = tbl.log2NumBuckets.toNat + 1 ∧
      (tbl.numBuckets * 2).toNat = 2 ^ (tbl.log2NumBuckets.toNat + 1) := by
  have hpow : 2 ^ tbl.log2NumBuckets.toNat ≤ 2 ^ 30 := Nat.pow_le_pow_right Nat.two_pos (by omega)
  have htwo : (2 : UInt32).toNat = 2 := rfl
  constructor
  · rw [UInt32.toNat_add, UInt32.toNat_one]
    exact Nat.mod_eq_of_lt (by omega)
  · rw [UInt32.toNat_mul, hb.numBuckets, htwo, Nat.pow_succ]
    exact Nat.mod_eq_of_lt (by omega)

omit [DecidableEq P] in
theorem Bucketed.double_lt {hashv : P → UInt32} {chain : Links P} {tbl : Table P} {order : List P} (hb : Bucketed hashv chain tbl order)
    (hlt : tbl.log2NumBuckets.toNat < 31) : sizeofBucket * tbl.numBuckets.toNat * 2 < 2 ^ 36 := by
  have hpow : 2 ^ tbl.log2NumBuckets.toNat ≤ 2 ^ 30 := Nat.pow_le_pow_right Nat.two_pos (by omega)
  rw [hb.numBuckets, sizeofBucket]
  omega

/-- What the new buckets count does not depend on the links. -/
theorem foldl_hashMove_congr {hashv' : P → UInt32} (same : ∀ x ∈ xs, hashv' x = hashv x) (n ideal : UInt32) (st st' : Rehash P)
    (hbuckets : st'.newBuckets = st.newBuckets) (hitems : st'.nonidealItems = st.nonidealItems) :
    (xs.foldl (hashMove hashv' n ideal) st').newBuckets = (xs.foldl (hashMove hashv n ideal) st).newBuckets ∧
      (xs.foldl (hashMove hashv' n ideal) st').nonidealItems = (xs.foldl (hashMove hashv n ideal) st).nonidealItems := by
  induction xs generalizing st st' with
  | nil => exact ⟨hbuckets, hitems⟩
  | cons x xs ih =>
    have hx := same x List.mem_cons_self
    rw [List.foldl_cons, List.foldl_cons]
    refine ih (fun y hy => same y (List.mem_cons_of_mem x hy)) _ _ ?_ ?_
    · simp only [hashMove, hx, hbuckets]
    · simp only [hashMove, hx, hbuckets, hitems]

/-- The table after an expansion, for the order of its elements. -/
def Table.expandedBy (tbl : Table P) (hashv : P → UInt32) (order : List P) : Table P :=
  tbl.expanded (movedTo hashv tbl.numBuckets tbl.idealChain tbl.log2NumBuckets.toNat order
    ⟨⟨fun _ => none, fun _ => none⟩, fun _ => .zero, 0⟩ tbl.numBuckets.toNat)

theorem Table.expandedBy_eq (tbl : Table P) (chain : Links P) {hashv' : P → UInt32} {order : List P}
    (same : ∀ x ∈ order, hashv' x = hashv x) :
    tbl.expanded (movedTo hashv' tbl.numBuckets tbl.idealChain tbl.log2NumBuckets.toNat order ⟨chain, fun _ => .zero, 0⟩
      tbl.numBuckets.toNat) = tbl.expandedBy hashv order := by
  have hwalked : ∀ x ∈ walked hashv tbl.log2NumBuckets.toNat order tbl.numBuckets.toNat, hashv' x = hashv x := fun x hx =>
    same x (mem_walked.mp hx).1
  obtain ⟨hbuckets, hitems⟩ := foldl_hashMove_congr hwalked tbl.numBuckets tbl.idealChain
    ⟨⟨fun _ => none, fun _ => none⟩, fun _ => .zero, 0⟩ ⟨chain, fun _ => .zero, 0⟩ rfl rfl
  rw [Table.expandedBy, movedTo, movedTo, walked_congr same, Table.expanded, Table.expanded, hbuckets, hitems]

/-- An expansion turns the order around. -/
theorem Bucketed.expand {h : Handles P} {tbl : Table P} {order : List P} (hb : Bucketed h.hashv h.chain tbl order)
    (enough : order.length ≤ tbl.numItems.toNat) {room : Alloc} (hlt : tbl.log2NumBuckets.toNat < 31)
    (hroom : room (sizeofBucket * tbl.numBuckets.toNat * 2) = true) :
    ∃ chain, hashExpandBuckets room h tbl = .ok (chain, tbl.expandedBy h.hashv order) ∧
      Bucketed h.hashv chain (tbl.expandedBy h.hashv order) order.reverse ∧
      (tbl.expandedBy h.hashv order).log2NumBuckets.toNat = tbl.log2NumBuckets.toNat + 1 := by
  obtain ⟨hlog, hdouble⟩ := hb.double hlt
  have hempty : Rehashed h.hashv (tbl.log2NumBuckets.toNat + 1)
      (movedTo h.hashv tbl.numBuckets tbl.idealChain tbl.log2NumBuckets.toNat order ⟨h.chain, fun _ => .zero, 0⟩ 0)
      (walked h.hashv tbl.log2NumBuckets.toNat order 0).reverse :=
    ⟨fun _ => listed_nil _, fun _ => rfl, fun _ => rfl⟩
  obtain ⟨hrun, hst⟩ := hempty.moveBuckets tbl.idealChain hdouble hb.nodup hb.chain hb.hhHead enough 0 tbl.numBuckets.toNat
    fun _ _ _ _ => ⟨rfl, rfl⟩
  rw [Nat.zero_add] at hrun hst
  have hmoved : ∀ b, inBucket h.hashv (tbl.log2NumBuckets.toNat + 1) b
        (walked h.hashv tbl.log2NumBuckets.toNat order tbl.numBuckets.toNat).reverse =
      inBucket h.hashv (tbl.log2NumBuckets + 1).toNat b order.reverse := fun b => by
    rw [hb.numBuckets, hlog, inBucket_walked]
  set st := movedTo h.hashv tbl.numBuckets tbl.idealChain tbl.log2NumBuckets.toNat order ⟨h.chain, fun _ => .zero, 0⟩
    tbl.numBuckets.toNat
  have hexpanded : tbl.expanded st = tbl.expandedBy h.hashv order := tbl.expandedBy_eq h.chain fun _ _ => rfl
  refine ⟨st.chain, ?_, ?_, hlog⟩
  · rw [hashExpandBuckets, hroom, ← hexpanded]
    exact congrArg (fun r => r >>= fun st => Except.ok (st.chain, tbl.expanded st)) hrun
  · rw [← hexpanded]
    exact {
      nodup := List.nodup_reverse.mpr hb.nodup
      log2 := Nat.le_trans (Nat.le_succ_of_le hb.log2) hlog.ge
      numBuckets := hdouble.trans (congrArg (2 ^ ·) hlog.symm)
      chain := fun b => hmoved b ▸ hst.chain b
      hhHead := fun b => hmoved b ▸ hst.hhHead b
      count := fun b => hmoved b ▸ hst.count b
      expandMult := fun hlog' => by
        have hold := hb.log2
        have hnew : tbl.log2NumBuckets.toNat + 1 = initialNumBucketsLog2.toNat := hlog.symm.trans hlog'
        omega }

end Expansion

/-! ### Adding an element -/

section Adding
variable {h : Handles P} {tbl : Table P} {order : List P} {x : P} {room : Alloc}

theorem Bucketed.congr {hashv hashv' : P → UInt32} {chain : Links P} (hb : Bucketed hashv chain tbl order)
    (same : ∀ x ∈ order, hashv' x = hashv x) : Bucketed hashv' chain tbl order where
  nodup := hb.nodup
  log2 := hb.log2
  numBuckets := hb.numBuckets
  chain b := inBucket_congr same _ b ▸ hb.chain b
  hhHead b := inBucket_congr same _ b ▸ hb.hhHead b
  count b := inBucket_congr same _ b ▸ hb.count b
  expandMult := hb.expandMult

variable [DecidableEq P]

/-- The order after `x` was added: in front, or behind where an expansion turned everything around. The first expansion comes with
    the tenth element at the earliest. -/
def Grown (log2 log2' : Nat) (x : P) (order order' : List P) : Prop :=
  (order' = x :: order ∧ log2' = log2) ∨
    (order' = (x :: order).reverse ∧ log2' = log2 + 1 ∧
      (log2 = initialNumBucketsLog2.toNat → bktCapacityThresh.toNat ≤ (x :: order).length))

/-- The bucket with the element in front. -/
def Table.pushed (tbl : Table P) (bkt : Nat) (add : P) : Table P :=
  { tbl with
    buckets := Function.update tbl.buckets bkt ⟨some add, (tbl.buckets bkt).count + 1, (tbl.buckets bkt).expandMult⟩ }

theorem Bucketed.push (hb : Bucketed h.hashv h.chain tbl order) (hx : x ∉ order) :
    Bucketed h.hashv (h.chain.pushFront (tbl.buckets (hashToBkt (h.hashv x) tbl.numBuckets)).hhHead x)
      (tbl.pushed (hashToBkt (h.hashv x) tbl.numBuckets) x) (x :: order) := by
  rw [hashToBkt_eq hb.numBuckets]
  set bkt := bucketOf (h.hashv x) tbl.log2NumBuckets.toNat with hbkt
  have hself : (tbl.pushed bkt x).buckets bkt = ⟨some x, (tbl.buckets bkt).count + 1, (tbl.buckets bkt).expandMult⟩ :=
    Function.update_self bkt _ _
  have hother : ∀ b, b ≠ bkt → (tbl.pushed bkt x).buckets b = tbl.buckets b := fun b hne => Function.update_of_ne hne _ _
  have hout : ∀ b, x ∉ inBucket h.hashv tbl.log2NumBuckets.toNat b order := fun b hmem => hx (mem_inBucket.mp hmem).1
  refine ⟨List.nodup_cons.mpr ⟨hx, hb.nodup⟩, hb.log2, hb.numBuckets, fun b => ?_, fun b => ?_, fun b => ?_, fun hlog b => ?_⟩
  · change Listed _ (inBucket h.hashv tbl.log2NumBuckets.toNat b (x :: order))
    rw [hb.hhHead]
    by_cases hne : b = bkt
    · rw [hne, inBucket_cons_self]
      exact (hb.chain bkt).pushFront (hout bkt)
    · rw [inBucket_cons_of_ne hne]
      refine (hb.chain b).congr (agree_pushFront (hout b) fun y hy hmem => ?_)
      exact hne ((mem_inBucket.mp hmem).2.symm.trans (mem_inBucket.mp (List.mem_of_mem_head? hy)).2)
  · change _ = (inBucket h.hashv tbl.log2NumBuckets.toNat b (x :: order)).head?
    by_cases hne : b = bkt
    · rw [hne, hself, inBucket_cons_self]
      rfl
    · rw [hother b hne, inBucket_cons_of_ne hne, hb.hhHead]
  · change _ = UInt32.ofNat (inBucket h.hashv tbl.log2NumBuckets.toNat b (x :: order)).length
    by_cases hne : b = bkt
    · rw [hne, hself, inBucket_cons_self, List.length_cons, hb.count, ofNat_succ]
    · rw [hother b hne, inBucket_cons_of_ne hne, hb.count]
  · by_cases hne : b = bkt
    · rw [hne, hself]
      exact hb.expandMult hlog bkt
    · rw [hother b hne]
      exact hb.expandMult hlog b

/-- The bucket is full with one element more. -/
def Table.Full (tbl : Table P) (bkt : Nat) : Prop :=
  ((tbl.buckets bkt).expandMult + 1) * bktCapacityThresh ≤ (tbl.buckets bkt).count + 1 ∧ tbl.noexpand = false

instance (tbl : Table P) (bkt : Nat) : Decidable (tbl.Full bkt) := inferInstanceAs (Decidable (_ ∧ _))

/-- The table after an element was added to a bucket, for the order of the others. -/
def Table.grown (tbl : Table P) (hashv : P → UInt32) (order : List P) (x : P) : Table P :=
  let bkt := hashToBkt (hashv x) tbl.numBuckets
  if tbl.Full bkt then (tbl.pushed bkt x).expandedBy hashv (x :: order) else tbl.pushed bkt x

theorem Table.grown_numItems {hashv : P → UInt32} : (tbl.grown hashv order x).numItems = tbl.numItems := by
  simp only [grown]
  split <;> rfl

theorem Table.grown_tail {hashv : P → UInt32} : (tbl.grown hashv order x).tail = tbl.tail := by
  simp only [grown]
  split <;> rfl

theorem Table.grown_congr {hashv hashv' : P → UInt32} (same : ∀ y ∈ x :: order, hashv' y = hashv y) :
    tbl.grown hashv' order x = tbl.grown hashv order x := by
  have hexpanded (tbl : Table P) : tbl.expandedBy hashv' (x :: order) = tbl.expandedBy hashv (x :: order) :=
    tbl.expandedBy_eq ⟨fun _ => none, fun _ => none⟩ same
  simp only [grown, same x List.mem_cons_self, hexpanded]

theorem hashAddToBkt_eq (bkt : Nat) : hashAddToBkt room h tbl bkt x =
    if tbl.Full bkt then do
      let (chain, tbl) ← hashExpandBuckets room { h with chain := h.chain.pushFront (tbl.buckets bkt).hhHead x } (tbl.pushed bkt x)
      return ({ h with chain }, tbl)
    else return ({ h with chain := h.chain.pushFront (tbl.buckets bkt).hhHead x }, tbl.pushed bkt x) := rfl

omit [DecidableEq P] in
/-- While no bucket was full before, one is with ten elements at the earliest. -/
theorem Bucketed.full (hb : Bucketed h.hashv h.chain tbl order) (hfull : tbl.Full (hashToBkt (h.hashv x) tbl.numBuckets))
    (hlog : tbl.log2NumBuckets.toNat = initialNumBucketsLog2.toNat) : bktCapacityThresh.toNat ≤ (x :: order).length := by
  rw [hashToBkt_eq hb.numBuckets] at hfull
  set bkt := bucketOf (h.hashv x) tbl.log2NumBuckets.toNat
  have hten := UInt32.le_iff_toNat_le.mp hfull.1
  rw [hb.expandMult hlog bkt, hb.count bkt, ofNat_succ, UInt32.zero_add, UInt32.one_mul, UInt32.toNat_ofNat'] at hten
  have hcount := Nat.mod_le ((inBucket h.hashv tbl.log2NumBuckets.toNat bkt order).length + 1) (2 ^ 32)
  have hle : (inBucket h.hashv tbl.log2NumBuckets.toNat bkt order).length ≤ order.length := List.length_filter_le _ _
  rw [List.length_cons]
  omega

variable (room) in
theorem Bucketed.addToBkt (hb : Bucketed h.hashv h.chain tbl order) (modest : tbl.log2NumBuckets.toNat < 31 ∨ Modest room) (hx : x ∉ order)
    (enough : (x :: order).length ≤ tbl.numItems.toNat) :
    (hashAddToBkt room h tbl (hashToBkt (h.hashv x) tbl.numBuckets) x = .error .exit ∧
        room (sizeofBucket * tbl.numBuckets.toNat * 2) = false) ∨
      ∃ chain order', hashAddToBkt room h tbl (hashToBkt (h.hashv x) tbl.numBuckets) x =
          .ok ({ h with chain }, tbl.grown h.hashv order x) ∧
        Bucketed h.hashv chain (tbl.grown h.hashv order x) order' ∧
        Grown tbl.log2NumBuckets.toNat (tbl.grown h.hashv order x).log2NumBuckets.toNat x order order' := by
  have hpush := hb.push hx
  have hgrown : tbl.grown h.hashv order x = if tbl.Full (hashToBkt (h.hashv x) tbl.numBuckets)
      then (tbl.pushed (hashToBkt (h.hashv x) tbl.numBuckets) x).expandedBy h.hashv (x :: order)
      else tbl.pushed (hashToBkt (h.hashv x) tbl.numBuckets) x := rfl
  rw [hashAddToBkt_eq, hgrown]
  set bkt := hashToBkt (h.hashv x) tbl.numBuckets
  by_cases hfull : tbl.Full bkt
  · rw [if_pos hfull, if_pos hfull]
    cases hroom : room (sizeofBucket * tbl.numBuckets.toNat * 2) with
    | false =>
      have hexit : hashExpandBuckets room { h with chain := h.chain.pushFront (tbl.buckets bkt).hhHead x } (tbl.pushed bkt x) =
          .error .exit := if_pos hroom
      refine Or.inl ⟨?_, rfl⟩
      rw [hexit]
      rfl
    | true =>
      have hlt := modest.elim id fun modest => modest.log2_lt hb hroom
      obtain ⟨chain, hrun, hb', hlog⟩ := Bucketed.expand (h := { h with chain := h.chain.pushFront (tbl.buckets bkt).hhHead x }) hpush
        enough hlt hroom
      refine Or.inr ⟨chain, (x :: order).reverse, ?_, hb', Or.inr ⟨rfl, hlog, hb.full hfull⟩⟩
      rw [hrun]
      rfl
  · rw [if_neg hfull, if_neg hfull]
    exact Or.inr ⟨_, x :: order, rfl, hpush, Or.inl ⟨rfl, rfl⟩⟩

end Adding

end Vcmp.Uthash
