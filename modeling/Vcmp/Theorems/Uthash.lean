import Vcmp.Theorems.UthashBuckets

/-! The hash table of `uthash.h` is a list of elements in the order in which they were added, with another order of the same
elements in which each bucket holds its own. -/

namespace Vcmp.Uthash
open Links

variable {P : Type}

/-! ### The table as a whole -/

/-- The table behind `head` holds `items`, in the order in which they were added, and its buckets hold them in the order of `order`. -/
structure Holds (h : Handles P) (head : P) (tbl : Table P) (items order : List P) : Prop where
  perm : order.Perm items
  first : items.head? = some head
  app : h.app.Listed items
  tail : items.getLast? = some tbl.tail
  numItems : tbl.numItems.toNat = items.length
  hashv : ∀ x ∈ items, h.hashv x = hashJen (h.key x)
  buckets : Bucketed h.hashv h.chain tbl order
  young : tbl.log2NumBuckets.toNat = initialNumBucketsLog2.toNat → order = items.reverse

def Represents (hash : Hash P) (items order : List P) : Prop :=
  match hash.head with
  | none => items = [] ∧ order = []
  | some (head, tbl) => Holds hash.handles head tbl items order

/-- The table that the first element makes. -/
def Table.made (add : P) : Table P := ⟨fun _ => .zero, initialNumBuckets, initialNumBucketsLog2, 0, add, 0, 0, 0, false⟩

/-- The table that the element meets at its bucket. -/
def Hash.tableFor (hash : Hash P) (add : P) : Table P :=
  match hash.head with
  | none => { Table.made add with numItems := 1 }
  | some (_, tbl) => { tbl with tail := add, numItems := tbl.numItems + 1 }

/-- The logarithm of the number of buckets that the next element meets. -/
def Hash.log2 (hash : Hash P) : Nat :=
  match hash.head with
  | none => initialNumBucketsLog2.toNat
  | some (_, tbl) => tbl.log2NumBuckets.toNat

/-- A block of less than 64 GiB is not given, or the buckets are too many to be doubled in less. -/
def Hash.Lacks (hash : Hash P) (room : Alloc) : Prop := (∃ size < 2 ^ 36, room size = false) ∨ 31 ≤ hash.log2

section Whole
variable [DecidableEq P] {h : Handles P} {tbl : Table P} {hash : Hash P} {items order : List P} {x head : P} {room : Alloc}
  {key : List UInt8}

/-- The handle with its key and its hash value. -/
def Handles.keyed (h : Handles P) (x : P) (key : List UInt8) : Handles P :=
  { h with hashv := Function.update h.hashv x (hashJen key), key := Function.update h.key x key }

theorem Handles.keyed_self : (h.keyed x key).hashv x = hashJen ((h.keyed x key).key x) := by
  simp [keyed]

theorem Handles.keyed_of_ne {y : P} (hy : y ≠ x) : (h.keyed x key).hashv y = h.hashv y ∧ (h.keyed x key).key y = h.key y :=
  ⟨Function.update_of_ne hy _ _, Function.update_of_ne hy _ _⟩

theorem Holds.keyed (hh : Holds h head tbl items order) (hx : x ∉ items) : Holds (h.keyed x key) head tbl items order := by
  have hne {y : P} (hy : y ∈ items) : y ≠ x := by
    rintro rfl
    exact hx hy
  exact { hh with
    hashv := fun y hy => by
      rw [(Handles.keyed_of_ne (hne hy)).1, (Handles.keyed_of_ne (hne hy)).2, hh.hashv y hy]
    buckets := hh.buckets.congr fun y hy => (Handles.keyed_of_ne (hne (hh.perm.mem_iff.mp hy))).1 }

omit [DecidableEq P] in
theorem Table.made_bucketed (hashv : P → UInt32) (chain : Links P) (add : P) : Bucketed hashv chain (Table.made add) [] where
  nodup := .nil
  log2 := Nat.le_refl _
  numBuckets := rfl
  chain _ := listed_nil _
  hhHead _ := rfl
  count _ := rfl
  expandMult _ _ := rfl

variable (room) in
/-- The element goes into its bucket once the list of the items has it. -/
theorem hashAddToTable_holds (hb : Bucketed h.hashv h.chain tbl order) (modest : tbl.log2NumBuckets.toNat < 31 ∨ Modest room)
    (hx : x ∉ items) (perm : order.Perm items) (numItems : (tbl.numItems + 1).toNat = items.length + 1) (app : h.app.Listed (items ++ [x]))
    (first : (items ++ [x]).head? = some head) (tail : tbl.tail = x) (hashv : ∀ y ∈ items ++ [x], h.hashv y = hashJen (h.key y))
    (young : tbl.log2NumBuckets.toNat = initialNumBucketsLog2.toNat → order = items.reverse) {hashval : UInt32}
    (hval : h.hashv x = hashval) :
    (hashAddToTable room h tbl hashval x = .error .exit ∧ ((∃ size < 2 ^ 36, room size = false) ∨ 31 ≤ tbl.log2NumBuckets.toNat)) ∨
      ∃ h' order', hashAddToTable room h tbl hashval x =
          .ok (h', { tbl with numItems := tbl.numItems + 1 }.grown h.hashv order x) ∧
        Holds h' head ({ tbl with numItems := tbl.numItems + 1 }.grown h.hashv order x) (items ++ [x]) order' ∧
        Grown tbl.log2NumBuckets.toNat ({ tbl with numItems := tbl.numItems + 1 }.grown h.hashv order x).log2NumBuckets.toNat
          x order order' ∧
        h'.key = h.key ∧ h'.hashv = h.hashv := by
  subst hval
  have hx' : x ∉ order := fun hmem => hx (perm.mem_iff.mp hmem)
  have hb' : Bucketed h.hashv h.chain { tbl with numItems := tbl.numItems + 1 } order := { hb with }
  have henough : (x :: order).length ≤ (tbl.numItems + 1).toNat := by rw [numItems, List.length_cons, perm.length_eq]
  rcases hb'.addToBkt room modest hx' henough with ⟨hrun, hexit⟩ | ⟨chain, order', hrun, hbuckets, hgrown⟩
  · refine Or.inl ⟨hrun, ?_⟩
    by_cases hlog : 31 ≤ tbl.log2NumBuckets.toNat
    · exact Or.inr hlog
    · exact Or.inl ⟨_, hb.double_lt (Nat.lt_of_not_le hlog), hexit⟩
  have hcons : (x :: order).Perm (items ++ [x]) := (perm.cons x).trans (List.perm_append_singleton x items).symm
  refine Or.inr ⟨_, order', hrun, ?_, hgrown, rfl, rfl⟩
  exact {
    perm := by
      rcases hgrown with ⟨rfl, -⟩ | ⟨rfl, -, -⟩
      · exact hcons
      · exact (List.reverse_perm _).trans hcons
    first
    app
    tail := by rw [List.getLast?_concat, Table.grown_tail]; exact congrArg some tail.symm
    numItems := by rw [Table.grown_numItems, List.length_append]; exact numItems
    hashv
    buckets := hbuckets
    young := fun hlog => by
      rcases hgrown with ⟨rfl, hlog'⟩ | ⟨-, hlog', -⟩
      · rw [List.reverse_append, ← young (hlog'.symm.trans hlog)]
        rfl
      · have hold := hb.log2
        have hnew : tbl.log2NumBuckets.toNat + 1 = initialNumBucketsLog2.toNat := hlog'.symm.trans hlog
        omega }

theorem hashAddKeyptr_none : hashAddKeyptr room ⟨h, none⟩ key x = do
    let tbl ← hashMakeTable room x
    let (h, tbl) ← hashAddToTable room { h.keyed x key with app := h.app.pushFront none x } tbl (hashJen key) x
    return ⟨h, some (x, tbl)⟩ := rfl

theorem hashAddKeyptr_some : hashAddKeyptr room ⟨h, some (head, tbl)⟩ key x = do
    let (h, tbl) ← hashAddToTable room { h.keyed x key with app := h.app.append tbl.tail x } { tbl with tail := x } (hashJen key) x
    return ⟨h, some (head, tbl)⟩ := rfl

omit [DecidableEq P] in
theorem hashMakeTable_cases (room : Alloc) (x : P) :
    (hashMakeTable room x = .error .exit ∧ ∃ size < 2 ^ 36, room size = false) ∨ hashMakeTable room x = .ok (Table.made x) := by
  cases hfirst : room sizeofTable with
  | false => exact Or.inl ⟨if_pos hfirst, sizeofTable, by decide, hfirst⟩
  | true =>
    cases hsecond : room (initialNumBuckets.toNat * sizeofBucket) with
    | false => exact Or.inl ⟨by rw [hashMakeTable, hfirst, hsecond]; rfl, _, by decide, hsecond⟩
    | true => exact Or.inr (by rw [hashMakeTable, hfirst, hsecond]; rfl)

omit [DecidableEq P] in
theorem Hash.log2_eq (hash : Hash P) (x : P) : hash.log2 = (hash.tableFor x).log2NumBuckets.toNat := by
  obtain ⟨h, _ | ⟨head, tbl⟩⟩ := hash <;> rfl

/-- The hash after an element was added, with its table. -/
structure Added (hash : Hash P) (items order : List P) (key : List UInt8) (x : P) (hash' : Hash P) (order' : List P) : Prop where
  represents : Represents hash' (items ++ [x]) order'
  table : hash'.head.map Prod.snd = some ((hash.tableFor x).grown hash'.handles.hashv order x)
  grown : Grown hash.log2 hash'.log2 x order order'
  key : hash'.handles.key = Function.update hash.handles.key x key

variable (key) in
/-- Adding an element appends it to the items, unless the process ends for want of memory. -/
theorem Represents.add (hr : Represents hash items order) (hx : x ∉ items) (few : items.length + 1 < 2 ^ 32)
    (modest : hash.log2 < 31 ∨ Modest room) :
    (hashAddKeyptr room hash key x = .error .exit ∧ hash.Lacks room) ∨
      ∃ hash' order', hashAddKeyptr room hash key x = .ok hash' ∧ Added hash items order key x hash' order' := by
  have hself : (hash.handles.keyed x key).hashv x = hashJen key := Function.update_self x _ _
  obtain ⟨h, _ | ⟨head, tbl⟩⟩ := hash
  · obtain ⟨rfl, rfl⟩ := hr
    have hashv : ∀ y ∈ [] ++ [x], (h.keyed x key).hashv y = hashJen ((h.keyed x key).key y) := fun y hy => by
      rw [List.mem_singleton.mp hy, Handles.keyed_self]
    rcases hashMakeTable_cases room x with ⟨hmade, hroom⟩ | hmade
    · exact Or.inl ⟨by rw [hashAddKeyptr_none, hmade]; rfl, Or.inl hroom⟩
    rcases hashAddToTable_holds (h := { h.keyed x key with app := h.app.pushFront none x }) room
        (Table.made_bucketed _ h.chain x) modest List.not_mem_nil .nil rfl ((listed_nil h.app).pushFront List.not_mem_nil) rfl rfl hashv
        (fun _ => rfl) hself with
      ⟨hrun, hexit⟩ | ⟨h', order', hrun, hholds, hgrown, hkey, hashv'⟩
    · refine Or.inl ⟨?_, hexit⟩
      simp only [hashAddKeyptr_none, hmade, bind, Except.bind, hrun]
    · refine Or.inr ⟨⟨h', some (x, _)⟩, order', ?_, hholds, ?_, hgrown, hkey⟩
      · simp only [hashAddKeyptr_none, hmade, bind, Except.bind, hrun]
        rfl
      · rw [hashv']
        rfl
  · have hh : Holds (h.keyed x key) head tbl items order := Holds.keyed hr hx
    have hashv : ∀ y ∈ items ++ [x], (h.keyed x key).hashv y = hashJen ((h.keyed x key).key y) := fun y hy => by
      rcases List.mem_append.mp hy with hy | hy
      · exact hh.hashv y hy
      · rw [List.mem_singleton.mp hy, Handles.keyed_self]
    have htail : Bucketed (h.keyed x key).hashv h.chain { tbl with tail := x } order := { hh.buckets with }
    have hfirst : (items ++ [x]).head? = some head := by rw [List.head?_append, hh.first]; rfl
    have hcount : (tbl.numItems + 1).toNat = items.length + 1 := by
      rw [UInt32.toNat_add, hh.numItems]
      exact Nat.mod_eq_of_lt few
    rcases hashAddToTable_holds (h := { h.keyed x key with app := h.app.append tbl.tail x }) room htail modest hx hh.perm hcount
        (hh.app.append hh.tail hx) hfirst rfl hashv hh.young hself with
      ⟨hrun, hexit⟩ | ⟨h', order', hrun, hholds, hgrown, hkey, hashv'⟩
    · exact Or.inl ⟨by rw [hashAddKeyptr_some, hrun]; rfl, hexit⟩
    · refine Or.inr ⟨⟨h', some (head, _)⟩, order', ?_, hholds, ?_, hgrown, hkey⟩
      · rw [hashAddKeyptr_some, hrun]
        rfl
      · rw [hashv']
        rfl

/-! ### Deleting an element -/

theorem erase_append_cons {ys zs : List P} (hx : x ∉ ys) : (ys ++ x :: zs).erase x = ys ++ zs := by
  rw [List.erase_append_right _ hx, List.erase_cons_head]

theorem inBucket_erase {hashv : P → UInt32} (nodup : order.Nodup) (n b : Nat) :
    inBucket hashv n b (order.erase x) = (inBucket hashv n b order).erase x := by
  rw [inBucket, inBucket, nodup.erase_eq_filter, (nodup.filter _).erase_eq_filter, List.filter_filter, List.filter_filter]
  exact List.filter_congr fun y _ => Bool.and_comm _ _

/-- The table without the element. -/
def Table.deleted (tbl : Table P) (h : Handles P) (x : P) : Table P :=
  let bkt := hashToBkt (h.hashv x) tbl.numBuckets
  let bucket := tbl.buckets bkt
  let hhHead := if bucket.hhHead = some x then h.chain.next x else bucket.hhHead
  { tbl with
    tail := if x = tbl.tail then (h.app.prev x).getD tbl.tail else tbl.tail
    buckets := Function.update tbl.buckets bkt ⟨hhHead, bucket.count - 1, bucket.expandMult⟩
    numItems := tbl.numItems - 1 }

theorem hashDelete_some (halone : ¬(h.app.prev x = none ∧ h.app.next x = none)) :
    hashDelete ⟨h, some (head, tbl)⟩ x = .ok ⟨{ h with app := h.app.unlink x, chain := h.chain.unlink x },
      some ((if h.app.prev x = none then (h.app.next x).getD head else head), tbl.deleted h x)⟩ := by
  simp only [hashDelete, if_neg halone]
  cases hprev : h.app.prev x with
  | none => simp [hashDelInBkt, unlink, hprev, Table.deleted]; rfl
  | some p => simp [hashDelInBkt, unlink, hprev, Table.deleted]; rfl

theorem Bucketed.delete (hb : Bucketed h.hashv h.chain tbl order) (hx : x ∈ order) :
    Bucketed h.hashv (h.chain.unlink x) (tbl.deleted h x) (order.erase x) := by
  set bkt := bucketOf (h.hashv x) tbl.log2NumBuckets.toNat with hbkt
  have hindex : hashToBkt (h.hashv x) tbl.numBuckets = bkt := hashToBkt_eq hb.numBuckets _
  obtain ⟨ys, zs, hsplit⟩ := List.append_of_mem (mem_inBucket.mpr ⟨hx, hbkt.symm⟩)
  have hlist := hb.chain bkt
  rw [hsplit] at hlist
  have hys : x ∉ ys := fun hmem => (List.nodup_append.mp hlist.nodup).2.2 x hmem x List.mem_cons_self rfl
  have hself : inBucket h.hashv tbl.log2NumBuckets.toNat bkt (order.erase x) = ys ++ zs := by
    rw [inBucket_erase hb.nodup, hsplit, erase_append_cons hys]
  have hother : ∀ b, b ≠ bkt →
      inBucket h.hashv tbl.log2NumBuckets.toNat b (order.erase x) = inBucket h.hashv tbl.log2NumBuckets.toNat b order := by
    intro b hne
    rw [inBucket_erase hb.nodup, List.erase_of_not_mem fun hmem => hne (mem_inBucket.mp hmem).2.symm]
  have hnew : (tbl.deleted h x).buckets bkt = ⟨if (tbl.buckets bkt).hhHead = some x then h.chain.next x else (tbl.buckets bkt).hhHead,
      (tbl.buckets bkt).count - 1, (tbl.buckets bkt).expandMult⟩ := hindex ▸ Function.update_self _ _ _
  have hold : ∀ b, b ≠ bkt → (tbl.deleted h x).buckets b = tbl.buckets b := fun b hne => Function.update_of_ne (hindex ▸ hne) _ _
  refine ⟨hb.nodup.erase x, hb.log2, hb.numBuckets, fun b => ?_, fun b => ?_, fun b => ?_, fun hlog b => ?_⟩
  · change Listed _ (inBucket h.hashv tbl.log2NumBuckets.toNat b (order.erase x))
    by_cases hne : b = bkt
    · rw [hne, hself]
      exact hlist.unlink
    · rw [hother b hne]
      refine (hb.chain b).congr (hlist.agree_unlink fun y hy hmem => ?_)
      rw [← hsplit] at hmem
      exact hne ((mem_inBucket.mp hy).2.symm.trans (mem_inBucket.mp hmem).2)
  · change _ = (inBucket h.hashv tbl.log2NumBuckets.toNat b (order.erase x)).head?
    by_cases hne : b = bkt
    · rw [hne, hnew, hself, hb.hhHead, hsplit]
      cases ys with
      | nil => exact (if_pos rfl).trans hlist.next_eq
      | cons y ys =>
        have hne : y ≠ x := fun heq => hys (heq ▸ List.mem_cons_self)
        exact if_neg fun heq => hne (Option.some.inj heq)
    · rw [hold b hne, hother b hne, hb.hhHead]
  · change _ = UInt32.ofNat (inBucket h.hashv tbl.log2NumBuckets.toNat b (order.erase x)).length
    by_cases hne : b = bkt
    · have hlength : (ys ++ x :: zs).length = (ys ++ zs).length + 1 := by
        rw [List.length_append, List.length_append, List.length_cons, Nat.add_assoc]
      rw [hne, hnew, hself, hb.count, hsplit, hlength, ofNat_pred]
    · rw [hold b hne, hother b hne, hb.count]
  · by_cases hne : b = bkt
    · rw [hne, hnew]
      exact hb.expandMult hlog bkt
    · rw [hold b hne]
      exact hb.expandMult hlog b

/-- Deleting an element leaves the others as they were, in both orders. -/
theorem Represents.delete (hr : Represents hash items order) (hx : x ∈ items) :
    ∃ hash', hashDelete hash x = .ok hash' ∧ Represents hash' (items.erase x) (order.erase x) ∧
      hash'.handles.key = hash.handles.key := by
  obtain ⟨h, _ | ⟨head, tbl⟩⟩ := hash
  · rw [hr.1] at hx
    cases hx
  have hh : Holds h head tbl items order := hr
  by_cases halone : h.app.prev x = none ∧ h.app.next x = none
  · have hitems : items = [x] := (hh.app.alone_iff hx).mp halone
    have horder : order = [x] := List.perm_singleton.mp (hitems ▸ hh.perm)
    refine ⟨⟨h, none⟩, by simp only [hashDelete, if_pos halone]; rfl, ⟨?_, ?_⟩, rfl⟩
    · rw [hitems, List.erase_cons_head]
    · rw [horder, List.erase_cons_head]
  · refine ⟨_, hashDelete_some halone, ?_, rfl⟩
    obtain ⟨ys, zs, rfl⟩ := List.append_of_mem hx
    have hys : x ∉ ys := fun hmem => (List.nodup_append.mp hh.app.nodup).2.2 x hmem x List.mem_cons_self rfl
    have hnext := hh.app.next_eq
    have hprev := hh.app.prev_eq
    rw [erase_append_cons hys]
    refine {
      perm := erase_append_cons hys ▸ hh.perm.erase x
      first := ?_
      app := hh.app.unlink
      tail := ?_
      numItems := ?_
      hashv := fun y hy => hh.hashv y (by simp only [List.mem_append, List.mem_cons] at hy ⊢; tauto)
      buckets := hh.buckets.delete (hh.perm.mem_iff.mpr hx)
      young := fun hlog => ?_ }
    · rw [hprev, hnext] at halone
      rw [hprev, hnext]
      cases ys with
      | nil =>
        cases zs with
        | nil => exact absurd ⟨rfl, rfl⟩ halone
        | cons z zs => rfl
      | cons y ys =>
        have hlast : (y :: ys).getLast? ≠ none := fun hnil => List.cons_ne_nil y ys (List.getLast?_eq_none_iff.mp hnil)
        rw [if_neg hlast]
        exact hh.first
    · have htail := hh.tail
      change _ = some (if x = tbl.tail then (h.app.prev x).getD tbl.tail else tbl.tail)
      rw [hprev]
      cases zs with
      | nil =>
        rw [List.getLast?_concat] at htail
        rw [if_pos (Option.some.inj htail), List.append_nil]
        cases hlast : ys.getLast? with
        | none => exact absurd ⟨hprev.trans hlast, hnext⟩ halone
        | some w => rfl
      | cons z zs =>
        rw [List.getLast?_append_cons, List.getLast?_cons_cons] at htail
        have hne : x ≠ tbl.tail := by
          rintro rfl
          exact (List.nodup_cons.mp (List.nodup_append.mp hh.app.nodup).2.1).1 (List.mem_of_mem_getLast? htail)
        rw [if_neg hne, List.getLast?_append_cons, htail]
    · have hcount := hh.numItems
      rw [List.length_append, List.length_cons] at hcount
      have hone : 1 ≤ tbl.numItems := UInt32.le_iff_toNat_le.mpr (by rw [hcount, UInt32.toNat_one]; omega)
      change (tbl.numItems - 1).toNat = _
      rw [UInt32.toNat_sub_of_le _ _ hone, hcount, List.length_append, UInt32.toNat_one]
      omega
    · have hzs : x ∉ zs.reverse := fun hmem => (List.nodup_cons.mp (List.nodup_append.mp hh.app.nodup).2.1).1 (List.mem_reverse.mp hmem)
      rw [hh.young hlog, List.reverse_append, List.reverse_cons, List.append_assoc, List.singleton_append, erase_append_cons hzs,
        List.reverse_append]

/-! ### Finding an element -/

omit [DecidableEq P] in
theorem hashFindInBkt_ok {hashval : UInt32} {xs : List P} (ahead : h.chain.Ahead xs) {turns : Nat} (enough : xs.length ≤ turns) :
    hashFindInBkt h key hashval turns xs.head? =
      .ok (xs.find? fun x => h.hashv x == hashval && h.key x == key) := by
  induction xs generalizing turns with
  | nil => cases turns <;> rfl
  | cons x xs ih =>
    obtain ⟨turns, rfl⟩ : ∃ t, turns = t + 1 := ⟨turns - 1, by rw [List.length_cons] at enough; omega⟩
    rw [List.head?_cons, hashFindInBkt, ahead.1, ih ahead.2 (Nat.le_of_succ_le_succ enough)]
    by_cases hfound : h.hashv x = hashval ∧ h.key x = key
    · rw [if_pos ⟨hfound.1, congrArg _ hfound.2, hfound.2⟩, List.find?_cons_of_pos (by simp [hfound])]
      rfl
    · rw [if_neg fun hall => hfound ⟨hall.1, hall.2.2⟩, List.find?_cons_of_neg (by simpa using hfound)]

omit [DecidableEq P] in
/-- A lookup gives the first element of the bucket order that has the key. -/
theorem Represents.find (hr : Represents hash items order) (key : List UInt8) :
    hashFind hash key = .ok (order.find? fun x => hash.handles.key x == key) := by
  obtain ⟨h, _ | ⟨head, tbl⟩⟩ := hash
  · rw [hr.2]
    rfl
  have hh : Holds h head tbl items order := hr
  have hb := hh.buckets
  have hlength : (inBucket h.hashv tbl.log2NumBuckets.toNat (bucketOf (hashJen key) tbl.log2NumBuckets.toNat) order).length ≤
      tbl.numItems.toNat := by
    rw [hh.numItems, ← hh.perm.length_eq]
    exact List.length_filter_le _ _
  simp only [hashFind]
  rw [hashToBkt_eq hb.numBuckets, hb.hhHead, hashFindInBkt_ok (hb.chain _).ahead hlength, inBucket, List.find?_filter]
  congr 1
  refine List.find?_congr fun x hx => ?_
  have hv := hh.hashv x (hh.perm.mem_iff.mp hx)
  by_cases hkey : h.key x = key
  · rw [hkey] at hv
    simp [hkey, hv]
  · simp [hkey]

omit [DecidableEq P] in
theorem Represents.nodup (hr : Represents hash items order) : items.Nodup := by
  obtain ⟨h, _ | ⟨head, tbl⟩⟩ := hash
  · rw [hr.1]
    exact .nil
  · exact Holds.app hr |>.nodup

omit [DecidableEq P] in
theorem Represents.perm (hr : Represents hash items order) : order.Perm items := by
  obtain ⟨h, _ | ⟨head, tbl⟩⟩ := hash
  · rw [hr.1, hr.2]
  · exact Holds.perm hr

omit [DecidableEq P] in
/-- Without an expansion, the latest element comes first. -/
theorem Represents.young (hr : Represents hash items order) (hlog : hash.log2 = initialNumBucketsLog2.toNat) : order = items.reverse := by
  obtain ⟨h, _ | ⟨head, tbl⟩⟩ := hash
  · rw [hr.1, hr.2]
    rfl
  · exact Holds.young hr hlog

omit [DecidableEq P] in
theorem Represents.null (hr : Represents hash [] order) : hash = ⟨hash.handles, none⟩ := by
  obtain ⟨h, _ | ⟨head, tbl⟩⟩ := hash
  · rfl
  · cases Holds.first hr

omit [DecidableEq P] in
theorem Represents.next {xs : List P} (hr : Represents hash (x :: xs) order) : hash.handles.app.next x = xs.head? := by
  obtain ⟨h, _ | ⟨head, tbl⟩⟩ := hash
  · cases hr.1
  · exact (Holds.app hr).ahead.1

omit [DecidableEq P] in
theorem Represents.hashv (hr : Represents hash items order) (hx : x ∈ items) : hash.handles.hashv x = hashJen (hash.handles.key x) := by
  obtain ⟨h, _ | ⟨head, tbl⟩⟩ := hash
  · rw [hr.1] at hx
    cases hx
  · exact Holds.hashv hr x hx

/-! ### Two hashes to which the same was added -/

/-- Both hold the same elements with the same keys, in the same order in their buckets. -/
structure Twins (hash₁ hash₂ : Hash P) (items order : List P) : Prop where
  first : Represents hash₁ items order
  second : Represents hash₂ items order
  table : hash₁.head.map Prod.snd = hash₂.head.map Prod.snd
  keys : ∀ x ∈ items, hash₁.handles.key x = hash₂.handles.key x

variable {hash₁ hash₂ hash₁' hash₂' : Hash P} {room₁ room₂ : Alloc}

omit [DecidableEq P] in
theorem Hash.tableFor_congr (h : hash₁.head.map Prod.snd = hash₂.head.map Prod.snd) (x : P) : hash₁.tableFor x = hash₂.tableFor x := by
  obtain ⟨h₁, _ | ⟨head₁, tbl₁⟩⟩ := hash₁ <;> obtain ⟨h₂, _ | ⟨head₂, tbl₂⟩⟩ := hash₂
  · rfl
  · cases h
  · cases h
  · obtain rfl : tbl₁ = tbl₂ := Option.some.inj h
    rfl

omit [DecidableEq P] in
theorem Hash.log2_of_table (h : hash.head.map Prod.snd = some tbl) : hash.log2 = tbl.log2NumBuckets.toNat := by
  obtain ⟨h, _ | ⟨head, tbl'⟩⟩ := hash
  · cases h
  · rw [← Option.some.inj h]
    rfl

omit [DecidableEq P] in
theorem Twins.log2 (ht : Twins hash₁ hash₂ items order) (x : P) : hash₁.log2 = hash₂.log2 := by
  rw [hash₁.log2_eq x, hash₂.log2_eq x, Hash.tableFor_congr ht.table]

/-- Whether an expansion turns the order around does not depend on the memory. -/
theorem Twins.add (ht : Twins hash₁ hash₂ items order) (hx : x ∉ items) (few : items.length + 1 < 2 ^ 32)
    (modest₁ : hash₁.log2 < 31 ∨ Modest room₁) (modest₂ : hash₂.log2 < 31 ∨ Modest room₂)
    (run₁ : hashAddKeyptr room₁ hash₁ key x = .ok hash₁') (run₂ : hashAddKeyptr room₂ hash₂ key x = .ok hash₂') :
    ∃ order', Twins hash₁' hash₂' (items ++ [x]) order' := by
  have hadded {hash hash' : Hash P} {room : Alloc} (hr : Represents hash items order) (modest : hash.log2 < 31 ∨ Modest room)
      (run : hashAddKeyptr room hash key x = .ok hash') : ∃ order', Added hash items order key x hash' order' := by
    rcases hr.add key hx few modest with ⟨hexit, -⟩ | ⟨hash'', order', hrun, hadd⟩
    · rw [run] at hexit
      cases hexit
    · rw [run] at hrun
      cases hrun
      exact ⟨order', hadd⟩
  obtain ⟨order₁, h₁⟩ := hadded ht.first modest₁ run₁
  obtain ⟨order₂, h₂⟩ := hadded ht.second modest₂ run₂
  have hkeys : ∀ y ∈ items ++ [x], hash₁'.handles.key y = hash₂'.handles.key y := by
    intro y hy
    rw [h₁.key, h₂.key]
    by_cases hyx : y = x
    · rw [hyx, Function.update_self, Function.update_self]
    · rw [Function.update_of_ne hyx, Function.update_of_ne hyx]
      exact ht.keys y ((List.mem_append.mp hy).resolve_right fun hmem => hyx (List.mem_singleton.mp hmem))
  have hhashv : ∀ y ∈ x :: order, hash₁'.handles.hashv y = hash₂'.handles.hashv y := by
    intro y hy
    have hmem : y ∈ items ++ [x] := by
      rcases List.mem_cons.mp hy with rfl | hy
      · exact List.mem_append_right _ List.mem_cons_self
      · exact List.mem_append_left _ (ht.first.perm.mem_iff.mp hy)
    rw [h₁.represents.hashv hmem, h₂.represents.hashv hmem, hkeys y hmem]
  have htable : hash₁'.head.map Prod.snd = hash₂'.head.map Prod.snd := by
    rw [h₁.table, h₂.table, Hash.tableFor_congr ht.table, Table.grown_congr hhashv]
  have horder : order₁ = order₂ := by
    have hold := ht.log2 x
    have hnew : hash₁'.log2 = hash₂'.log2 := by rw [Hash.log2_of_table (htable.trans h₂.table), Hash.log2_of_table h₂.table]
    rcases h₁.grown with ⟨rfl, hlog₁⟩ | ⟨rfl, hlog₁, -⟩ <;> rcases h₂.grown with ⟨rfl, hlog₂⟩ | ⟨rfl, hlog₂, -⟩
    · rfl
    · omega
    · omega
    · rfl
  exact ⟨order₁, h₁.represents, horder ▸ h₂.represents, htable, hkeys⟩

omit [DecidableEq P] in
theorem Twins.find (ht : Twins hash₁ hash₂ items order) (key : List UInt8) : hashFind hash₁ key = hashFind hash₂ key := by
  rw [ht.first.find, ht.second.find]
  refine congrArg Except.ok (List.find?_congr fun x hx => ?_)
  rw [ht.keys x (ht.first.perm.mem_iff.mp hx)]

end Whole

end Vcmp.Uthash
