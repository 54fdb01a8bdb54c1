import Vcmp.Theorems.Uthash

/-! Any number of calls of `HASH_ADD` and `HASH_DEL`, one after another, and what `HASH_FSCK` and `HASH_FIND` say of the hash
that they leave. -/

namespace Vcmp.Uthash
open Links

variable {P : Type}

/-! ### Calls one after another -/

section Calls
variable [DecidableEq P] {h : Handles P} {tbl : Table P} {hash : Hash P} {items order : List P} {x head : P} {room : Alloc}
  {key : List UInt8} {es : List (P × List UInt8)} {call : Call P} {calls : List (Call P)}

/-- The elements and their keys after a call. -/
def Call.entries (es : List (P × List UInt8)) : Call P → List (P × List UInt8)
  | .add _ key x => es ++ [(x, key)]
  | .del x => es.filter fun e => e.1 ≠ x

def entriesAfter (es : List (P × List UInt8)) (calls : List (Call P)) : List (P × List UInt8) := calls.foldl Call.entries es

/-- An element is added only while the hash does not have it, and deleted only while it does. There are fewer than `2 ^ 32` of
    them, each key has fewer bytes than that, and no block of 64 GiB is given. -/
def Call.Proper (es : List (P × List UInt8)) : Call P → Prop
  | .add room key x => x ∉ es.map Prod.fst ∧ es.length + 1 < 2 ^ 32 ∧ key.length < 2 ^ 32 ∧ Modest room
  | .del x => x ∈ es.map Prod.fst

def Proper (es : List (P × List UInt8)) : List (Call P) → Prop
  | [] => True
  | call :: calls => call.Proper es ∧ Proper (call.entries es) calls

/-- The call lacks memory at that hash. -/
def Call.Lacks (hash : Hash P) : Call P → Prop
  | .add room _ _ => hash.Lacks room
  | .del _ => False

/-- The calls up to one that lacks memory were made. -/
def Lacking (hash : Hash P) (calls : List (Call P)) : Prop :=
  ∃ before call after hash', calls = before ++ call :: after ∧ hashCalls hash before = .ok hash' ∧ call.Lacks hash'

/-- The hash has these elements with these keys. -/
def Keeps (hash : Hash P) (es : List (P × List UInt8)) : Prop :=
  (∃ order, Represents hash (es.map Prod.fst) order) ∧ ∀ e ∈ es, hash.handles.key e.1 = e.2

theorem Keeps.afterCall (hk : Keeps hash es) (proper : call.Proper es) :
    (hashCall hash call = .error .exit ∧ call.Lacks hash) ∨ ∃ hash', hashCall hash call = .ok hash' ∧ Keeps hash' (call.entries es) := by
  obtain ⟨⟨order, hr⟩, hkeys⟩ := hk
  cases call with
  | add room key x =>
    obtain ⟨hx, few, -, modest⟩ := proper
    rcases hr.add key hx (by rwa [List.length_map]) (Or.inr modest) with hexit | ⟨hash', order', hrun, hadded⟩
    · exact Or.inl hexit
    refine Or.inr ⟨hash', hrun, ⟨order', ?_⟩, fun e he => ?_⟩
    · rw [Call.entries, List.map_append]
      exact hadded.represents
    · rw [hadded.key]
      rcases List.mem_append.mp he with he | he
      · have hne : e.1 ≠ x := fun heq => hx (heq ▸ List.mem_map_of_mem he)
        rw [Function.update_of_ne hne, hkeys e he]
      · rw [List.mem_singleton.mp he, Function.update_self]
  | del x =>
    obtain ⟨hash', hrun, hr', hkey⟩ := hr.delete proper
    refine Or.inr ⟨hash', hrun, ⟨order.erase x, ?_⟩, fun e he => ?_⟩
    · rw [hr.nodup.erase_eq_filter, List.filter_map] at hr'
      rw [Call.entries]
      refine cast ?_ hr'
      congr 2
      exact List.filter_congr fun e _ => by simp [bne, beq_eq_decide]
    · rw [hkey, hkeys e (List.mem_of_mem_filter he)]

omit [DecidableEq P] in
theorem keeps_empty (h : Handles P) : Keeps ⟨h, none⟩ [] := ⟨⟨[], rfl, rfl⟩, fun _ he => by cases he⟩

theorem hashCalls_cons {hash' : Hash P} (h : hashCall hash call = .ok hash') (calls : List (Call P)) :
    hashCalls hash (call :: calls) = hashCalls hash' calls := by
  rw [hashCalls, h]
  rfl

/-- Whatever the calls are, the hash has what was added and not deleted since, unless the process ended for want of memory. -/
theorem Keeps.afterCalls (hk : Keeps hash es) (proper : Proper es calls) :
    (hashCalls hash calls = .error .exit ∧ Lacking hash calls) ∨
      ∃ hash', hashCalls hash calls = .ok hash' ∧ Keeps hash' (entriesAfter es calls) := by
  induction calls generalizing hash es with
  | nil => exact Or.inr ⟨hash, rfl, hk⟩
  | cons call calls ih =>
    rcases hk.afterCall proper.1 with ⟨hexit, hlacks⟩ | ⟨hash', hrun, hk'⟩
    · exact Or.inl ⟨by rw [hashCalls, hexit]; rfl, [], call, calls, hash, rfl, rfl, hlacks⟩
    · rw [hashCalls_cons hrun]
      rcases ih hk' proper.2 with ⟨hexit, before, call', after, hash'', rfl, hbefore, hlacks⟩ | hok
      · exact Or.inl ⟨hexit, call :: before, call', after, hash'', rfl, (hashCalls_cons hrun before).trans hbefore, hlacks⟩
      · exact Or.inr hok

/-! ### What the calls leave -/

theorem fsckChain_ok {l : Links P} {xs ys : List P} (hl : l.Listed (ys ++ xs)) (count : Nat) {turns : Nat} (enough : xs.length ≤ turns) :
    fsckChain l (.ofNat count) ys.getLast? turns xs.head? = .ok (some (.ofNat (count + xs.length))) := by
  induction xs generalizing ys count turns with
  | nil => cases turns <;> rfl
  | cons x xs ih =>
    obtain ⟨turns, rfl⟩ : ∃ t, turns = t + 1 := ⟨turns - 1, by rw [List.length_cons] at enough; omega⟩
    have hnext := hl.next_eq
    have hprev := hl.prev_eq
    rw [List.append_cons] at hl
    have hrest := ih hl (count + 1) (Nat.le_of_succ_le_succ enough)
    rw [List.getLast?_concat] at hrest
    rw [List.head?_cons, fsckChain, if_neg fun hne => hne hprev.symm, hnext, ofNat_succ, hrest, List.length_cons, Nat.add_assoc,
      Nat.add_comm 1]

theorem Bucketed.fsck (hb : Bucketed h.hashv h.chain tbl order) (enough : order.length ≤ tbl.numItems.toNat) (i n : Nat) :
    fsckBuckets h tbl i (.ofNat (walked h.hashv tbl.log2NumBuckets.toNat order i).length) n =
      .ok (some (.ofNat (walked h.hashv tbl.log2NumBuckets.toNat order (i + n)).length)) := by
  induction n generalizing i with
  | zero => rfl
  | succ n ih =>
    have hlength : (inBucket h.hashv tbl.log2NumBuckets.toNat i order).length ≤ tbl.numItems.toNat :=
      (List.length_filter_le _ _).trans enough
    have hlist : h.chain.Listed ([] ++ inBucket h.hashv tbl.log2NumBuckets.toNat i order) := hb.chain i
    have hchain := fsckChain_ok hlist 0 hlength
    rw [← hb.hhHead, Nat.zero_add] at hchain
    have hrest := ih (i + 1)
    rw [walked_succ, List.length_append, UInt32.ofNat_add, Nat.add_assoc, Nat.add_comm 1] at hrest
    rw [fsckBuckets]
    change (fsckChain h.chain (.ofNat 0) [].getLast? tbl.numItems.toNat (tbl.buckets i).hhHead >>= _) = _
    rw [hchain]
    change (if _ then _ else _) = _
    rw [if_neg fun hne => hne (hb.count i), hrest]

omit [DecidableEq P] in
theorem Bucketed.walked_length (hb : Bucketed h.hashv h.chain tbl order) :
    (walked h.hashv tbl.log2NumBuckets.toNat order (0 + tbl.numBuckets.toNat)).length = order.length := by
  have hlt : ∀ x, bucketOf (h.hashv x) tbl.log2NumBuckets.toNat < tbl.numBuckets.toNat := fun x => by
    rw [hb.numBuckets]
    exact Nat.mod_lt _ (Nat.two_pow_pos _)
  have hnodup : (walked h.hashv tbl.log2NumBuckets.toNat order (0 + tbl.numBuckets.toNat)).Nodup := by
    refine List.nodup_flatMap.mpr ⟨fun b _ => hb.nodup.filter _, ?_⟩
    refine List.nodup_range.imp fun {b c} hne => ?_
    intro x hx hx'
    exact hne ((mem_inBucket.mp hx).2.symm.trans (mem_inBucket.mp hx').2)
  refine ((List.perm_ext_iff_of_nodup hnodup hb.nodup).mpr fun x => ?_).length_eq
  rw [mem_walked, Nat.zero_add]
  exact and_iff_left (hlt x)

/-- The check of the developers of the hash never complains. -/
theorem Represents.fsck (hr : Represents hash items order) : hashFsck hash = .ok true := by
  obtain ⟨h, _ | ⟨head, tbl⟩⟩ := hash
  · rfl
  have hh : Holds h head tbl items order := hr
  have hcount : UInt32.ofNat items.length = tbl.numItems := by rw [← hh.numItems, UInt32.ofNat_toNat]
  have hlength : UInt32.ofNat order.length = tbl.numItems := by rw [hh.perm.length_eq, hcount]
  have hbuckets := hh.buckets.fsck (hh.perm.length_eq.trans hh.numItems.symm).le 0 tbl.numBuckets.toNat
  have hlist : h.app.Listed ([] ++ items) := hh.app
  have happ := fsckChain_ok hlist 0 hh.numItems.ge
  rw [hh.first, Nat.zero_add, hcount] at happ
  rw [hh.buckets.walked_length, hlength] at hbuckets
  rw [hashFsck]
  change (fsckBuckets h tbl 0 (.ofNat 0) tbl.numBuckets.toNat >>= _) = _
  refine (congrArg (· >>= _) hbuckets).trans ?_
  change (if _ then _ else _) = _
  rw [if_neg fun hne => hne rfl]
  change (fsckChain h.app (.ofNat 0) [].getLast? tbl.numItems.toNat (some head) >>= _) = _
  rw [happ]
  exact congrArg Except.ok (decide_eq_true rfl)

variable (h) in
/-- Whatever is added and deleted, the hash passes the check of its developers, unless the process ended for want of memory. -/
theorem hashCalls_fsck (proper : Proper [] calls) :
    (hashCalls ⟨h, none⟩ calls = .error .exit ∧ Lacking ⟨h, none⟩ calls) ∨
      ∃ hash, hashCalls ⟨h, none⟩ calls = .ok hash ∧ hashFsck hash = .ok true := by
  rcases (keeps_empty h).afterCalls proper with hexit | ⟨hash, hrun, ⟨order, hr⟩, -⟩
  · exact Or.inl hexit
  · exact Or.inr ⟨hash, hrun, hr.fsck⟩

/-- `a` and `b` are added, and the first is deleted again. -/
def sampleCalls : List (Call Nat) := [.add ampleRoom [97] 0, .add ampleRoom [98] 1, .del 0]

theorem sampleCalls_proper : Proper [] sampleCalls := by
  simp [sampleCalls, Proper, Call.Proper, Call.entries, ampleRoom_modest]

/-- Handles that nothing was written to. -/
def blankHandles : Handles Nat := ⟨⟨fun _ => none, fun _ => none⟩, ⟨fun _ => none, fun _ => none⟩, fun _ => [], fun _ => 0⟩

theorem sampleCalls_run : (hashCalls ⟨blankHandles, none⟩ sampleCalls).isOk = true := by
  decide +kernel

theorem sampleCalls_room : hashCalls ⟨blankHandles, none⟩ sampleCalls ≠ .error .exit := by
  intro hexit
  have hok := sampleCalls_run
  rw [hexit] at hok
  cases hok

theorem hashCalls_fsck_sample :
    Proper [] sampleCalls ∧ ∃ hash, hashCalls ⟨blankHandles, none⟩ sampleCalls = .ok hash ∧ hashFsck hash = .ok true :=
  ⟨sampleCalls_proper, (hashCalls_fsck blankHandles sampleCalls_proper).resolve_left fun hexit => sampleCalls_room hexit.1⟩

variable (h) in
/-- Whatever is added and deleted, a lookup comes to its end; it finds an element whose key is the one asked for, if there is one. -/
theorem hashCalls_find (proper : Proper [] calls) :
    (hashCalls ⟨h, none⟩ calls = .error .exit ∧ Lacking ⟨h, none⟩ calls) ∨
      ∃ hash, hashCalls ⟨h, none⟩ calls = .ok hash ∧ ∀ key, key.length < 2 ^ 32 → ∃ out, hashFind hash key = .ok out ∧
        (∀ x, out = some x → (x, key) ∈ entriesAfter [] calls) ∧ (out = none → ∀ e ∈ entriesAfter [] calls, e.2 ≠ key) := by
  rcases (keeps_empty h).afterCalls proper with hexit | ⟨hash, hrun, ⟨order, hr⟩, hkeys⟩
  · exact Or.inl hexit
  refine Or.inr ⟨hash, hrun, fun key _ => ⟨_, hr.find key, fun x hx => ?_, fun hnone e he heq => ?_⟩⟩
  · obtain ⟨e, he, rfl⟩ := List.mem_map.mp (hr.perm.mem_iff.mp (List.mem_of_find?_eq_some hx))
    have hkey := List.find?_some hx
    rw [hkeys e he, beq_iff_eq] at hkey
    rwa [← hkey]
  · have hmem := hr.perm.mem_iff.mpr (List.mem_map_of_mem he)
    have hkey := List.find?_eq_none.mp hnone _ hmem
    rw [hkeys e he, heq] at hkey
    exact hkey BEq.rfl

theorem hashCalls_find_sample :
    ∃ hash, hashCalls ⟨blankHandles, none⟩ sampleCalls = .ok hash ∧ ∀ key, key.length < 2 ^ 32 → ∃ out, hashFind hash key = .ok out ∧
      (∀ x, out = some x → (x, key) ∈ [(1, [98])]) ∧ (out = none → ∀ e ∈ [((1 : Nat), [(98 : UInt8)])], e.2 ≠ key) :=
  (hashCalls_find blankHandles sampleCalls_proper).resolve_left fun hexit => sampleCalls_room hexit.1

end Calls

end Vcmp.Uthash
