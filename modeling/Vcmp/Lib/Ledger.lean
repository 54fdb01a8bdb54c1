import Mathlib.Data.List.Perm.Basic
import Mathlib.Data.Set.Finite.Basic
import Mathlib.Logic.Function.Basic

/-! Programs on a heap of blocks, and the ledger of the blocks that a program owns: what it allocated and did not free, in any
order. All other blocks stay as they are. -/

namespace Ledger

/-- The blocks that are allocated, and how many requests were made of the allocator. -/
structure Heap (P C : Type) where
  cells : P → Option C
  requests : Nat

/-- Why a program stops: it follows `NULL`, or a pointer to no block of the kind, or a loop takes more turns than it was given. -/
inductive Fault where
  | null
  | dangling
  | fuel
  deriving DecidableEq

/-- The address for a request, if there is one; no block lies there. -/
structure Allocator (P C : Type) where
  choose : (P → Option C) → Nat → Option P
  fresh : ∀ cells n p, choose cells n = some p → cells p = none

abbrev HeapM (P C : Type) := StateT (Heap P C) (Except Fault)

section Programs
variable {P C : Type} [DecidableEq P]

/-- `*p` -/
def load (p : Option P) : HeapM P C C := fun h =>
  match p with
  | none => .error .null
  | some p =>
    match h.cells p with
    | none => .error .dangling
    | some c => .ok (c, h)

/-- `*p = c` -/
def store (p : P) (c : C) : HeapM P C Unit := fun h =>
  match h.cells p with
  | none => .error .dangling
  | some _ => .ok ((), { h with cells := Function.update h.cells p (some c) })

/-- `malloc`, with what the block is filled with first. -/
def malloc (A : Allocator P C) (c : C) : HeapM P C (Option P) := fun h =>
  match A.choose h.cells h.requests with
  | none => .ok (none, { h with requests := h.requests + 1 })
  | some p => .ok (some p, ⟨Function.update h.cells p (some c), h.requests + 1⟩)

/-- `free(p)`, which may be `NULL`. -/
def free (p : Option P) : HeapM P C Unit := fun h =>
  match p with
  | none => .ok ((), h)
  | some p =>
    match h.cells p with
    | none => .error .dangling
    | some _ => .ok ((), { h with cells := Function.update h.cells p none })

end Programs

/-! ### Ledgers -/

variable {P C α β : Type} {base : P → Option C} {l l' : List (P × C)} {p : P} {c c' : C} {h h' : Heap P C}

/-- The heap is `base` with the blocks of the ledger. -/
structure Holds (base : P → Option C) (h : Heap P C) (l : List (P × C)) : Prop where
  nodup : (l.map Prod.fst).Nodup
  new : ∀ b ∈ l, base b.1 = none
  cell : ∀ b ∈ l, h.cells b.1 = some b.2
  other : ∀ p, p ∉ l.map Prod.fst → h.cells p = base p

theorem holds_nil : Holds base h [] ↔ h.cells = base :=
  ⟨fun hold => funext fun p => hold.other p List.not_mem_nil,
    fun heq => ⟨List.nodup_nil, List.forall_mem_nil _, List.forall_mem_nil _, fun p _ => congrFun heq p⟩⟩

theorem Holds.perm (hold : Holds base h l) (hl : l.Perm l') : Holds base h l' :=
  ⟨(hl.map Prod.fst).nodup_iff.mp hold.nodup, fun b hb => hold.new b (hl.mem_iff.mpr hb), fun b hb => hold.cell b (hl.mem_iff.mpr hb),
    fun p hp => hold.other p fun hmem => hp ((hl.map Prod.fst).mem_iff.mp hmem)⟩

/-- The order of a ledger does not matter. -/
theorem Holds.counted [BEq (P × C)] [LawfulBEq (P × C)] (hold : Holds base h l) (hcount : ∀ b, l.count b = l'.count b) : Holds base h l' :=
  hold.perm (List.perm_iff_count.mpr hcount)

theorem Holds.requests (hold : Holds base h l) (n : Nat) : Holds base { h with requests := n } l :=
  ⟨hold.nodup, hold.new, hold.cell, hold.other⟩

theorem Holds.apart (hold : Holds base h ((p, c) :: l)) {b : P × C} (hb : b ∈ l) : b.1 ≠ p := by
  rintro rfl
  have hmem : b.1 ∈ l.map Prod.fst := List.mem_map_of_mem hb
  exact (List.nodup_cons.mp hold.nodup).1 hmem

/-- There is memory for every request on top of `base`. -/
def Allocator.Ample (A : Allocator P C) (base : P → Option C) : Prop :=
  ∀ h l, Holds base h l → (A.choose h.cells h.requests).isSome = true

theorem Allocator.Ample.isSome {A : Allocator P C} (ample : A.Ample base) (hold : Holds base h l) {q : Option P}
    (hq : q = A.choose h.cells h.requests) : q.isSome = true := hq ▸ ample h l hold

/-- Any address where there is no block. -/
noncomputable def Allocator.any (P C : Type) : Allocator P C where
  choose cells _ :=
    haveI := Classical.propDecidable (∃ p, cells p = none)
    if h : ∃ p, cells p = none then some h.choose else none
  fresh cells _ p h := by
    split at h
    next hfree => exact Option.some.inj h ▸ hfree.choose_spec
    · cases h

/-- Over finitely many blocks the addresses do not come to an end. -/
theorem ample_any [Infinite P] (finite : {p | base p ≠ none}.Finite) : (Allocator.any P C).Ample base := by
  intro h l hold
  have hfree : ∃ p, h.cells p = none := by
    obtain ⟨p, hp⟩ := (finite.union (l.map Prod.fst).finite_toSet).exists_notMem
    obtain ⟨hbase, hmem⟩ := not_or.mp hp
    exact ⟨p, (hold.other p hmem).trans (not_not.mp hbase)⟩
  simp only [Allocator.any, dif_pos hfree, Option.isSome_some]

section Updates
variable [DecidableEq P]

theorem Holds.alloc (hold : Holds base h l) (fresh : h.cells p = none) (c : C) :
    Holds base { h with cells := Function.update h.cells p (some c) } ((p, c) :: l) := by
  have hp : p ∉ l.map Prod.fst := by
    intro hmem
    obtain ⟨b, hb, rfl⟩ := List.mem_map.mp hmem
    cases fresh.symm.trans (hold.cell b hb)
  refine ⟨List.nodup_cons.mpr ⟨hp, hold.nodup⟩, List.forall_mem_cons.mpr ⟨?_, hold.new⟩, List.forall_mem_cons.mpr ⟨?_, ?_⟩, ?_⟩
  · exact (hold.other p hp).symm.trans fresh
  · exact Function.update_self p (some c) h.cells
  · intro b hb
    have hne : b.1 ≠ p := fun heq => hp (heq ▸ List.mem_map_of_mem hb)
    exact (Function.update_of_ne hne _ _).trans (hold.cell b hb)
  · intro q hq
    obtain ⟨hne, hmem⟩ := not_or.mp (List.mem_cons.not.mp hq)
    exact (Function.update_of_ne hne _ _).trans (hold.other q hmem)

theorem Holds.update (hold : Holds base h ((p, c) :: l)) (c' : C) :
    Holds base { h with cells := Function.update h.cells p (some c') } ((p, c') :: l) := by
  refine ⟨hold.nodup, List.forall_mem_cons.mpr (List.forall_mem_cons.mp hold.new), List.forall_mem_cons.mpr ⟨?_, fun b hb => ?_⟩, ?_⟩
  · exact Function.update_self p (some c') h.cells
  · exact (Function.update_of_ne (hold.apart hb) _ _).trans (hold.cell b (List.mem_cons_of_mem _ hb))
  · intro q hq
    exact (Function.update_of_ne (not_or.mp (List.mem_cons.not.mp hq)).1 _ _).trans (hold.other q hq)

theorem Holds.freed (hold : Holds base h ((p, c) :: l)) : Holds base { h with cells := Function.update h.cells p none } l := by
  refine ⟨(List.nodup_cons.mp hold.nodup).2, (List.forall_mem_cons.mp hold.new).2, fun b hb => ?_, fun q hq => ?_⟩
  · exact (Function.update_of_ne (hold.apart hb) _ _).trans (hold.cell b (List.mem_cons_of_mem _ hb))
  · dsimp only
    by_cases hqp : q = p
    · rw [hqp, Function.update_self]
      exact ((List.forall_mem_cons.mp hold.new).1).symm
    · rw [Function.update_of_ne hqp]
      exact hold.other q (not_or.mpr ⟨hqp, hq⟩ ∘ List.mem_cons.mp)

end Updates

/-! ### Rules -/

/-- From the heap the program comes to a result with `Q`, or stops with `F`. -/
def Ends (x : HeapM P C α) (F : Fault → Prop) (Q : α → Heap P C → Prop) (h : Heap P C) : Prop :=
  match x.run h with
  | .ok r => Q r.1 r.2
  | .error e => F e

section Rules
variable {x : HeapM P C α} {f : α → HeapM P C β} {a : α} {F F' : Fault → Prop} {Q Q' : α → Heap P C → Prop}
  {R : β → Heap P C → Prop} {e : Fault}

theorem ends_pure (hq : Q a h) : Ends (pure a) F Q h := hq

theorem Ends.bind (hx : Ends x F (fun a => Ends (f a) F R) h) : Ends (x >>= f) F R h := by
  unfold Ends at hx ⊢
  rw [StateT.run_bind]
  cases hrun : x.run h with
  | error e =>
    rw [hrun] at hx
    exact hx
  | ok r =>
    rw [hrun] at hx
    exact hx

theorem Ends.mono (hx : Ends x F Q h) (hF : ∀ e, F e → F' e) (hQ : ∀ a h, Q a h → Q' a h) : Ends x F' Q' h := by
  unfold Ends at hx ⊢
  cases hrun : x.run h with
  | error e =>
    rw [hrun] at hx
    exact hF e hx
  | ok r =>
    rw [hrun] at hx
    exact hQ r.1 r.2 hx

theorem ends_load {Q : C → Heap P C → Prop} (hold : Holds base h l) (hp : (p, c) ∈ l) (hq : Q c h) :
    Ends (load (some p)) F Q h := by
  have hcell : h.cells p = some c := hold.cell _ hp
  simp only [Ends, StateT.run, load, hcell]
  exact hq

theorem ends_load_null {Q : C → Heap P C → Prop} (he : F .null) : Ends (load (none : Option P)) F Q h := he

variable [DecidableEq P]

theorem ends_store {Q : Unit → Heap P C → Prop} (hold : Holds base h ((p, c) :: l))
    (hq : ∀ h', Holds base h' ((p, c') :: l) → Q () h') : Ends (store p c') F Q h := by
  have hcell : h.cells p = some c := hold.cell _ List.mem_cons_self
  simp only [Ends, StateT.run, store, hcell]
  exact hq _ (hold.update c')

theorem ends_malloc {A : Allocator P C} {Q : Option P → Heap P C → Prop} (hold : Holds base h l)
    (hq : ∀ p h', p = A.choose h.cells h.requests → Holds base h' ((p.map fun p => (p, c)).toList ++ l) → Q p h') :
    Ends (malloc A c) F Q h := by
  cases hchoose : A.choose h.cells h.requests with
  | none =>
    simp only [Ends, StateT.run, malloc, hchoose]
    exact hq none _ hchoose.symm (hold.requests (h.requests + 1))
  | some p =>
    simp only [Ends, StateT.run, malloc, hchoose]
    exact hq (some p) _ hchoose.symm ((hold.alloc (A.fresh _ _ _ hchoose) c).requests (h.requests + 1))

theorem ends_free {Q : Unit → Heap P C → Prop} (hold : Holds base h ((p, c) :: l)) (hq : ∀ h', Holds base h' l → Q () h') :
    Ends (free (some p)) F Q h := by
  have hcell : h.cells p = some c := hold.cell _ List.mem_cons_self
  simp only [Ends, StateT.run, free, hcell]
  exact hq _ hold.freed

theorem ends_free_null {Q : Unit → Heap P C → Prop} (hq : Q () h) : Ends (free (none : Option P)) F Q h := hq

end Rules

/-! ### Linked lists -/

/-- A place that holds a pointer: a field of a block of some kind. -/
structure Slot (P C : Type) where
  block : P
  get : C → Option (Option P)
  set : C → Option P → C
  set_get : ∀ c q, get c = some q → set c q = c

def Slot.read (s : Slot P C) : HeapM P C (Option P) := do
  match s.get (← load (some s.block)) with
  | some p => return p
  | none => throw .dangling

def Slot.write [DecidableEq P] (s : Slot P C) (q : Option P) : HeapM P C Unit := do
  let c ← load (some s.block)
  store s.block (s.set c q)

/-- `while (*cur != NULL) cur = &(*cur)->next` -/
def lastSlot (next : P → Slot P C) : Nat → Slot P C → HeapM P C (Slot P C)
  | 0, _ => throw .fuel
  | fuel + 1, cur => do
    match ← cur.read with
    | none => return cur
    | some p => lastSlot next fuel (next p)

/-- Nodes of a list: each is a block with a link, and what it owns besides. -/
structure Shape (P C N : Type) where
  block : N → P
  cell : N → Option P → C
  own : N → List (P × C)
  next : P → Slot P C
  next_block : ∀ p, (next p).block = p
  get_cell : ∀ n q, (next (block n)).get (cell n q) = some q
  set_cell : ∀ n q q', (next (block n)).set (cell n q) q' = cell n q'

namespace Shape
variable {N : Type} (S : Shape P C N)

/-- The pointer to the first node, or to what is behind them. -/
def head (tail : Option P) : List N → Option P
  | [] => tail
  | n :: _ => some (S.block n)

/-- The blocks of nodes that are linked, the last one to `tail`. -/
def segment (tail : Option P) : List N → List (P × C)
  | [] => []
  | n :: ns => (S.block n, S.cell n (S.head tail ns)) :: (S.own n ++ segment tail ns)

/-- The slot behind the nodes, which is that of the list itself if there are none. -/
def last (s : Slot P C) (ns : List N) : Slot P C := (ns.getLast?.map fun n => S.next (S.block n)).getD s

variable {S} {ns : List N} {n : N} {tail : Option P} {s : Slot P C} {F : Fault → Prop}

theorem head_append (tail : Option P) (ns more : List N) : S.head tail (ns ++ more) = S.head (S.head tail more) ns := by
  cases ns <;> rfl

theorem segment_append (tail : Option P) (ns more : List N) :
    S.segment tail (ns ++ more) = S.segment (S.head tail more) ns ++ S.segment tail more := by
  induction ns with
  | nil => rfl
  | cons n ns ih => rw [List.cons_append, segment, segment, ih, head_append, List.cons_append, List.append_assoc]

theorem last_concat (s : Slot P C) (ns : List N) (n : N) : S.last s (ns ++ [n]) = S.next (S.block n) := by
  rw [last, List.getLast?_concat]
  rfl

theorem last_cons (s : Slot P C) (n : N) (ns : List N) : S.last s (n :: ns) = S.last (S.next (S.block n)) ns := by
  rcases List.eq_nil_or_concat ns with rfl | ⟨ns, m, rfl⟩
  · rfl
  · rw [List.concat_eq_append, last_concat, ← List.cons_append, last_concat]

theorem ends_read {Q : Option P → Heap P C → Prop} (hold : Holds base h l) (hs : (s.block, c) ∈ l) {q : Option P} (hget : s.get c = some q)
    (hq : Q q h) : Ends s.read F Q h := by
  refine Ends.bind (ends_load hold hs ?_)
  simp only [hget]
  exact ends_pure hq

theorem ends_write [DecidableEq P] {Q : Unit → Heap P C → Prop} {q : Option P} (hold : Holds base h ((s.block, c) :: l))
    (hq : ∀ h', Holds base h' ((s.block, s.set c q) :: l) → Q () h') : Ends (s.write q) F Q h :=
  Ends.bind (ends_load hold List.mem_cons_self (ends_store hold hq))

/-- The walk ends behind the last node. -/
theorem ends_lastSlot {Q : Slot P C → Heap P C → Prop} {fuel : Nat} (hold : Holds base h l) (hs : (s.block, c) ∈ l)
    (hget : s.get c = some (S.head none ns)) (hns : S.segment none ns ⊆ l) (enough : ns.length < fuel) (hq : Q (S.last s ns) h) :
    Ends (lastSlot S.next fuel s) F Q h := by
  induction ns generalizing fuel s c with
  | nil =>
    obtain ⟨fuel, rfl⟩ := Nat.exists_eq_succ_of_ne_zero (Nat.ne_zero_of_lt enough)
    exact Ends.bind (ends_read hold hs hget (ends_pure hq))
  | cons n ns ih =>
    obtain ⟨fuel, rfl⟩ := Nat.exists_eq_succ_of_ne_zero (Nat.ne_zero_of_lt enough)
    obtain ⟨hn, hown⟩ := List.cons_subset.mp hns
    refine Ends.bind (ends_read hold hs hget (ih ?_ (S.get_cell n _) (List.append_subset.mp hown).2 (Nat.lt_of_succ_lt_succ enough) ?_))
    · rw [S.next_block]
      exact hn
    · rwa [last_cons] at hq

/-- More nodes are linked behind those of a list. -/
theorem ends_link [DecidableEq P] {Q : Unit → Heap P C → Prop} {more : List N} (hget : s.get c = some (S.head none ns))
    (hold : Holds base h ((s.block, c) :: (S.segment none ns ++ (S.segment none more ++ l))))
    (hq : ∀ h', Holds base h' ((s.block, s.set c (S.head none (ns ++ more))) :: (S.segment none (ns ++ more) ++ l)) → Q () h') :
    Ends ((S.last s ns).write (S.head none more)) F Q h := by
  rcases List.eq_nil_or_concat ns with rfl | ⟨init, m, rfl⟩
  · exact ends_write hold hq
  · rw [List.concat_eq_append] at hget hold hq ⊢
    have hroot : s.set c (S.head none (init ++ [m] ++ more)) = c := by
      refine s.set_get c _ (hget.trans (congrArg some ?_))
      rw [head_append, head_append, head_append]
      rfl
    have hsplit (q : Option P) (rest : List (P × C)) : (s.block, c) :: (S.segment q (init ++ [m]) ++ rest) =
        ((s.block, c) :: S.segment (some (S.block m)) init) ++ (S.block m, S.cell m q) :: (S.own m ++ rest) := by
      rw [segment_append, List.append_assoc, List.cons_append]
      simp only [segment, head, List.append_nil, List.cons_append]
    rw [last_concat]
    rw [hsplit] at hold
    have hfront := hold.perm List.perm_middle
    rw [← S.next_block (S.block m)] at hfront
    refine ends_write hfront fun h' hold' => hq h' ?_
    rw [S.next_block, S.set_cell] at hold'
    rw [hroot, segment_append, List.append_assoc, hsplit]
    exact hold'.perm List.perm_middle.symm

end Shape
end Ledger
