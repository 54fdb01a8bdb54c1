import Vcmp.Theorems.HeaderCopies
import Vcmp.Theorems.Uthash
import Vcmp.Websockets.HeaderTable

/-! The header table against the list of its entries: what the parser puts there, what a lookup finds and what
`ws_free_handshake` frees. -/

namespace Vcmp.Websockets
open ByteMem CInt CString Uthash Links

variable {m : Mem} {malloc : Nat → Option Mem} {room : Nat → Alloc} {t : HeaderTable} {stored : List (Nat × HeaderEntry)}
  {copies : List (Nat × LineCopies)} {order : List Nat} {i n lineBegin lineLen : Nat}

/-! ### The copies of the parser -/

/-- The entries of the copies go into the table, one after another. -/
def addCopies (m : Mem) (malloc : Nat → Option Mem) (room : Nat → Alloc) (t : HeaderTable) :
    List (Nat × LineCopies) → Except Halt HeaderTable
  | [] => return t
  | c :: copies =>
    match malloc c.1 with
    | none => return { t with hash := { t.hash with head := none } }
    | some block => do addCopies m malloc room (← t.add (room c.1) (c.2.entry m block) c.1) copies

/-- What the table holds after that, each entry with its name. -/
def storedBy (m : Mem) (malloc : Nat → Option Mem) (stored : List (Nat × HeaderEntry)) :
    List (Nat × LineCopies) → List (Nat × HeaderEntry)
  | [] => stored
  | c :: copies =>
    match malloc c.1 with
    | none => []
    | some block => storedBy m malloc (stored ++ [(c.1, c.2.entry m block)]) copies

section Step
variable {c : Nat × LineCopies} {block : Mem} (h : malloc c.1 = some block)
include h

theorem addCopies_some : addCopies m malloc room t (c :: copies) =
    t.add (room c.1) (c.2.entry m block) c.1 >>= fun t => addCopies m malloc room t copies := by
  rw [addCopies, h]

theorem storedBy_some : storedBy m malloc stored (c :: copies) = storedBy m malloc (stored ++ [(c.1, c.2.entry m block)]) copies := by
  rw [storedBy, h]

end Step

/-- The scan adds the entries of its copies. -/
theorem ends_scanHeaders (malloc : Nat → Option Mem) (room : Nat → Alloc) (t : HeaderTable) (i n lineBegin lineLen : Nat) :
    Ends (scanHeaders malloc room i n ⟨t, lineBegin, lineLen⟩) m (addCopies m malloc room t (copiesIn m i n lineBegin lineLen)) := by
  induction n generalizing i t lineBegin lineLen with
  | zero => exact ends_pure t
  | succ n ih =>
    rw [scanHeaders]
    refine ends_load ?_
    rw [copiesIn]
    split
    · split
      · exact ih t (i + 1) (i + 1) 0
      split
      · exact ends_pure t
      · rw [addCopies]
        cases malloc i with
        | none => exact ends_pure _
        | some block => exact ends_lift (gives_copyLine _ block) (ends_except fun t' _ => ih t' (i + 1) (i + 1) 0)
    · exact ih t (i + 1) lineBegin (lineLen + 1)

variable (stored) in
theorem entriesOf_storedBy : entriesOf m malloc (stored.map Prod.snd).reverse copies =
    ((storedBy m malloc stored copies).map Prod.snd).reverse := by
  induction copies generalizing stored with
  | nil => rfl
  | cons c copies ih =>
    rw [entriesOf, storedBy]
    cases malloc c.1 with
    | none => rfl
    | some block =>
      rw [← ih, List.map_append, List.reverse_append]
      rfl

theorem storedBy_all (blocks : Nat → Mem) (stored : List (Nat × HeaderEntry)) (copies : List (Nat × LineCopies)) :
    storedBy m (fun i => some (blocks i)) stored copies = stored ++ copies.map fun c => (c.1, c.2.entry m (blocks c.1)) := by
  induction copies generalizing stored with
  | nil => exact (List.append_nil stored).symm
  | cons c copies ih =>
    refine (ih _).trans ?_
    rw [List.append_assoc]
    rfl

/-- No two copies go by one name, and there are no more of them than bytes. -/
theorem copiesIn_names (m : Mem) (i n lineBegin lineLen : Nat) : ((copiesIn m i n lineBegin lineLen).map Prod.fst).Nodup ∧
    (∀ c ∈ copiesIn m i n lineBegin lineLen, i ≤ c.1) ∧ (copiesIn m i n lineBegin lineLen).length ≤ n := by
  induction n generalizing i lineBegin lineLen with
  | zero => exact ⟨.nil, fun _ hc => absurd hc List.not_mem_nil, Nat.le_refl 0⟩
  | succ n ih =>
    have hlater {lineBegin lineLen : Nat} : ((copiesIn m (i + 1) n lineBegin lineLen).map Prod.fst).Nodup ∧
        (∀ c ∈ copiesIn m (i + 1) n lineBegin lineLen, i ≤ c.1) ∧ (copiesIn m (i + 1) n lineBegin lineLen).length ≤ n + 1 :=
      have h := ih (i + 1) lineBegin lineLen
      ⟨h.1, fun c hc => Nat.le_of_succ_le (h.2.1 c hc), Nat.le_succ_of_le h.2.2⟩
    rw [copiesIn]
    split
    · split
      · exact hlater
      split
      · exact ⟨.nil, fun _ hc => absurd hc List.not_mem_nil, Nat.zero_le _⟩
      · obtain ⟨hnodup, hbelow, hlength⟩ := ih (i + 1) (i + 1) 0
        refine ⟨List.nodup_cons.mpr ⟨fun hmem => ?_, hnodup⟩, ?_, Nat.succ_le_succ hlength⟩
        · obtain ⟨c, hc, hname⟩ := List.mem_map.mp hmem
          exact absurd (hbelow c hc) (Nat.not_le.mpr (Nat.lt_succ_of_le hname.le))
        · exact List.forall_mem_cons.mpr ⟨Nat.le_refl i, fun c hc => Nat.le_of_succ_le (hbelow c hc)⟩
    · exact hlater

/-! ### The table -/

/-- The table has these entries, in the order in which they were added. -/
structure Mirrors (t : HeaderTable) (stored : List (Nat × HeaderEntry)) (order : List Nat) : Prop where
  represents : Represents t.hash (stored.map Prod.fst) order
  entries : ∀ e ∈ stored, t.entry e.1 = e.2
  keys : ∀ e ∈ stored, t.hash.handles.key e.1 = e.2.key
  early : t.hash.log2 = initialNumBucketsLog2.toNat ∨
    (initialNumBucketsLog2.toNat < t.hash.log2 ∧ t.hash.log2 + 4 ≤ stored.length)

theorem Mirrors.null (h : Handles Nat) (entry : Nat → HeaderEntry) : Mirrors ⟨⟨h, none⟩, entry⟩ [] [] :=
  ⟨⟨rfl, rfl⟩, fun _ he => absurd he List.not_mem_nil, fun _ he => absurd he List.not_mem_nil, Or.inl rfl⟩

theorem Mirrors.log2_lt (hm : Mirrors t stored order) (few : stored.length < 35) : t.hash.log2 < 31 := by
  have hfive : initialNumBucketsLog2.toNat = 5 := rfl
  rcases hm.early with hyoung | ⟨-, hmany⟩ <;> omega

/-- Each element more doubles the buckets once at most, the first of them not before there are ten. -/
theorem Mirrors.add (hm : Mirrors t stored order) (fresh : i ∉ stored.map Prod.fst) (few : stored.length + 1 < 2 ^ 32) {r : Alloc}
    (modest : stored.length < 35 ∨ Modest r) (entry : HeaderEntry) :
    (t.add r entry i = .error .exit ∧ ((∃ size < 2 ^ 36, r size = false) ∨ 35 ≤ stored.length)) ∨
      ∃ t' order', t.add r entry i = .ok t' ∧ Mirrors t' (stored ++ [(i, entry)]) order' := by
  have hfive : initialNumBucketsLog2.toNat = 5 := rfl
  have hne {e : Nat × HeaderEntry} (he : e ∈ stored) : e.1 ≠ i := by
    rintro rfl
    exact fresh (List.mem_map_of_mem he)
  rcases hm.represents.add entry.key fresh (by rwa [List.length_map]) (modest.imp_left hm.log2_lt) with ⟨hexit, hlacks⟩ | ⟨hash, order', hadd, hadded⟩
  · refine Or.inl ⟨by rw [HeaderTable.add, hexit]; rfl, hlacks.imp_right fun hlog => ?_⟩
    rcases hm.early with hyoung | ⟨-, hmany⟩ <;> omega
  refine Or.inr ⟨⟨hash, Function.update t.entry i entry⟩, order', by rw [HeaderTable.add, hadd]; rfl, ?_, ?_, ?_, ?_⟩
  · rw [List.map_append]
    exact hadded.represents
  · intro e he
    rcases List.mem_append.mp he with he | he
    · exact (Function.update_of_ne (hne he) _ _).trans (hm.entries e he)
    · rw [List.mem_singleton.mp he]
      exact Function.update_self i _ _
  · intro e he
    change hash.handles.key e.1 = _
    rw [hadded.key]
    rcases List.mem_append.mp he with he | he
    · rw [Function.update_of_ne (hne he), hm.keys e he]
    · rw [List.mem_singleton.mp he, Function.update_self]
  · have hlength : (i :: order).length = stored.length + 1 := by
      rw [List.length_cons, hm.represents.perm.length_eq, List.length_map]
    have hten : bktCapacityThresh.toNat = 10 := rfl
    change hash.log2 = _ ∨ (_ < hash.log2 ∧ hash.log2 + 4 ≤ _)
    rw [List.length_append, List.length_singleton]
    rcases hadded.grown with ⟨-, hlog⟩ | ⟨-, hlog, hmany⟩
    · rw [hlog]
      exact hm.early.imp_right fun hold => ⟨hold.1, Nat.le_succ_of_le hold.2⟩
    · refine Or.inr ?_
      rcases hm.early with hyoung | ⟨hold, hold'⟩
      · have hfull := hmany hyoung
        omega
      · omega

/-- Fewer than 36 lines are copied, or no block of 64 GiB is given. -/
def Bounded (room : Nat → Alloc) (copies : Nat) : Prop := copies < 36 ∨ ∀ j, Modest (room j)

theorem Bounded.modest {k : Nat} (bounded : Bounded room (k + (n + 1))) (j : Nat) : k < 35 ∨ Modest (room j) :=
  bounded.imp (fun hfew => by omega) fun modest => modest j

/-- An allocation of the hash fails, or so many lines are copied that their table may come to `2 ^ 31` buckets. -/
def Lacking (room : Nat → Alloc) (copies : Nat) : Prop := (∃ j, ∃ size < 2 ^ 36, room j size = false) ∨ 36 ≤ copies

variable (m malloc) in
/-- Line by line, the table gets the entry that the list gets, unless the process ends for want of memory. -/
theorem Mirrors.addCopies (hm : Mirrors t stored order) (fresh : (stored.map Prod.fst ++ copies.map Prod.fst).Nodup)
    (few : stored.length + copies.length < 2 ^ 32) (bounded : Bounded room (stored.length + copies.length)) :
    (addCopies m malloc room t copies = .error .exit ∧ Lacking room (stored.length + copies.length)) ∨
      ∃ t' order', addCopies m malloc room t copies = .ok t' ∧ Mirrors t' (storedBy m malloc stored copies) order' := by
  induction copies generalizing t stored order with
  | nil => exact Or.inr ⟨t, order, rfl, hm⟩
  | cons c copies ih =>
    cases hmalloc : malloc c.1 with
    | none =>
      rw [Websockets.addCopies, storedBy, hmalloc]
      exact Or.inr ⟨_, [], rfl, .null _ _⟩
    | some block =>
      rw [addCopies_some hmalloc, storedBy_some hmalloc]
      rw [List.length_cons] at few bounded ⊢
      have hname : c.1 ∉ stored.map Prod.fst := fun hmem =>
        (List.nodup_append.mp fresh).2.2 c.1 hmem c.1 List.mem_cons_self rfl
      rcases hm.add hname (by omega) (bounded.modest c.1) (c.2.entry m block) with ⟨hexit, hlacks⟩ | ⟨t', order', hadd, hm'⟩
      · refine Or.inl ⟨by rw [hexit]; rfl, hlacks.imp (fun hroom => ⟨c.1, hroom⟩) fun hmany => by omega⟩
      · have hlength : (stored ++ [(c.1, c.2.entry m block)]).length + copies.length = stored.length + (copies.length + 1) := by
          rw [List.length_append, List.length_singleton, Nat.add_assoc, Nat.add_comm 1]
        have hrest := ih hm' (by rwa [List.map_append, List.append_assoc]) (hlength ▸ few) (hlength ▸ bounded)
        rw [hlength] at hrest
        rw [hadd]
        exact hrest

/-! ### Requests -/

/-- Where `HASH_ADD` writes the handle of an entry. -/
def offsetHh : Nat := 512

/-- Both strings end in front of the handle. -/
def HeaderEntry.Ended (e : HeaderEntry) : Prop := e.key.length < offsetHh ∧ offsetValue + e.value.length < offsetHh

/-- The lines fit into their entries, and no string runs into a handle. -/
structure Contained (data : List UInt8) (past : Mem) (malloc : Nat → Option Mem) : Prop where
  short : data.length < 2 ^ 31
  fits : ∀ l ∈ headerLines data, Fits l
  ended : ∀ e ∈ storedBy (ofBytes data past) malloc [] (parseCopies data past), HeaderEntry.Ended e.2

variable (room) in
/-- What `ws_parse_handshake` makes of the data. -/
def tableOf (data : List UInt8) (past : Mem) (malloc : Nat → Option Mem) (fresh : Handles Nat) (blank : Nat → HeaderEntry) :
    Except Halt HeaderTable :=
  (((parseHeaders malloc room fresh blank data.length).run).run { mem := ofBytes data past }).1

def listOf (data : List UInt8) (past : Mem) (malloc : Nat → Option Mem) : List HeaderEntry :=
  ((wsParseHandshake malloc data.length).run { mem := ofBytes data past }).1

section Requests
variable {data : List UInt8} {past : Mem} {fresh : Handles Nat} {blank : Nat → HeaderEntry}

theorem listOf_eq : listOf data past malloc =
    ((storedBy (ofBytes data past) malloc [] (parseCopies data past)).map Prod.snd).reverse :=
  (gives_wsParseHandshake malloc data past).value.trans (entriesOf_storedBy [])

variable (room fresh blank) in
theorem tableOf_eq : tableOf room data past malloc fresh blank =
    addCopies (ofBytes data past) malloc room ⟨⟨fresh, none⟩, blank⟩ (parseCopies data past) :=
  Gives.value (ends_scanHeaders malloc room ⟨⟨fresh, none⟩, blank⟩ 0 data.length 0 0)

variable (past malloc fresh blank) in
theorem tableOf_mirrors (short : data.length < 2 ^ 31) (bounded : Bounded room (parseCopies data past).length) :
    (tableOf room data past malloc fresh blank = .error .exit ∧ Lacking room (parseCopies data past).length) ∨
      ∃ t order, tableOf room data past malloc fresh blank = .ok t ∧
        Mirrors t (storedBy (ofBytes data past) malloc [] (parseCopies data past)) order := by
  obtain ⟨hnodup, -, hlength⟩ := copiesIn_names (ofBytes data past) 0 data.length 0 0
  have hfew : 0 + (parseCopies data past).length < 2 ^ 32 := by
    rw [Nat.zero_add]
    exact Nat.lt_of_le_of_lt hlength (by omega)
  have hbounded : Bounded room (0 + (parseCopies data past).length) := (Nat.zero_add _).symm ▸ bounded
  have h := (Mirrors.null fresh blank).addCopies (ofBytes data past) malloc hnodup hfew hbounded
  rw [List.length_nil, Nat.zero_add] at h
  rw [tableOf_eq]
  exact h

end Requests

/-! ### Lookups -/

/-- What only one element satisfies is found in any order. -/
theorem find?_perm {α : Type} {l l' : List α} {p : α → Bool} (h : l.Perm l')
    (unique : ∀ x ∈ l, ∀ y ∈ l, p x = true → p y = true → x = y) : l.find? p = l'.find? p := by
  cases hfind : l.find? p with
  | none =>
    refine (List.find?_eq_none.mpr fun x hx => ?_).symm
    exact List.find?_eq_none.mp hfind x (h.mem_iff.mpr hx)
  | some x =>
    cases hfind' : l'.find? p with
    | none => exact absurd (List.find?_some hfind) (List.find?_eq_none.mp hfind' x (h.mem_iff.mp (List.mem_of_find?_eq_some hfind)))
    | some y =>
      have hy : y ∈ l := h.mem_iff.mpr (List.mem_of_find?_eq_some hfind')
      rw [unique x (List.mem_of_find?_eq_some hfind) y hy (List.find?_some hfind) (List.find?_some hfind')]

theorem Mirrors.map_entry (hm : Mirrors t stored order) : (stored.map Prod.fst).map t.entry = stored.map Prod.snd := by
  rw [List.map_map]
  exact List.map_congr_left fun e he => hm.entries e he

/-- A lookup compares the keys of the entries. -/
theorem Mirrors.find (hm : Mirrors t stored order) (key : List UInt8) :
    hashFind t.hash key = .ok (order.find? fun x => (t.entry x).key == key) := by
  rw [hm.represents.find]
  refine congrArg Except.ok (List.find?_congr fun x hx => ?_)
  obtain ⟨e, he, rfl⟩ := List.mem_map.mp (hm.represents.perm.mem_iff.mp hx)
  rw [hm.keys e he, hm.entries e he]

theorem Mirrors.get (hm : Mirrors t stored order)
    (h : stored.length < bktCapacityThresh.toNat ∨ (stored.map fun e => e.2.key).Nodup) (key : List UInt8) :
    t.get key = .ok (wsHeaderGet (stored.map Prod.snd).reverse key) := by
  have hperm := hm.represents.perm
  have hfind : order.find? (fun x => (t.entry x).key == key) =
      (stored.map Prod.fst).reverse.find? fun x => (t.entry x).key == key := by
    rcases h with hfew | hnodup
    · have hlog := hm.early.resolve_right fun hmany => by
        have hten : bktCapacityThresh.toNat = 10 := rfl
        have hfive : initialNumBucketsLog2.toNat = 5 := rfl
        omega
      rw [hm.represents.young hlog]
    · have hkeys : ((stored.map Prod.fst).map fun x => (t.entry x).key).Nodup := by
        rw [List.map_map]
        rwa [List.map_congr_left fun e he => congrArg HeaderEntry.key (hm.entries e he).symm] at hnodup
      refine find?_perm (hperm.trans (List.reverse_perm _).symm) fun x hx y hy hx' hy' => ?_
      exact List.inj_on_of_nodup_map hkeys (hperm.mem_iff.mp hx) (hperm.mem_iff.mp hy)
        ((beq_iff_eq.mp hx').trans (beq_iff_eq.mp hy').symm)
  rw [HeaderTable.get, hm.find, hfind, wsHeaderGet, ← hm.map_entry, ← List.map_reverse (f := t.entry), List.find?_map (f := t.entry)]
  rfl

variable (fresh : Handles Nat) (blank : Nat → HeaderEntry)

/-- The parser makes the table of the same entries that the list has, and lookups agree: with fewer than ten header lines, and with
any number of lines of different names. -/
theorem parseHeaders_get {data : List UInt8} {past : Mem} (contained : Contained data past malloc)
    (bounded : Bounded room (parseCopies data past).length) :
    (tableOf room data past malloc fresh blank = .error .exit ∧ Lacking room (parseCopies data past).length) ∨
      ∃ t, tableOf room data past malloc fresh blank = .ok t ∧
        ((listOf data past malloc).length < bktCapacityThresh.toNat ∨ ((listOf data past malloc).map HeaderEntry.key).Nodup →
          ∀ key, key.length < 2 ^ 32 → t.get key = .ok (wsHeaderGet (listOf data past malloc) key)) := by
  rcases tableOf_mirrors malloc past fresh blank contained.short bounded with hexit | ⟨t, order, hrun, hm⟩
  · exact Or.inl hexit
  · refine Or.inr ⟨t, hrun, fun h key _ => ?_⟩
    rw [listOf_eq, List.length_reverse, List.length_map, List.map_reverse, List.nodup_reverse, List.map_map] at h
    rw [listOf_eq, hm.get h]

/-- `A: b` -/
def sampleData : List UInt8 := "G\r\nA: b\r\n\r\n".toList.map Char.toUInt8

def zeroBlocks : Nat → Option Mem := fun _ => some fun _ => 0

theorem sampleData_contained : Contained sampleData (fun _ => 0) zeroBlocks where
  short := by decide
  fits := by
    unfold Fits
    decide +kernel
  ended := by
    unfold HeaderEntry.Ended
    decide +kernel

/-- Handles and entries that nothing was written to. -/
def blankTable : HeaderTable :=
  ⟨⟨⟨⟨fun _ => none, fun _ => none⟩, ⟨fun _ => none, fun _ => none⟩, fun _ => [], fun _ => 0⟩, none⟩, fun _ => ⟨fun _ => 0⟩⟩

def sampleTable : Except Halt HeaderTable :=
  tableOf (fun _ => ampleRoom) sampleData (fun _ => 0) zeroBlocks blankTable.hash.handles blankTable.entry

theorem sampleTable_room : sampleTable ≠ .error .exit := by
  have hok : sampleTable.isOk = true := by decide +kernel
  intro hexit
  rw [hexit] at hok
  cases hok

theorem parseHeaders_get_sample :
    ∃ t, sampleTable = .ok t ∧ t.get [65] = .ok (wsHeaderGet (listOf sampleData (fun _ => 0) zeroBlocks) [65]) := by
  obtain ⟨t, hrun, hget⟩ := (parseHeaders_get blankTable.hash.handles blankTable.entry sampleData_contained
    (Or.inr fun _ => ampleRoom_modest)).resolve_left fun hexit => sampleTable_room hexit.1
  exact ⟨t, hrun, hget (Or.inl (by decide +kernel)) [65] (by decide)⟩

/-! ### Freeing -/

section Freeing
variable {P : Type} [DecidableEq P] {hash : Hash P} {items order freed : List P} {x : P}

omit [DecidableEq P] in
/-- All that `HASH_DEL` touches is in the hash. -/
theorem delTouches_sub (hr : Represents hash items order) (hx : x ∈ items) : ∀ p ∈ delTouches hash x, p ∈ items := by
  obtain ⟨h, _ | ⟨head, tbl⟩⟩ := hash
  · rw [hr.1] at hx
    cases hx
  have hh : Holds h head tbl items order := hr
  have happ : ∀ p, h.app.prev x = some p ∨ h.app.next x = some p → p ∈ items := by
    obtain ⟨ys, zs, rfl⟩ := List.append_of_mem hx
    rintro p (hp | hp)
    · rw [hh.app.prev_eq] at hp
      exact List.mem_append_left _ (List.mem_of_mem_getLast? hp)
    · rw [hh.app.next_eq] at hp
      exact List.mem_append_right _ (List.mem_cons_of_mem x (List.mem_of_mem_head? hp))
  have hchain : ∀ p, h.chain.prev x = some p ∨ h.chain.next x = some p → p ∈ items := by
    have hlist := hh.buckets.chain (bucketOf (h.hashv x) tbl.log2NumBuckets.toNat)
    obtain ⟨ys, zs, hsplit⟩ := List.append_of_mem (mem_inBucket.mpr ⟨hh.perm.mem_iff.mpr hx, rfl⟩)
    have hsub : ∀ p ∈ ys ++ x :: zs, p ∈ items := fun p hp => hh.perm.mem_iff.mp (mem_inBucket.mp (hsplit ▸ hp)).1
    rw [hsplit] at hlist
    rintro p (hp | hp)
    · rw [hlist.prev_eq] at hp
      exact hsub p (List.mem_append_left _ (List.mem_of_mem_getLast? hp))
    · rw [hlist.next_eq] at hp
      exact hsub p (List.mem_append_right _ (List.mem_cons_of_mem x (List.mem_of_mem_head? hp)))
  intro p hp
  simp only [delTouches, List.mem_cons, List.mem_filterMap, List.not_mem_nil, or_false, id_eq, exists_eq_right, Option.map_some] at hp
  rcases hp with rfl | hp | hp | hp | hp | hp
  · exact hx
  · obtain rfl := Option.some.inj hp
    exact List.mem_of_mem_head? hh.first
  · exact happ p (Or.inl hp.symm)
  · exact happ p (Or.inr hp.symm)
  · exact hchain p (Or.inl hp.symm)
  · exact hchain p (Or.inr hp.symm)

/-- The turns of the loop free the items that are left, in their order. -/
theorem freeEntries_ok (hr : Represents hash items order) (live : ∀ p ∈ items, p ∉ freed) {turns : Nat} (enough : items.length ≤ turns) :
    ∃ h, freeEntries freed turns hash items.head? items.tail.head? = .ok (⟨h, none⟩, freed ++ items) := by
  induction items generalizing hash order freed turns with
  | nil =>
    refine ⟨hash.handles, ?_⟩
    rw [← hr.null, List.append_nil]
    cases turns <;> rfl
  | cons x xs ih =>
    obtain ⟨turns, rfl⟩ : ∃ t, turns = t + 1 := ⟨turns - 1, by rw [List.length_cons] at enough; omega⟩
    have htouch : ¬∃ p ∈ delTouches hash x, p ∈ freed := by
      rintro ⟨p, hp, hfreed⟩
      exact live p (delTouches_sub hr List.mem_cons_self p hp) hfreed
    obtain ⟨hash', hdel, hr', -⟩ := hr.delete List.mem_cons_self
    rw [List.erase_cons_head] at hr'
    have hlive : ∀ p ∈ xs, p ∉ freed ++ [x] := by
      intro p hp hmem
      rcases List.mem_append.mp hmem with hmem | hmem
      · exact live p (List.mem_cons_of_mem x hp) hmem
      · exact (List.nodup_cons.mp hr.nodup).1 (List.mem_singleton.mp hmem ▸ hp)
    obtain ⟨h, hrest⟩ := ih hr' hlive (Nat.le_of_succ_le_succ enough)
    refine ⟨h, ?_⟩
    rw [List.append_assoc] at hrest
    rw [List.head?_cons, freeEntries, if_neg htouch, hdel]
    cases xs with
    | nil => exact hrest
    | cons y ys =>
      refine (if_neg (hlive y List.mem_cons_self)).trans ?_
      rw [hr'.next]
      exact hrest

theorem wsFreeHandshake_ok (hr : Represents hash items order) : ∃ h, wsFreeHandshake hash = .ok (⟨h, none⟩, items) := by
  obtain ⟨h, _ | ⟨head, tbl⟩⟩ := hash
  · rw [hr.1]
    exact ⟨h, rfl⟩
  have hh : Holds h head tbl items order := hr
  obtain ⟨xs, rfl⟩ : ∃ xs, items = head :: xs := List.head?_eq_some_iff.mp hh.first
  obtain ⟨h', hrun⟩ := freeEntries_ok hr (fun _ _ => List.not_mem_nil) hh.numItems.ge
  refine ⟨h', ?_⟩
  rw [wsFreeHandshake]
  change freeEntries [] tbl.numItems.toNat _ (some head) (h.app.next head) = _
  rw [hr.next]
  exact hrun

end Freeing

/-- `ws_free_handshake` frees each entry of a request once, in the order of the lines, and the table with the last of them; it
touches nothing that was freed. -/
theorem parseHeaders_free {data : List UInt8} {past : Mem} (contained : Contained data past malloc)
    (bounded : Bounded room (parseCopies data past).length) :
    (tableOf room data past malloc fresh blank = .error .exit ∧ Lacking room (parseCopies data past).length) ∨
      ∃ t h freed, tableOf room data past malloc fresh blank = .ok t ∧ wsFreeHandshake t.hash = .ok (⟨h, none⟩, freed) ∧
        freed.Nodup ∧ freed.map t.entry = (listOf data past malloc).reverse := by
  rcases tableOf_mirrors malloc past fresh blank contained.short bounded with hexit | ⟨t, order, hrun, hm⟩
  · exact Or.inl hexit
  · obtain ⟨h, hfree⟩ := wsFreeHandshake_ok hm.represents
    refine Or.inr ⟨t, h, _, hrun, hfree, hm.represents.nodup, ?_⟩
    rw [listOf_eq, List.reverse_reverse, hm.map_entry]

theorem parseHeaders_free_sample :
    ∃ t h freed, sampleTable = .ok t ∧ wsFreeHandshake t.hash = .ok (⟨h, none⟩, freed) ∧ freed.Nodup ∧
      freed.map t.entry = (listOf sampleData (fun _ => 0) zeroBlocks).reverse :=
  (parseHeaders_free blankTable.hash.handles blankTable.entry sampleData_contained
    (Or.inr fun _ => ampleRoom_modest)).resolve_left fun hexit => sampleTable_room hexit.1

end Vcmp.Websockets
