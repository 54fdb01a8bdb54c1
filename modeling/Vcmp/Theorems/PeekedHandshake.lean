import Vcmp.Lib.Local
import Vcmp.Lib.Reach
import Vcmp.Theorems.HeaderCopies

/-! How far `ws_parse_handshake` looks into the first extent of a buffer that may go on behind it. -/

namespace Vcmp.Websockets
open ByteMem CInt CString

variable {m : Mem} {malloc : Nat → Option Mem} {cur rest first : List UInt8} {past : Mem} {lineBegin i j k n : Nat}

/-! ### The parser sees what it loads -/

theorem local_findDelim (lineBegin j n : Nat) : Local (findDelim lineBegin j n) := by
  induction n generalizing j with
  | zero => exact local_pure 0
  | succ n ih => exact (local_load _).bind fun b => Local.ite (fun _ => local_pure j) fun _ => ih (j + 1)

theorem local_copyLine (st : Scan) (block : Mem) : Local (copyLine st block) :=
  (local_findDelim _ _ _).bind fun _ => (local_loadString _ _).bind fun _ => (local_loadString _ _).bind fun _ => local_pure _

theorem scanHandshake_load (hnext : ∀ i st, Local (scanHandshake malloc i n st)) (i : Nat) (st : Scan) :
    ∃ f, scanHandshake malloc i (n + 1) st = load i >>= f ∧ ∀ b, Local (f b) := by
  refine ⟨_, rfl, fun b => Local.ite (fun _ => Local.ite (fun _ => hnext _ _) fun _ => ?_) fun _ => hnext _ _⟩
  refine Local.ite (fun _ => local_pure _) fun _ => ?_
  cases malloc i with
  | none => exact local_pure []
  | some block => exact (local_copyLine st block).bind fun entry => hnext _ _

theorem local_scanHandshake (malloc : Nat → Option Mem) (i n : Nat) (st : Scan) : Local (scanHandshake malloc i n st) := by
  induction n generalizing i st with
  | zero => exact local_pure st.head
  | succ n ih =>
    obtain ⟨f, hload, hf⟩ := scanHandshake_load ih i st
    rw [hload]
    exact (local_load i).bind hf

/-! ### One line -/

/-- The lines that a line feed ends, each with the offset of its line feed; `cur` has been seen of the first. -/
def feeds (i : Nat) (cur : List UInt8) : List UInt8 → List (Nat × List UInt8)
  | [] => []
  | b :: rest => if b = '\n'.toUInt8 then (i, cur) :: feeds (i + 1) [] rest else feeds (i + 1) (cur ++ [b]) rest

/-- The scan ends with the line, which is empty or whose entry cannot be allocated. -/
def ends (malloc : Nat → Option Mem) (l : Nat × List UInt8) : Bool := l.2.length == 1 || (malloc l.1).isNone

/-- The copy of the value of a line. -/
def valueCopy (l : Nat × List UInt8) : Copy := (lineCopies (l.1 - l.2.length) l.2.length (delim l.2)).value

/-- The copy ends before offset `n`, with its length, which is huge where it is negative, or with a zero. -/
def Copy.EndsBefore (m : Mem) (n : Nat) (c : Copy) : Prop :=
  c.src + toSize c.len ≤ n ∨ ∃ j, c.src ≤ j ∧ j < n ∧ m j = 0

theorem stays_findDelim (h : lineBegin + j + k ≤ n) : Stays n (findDelim lineBegin j k) m True := by
  induction k generalizing j with
  | zero => exact stays_pure 0
  | succ k ih =>
    refine ((reaches_load (lineBegin + j)).stays ((stays_pure j).ite (ih (j := j + 1) (by omega)))).congr ?_
    simp
    omega

theorem reaches_copy (c : Copy) (dest : Mem) (i : Nat) :
    Reaches n (c.perform dest i) m (c.result m dest i) (toSize c.len = 0 ∨ c.EndsBefore m n) := by
  refine Reaches.congr ?_ (and_iff_left trivial)
  exact (reaches_loadString c.src (toSize c.len)).bind (reaches_pure (c.result m dest i))

theorem reaches_perform (c : LineCopies) (block : Mem) : Reaches n (c.perform block) m (c.entry m block)
    ((toSize c.key.len = 0 ∨ c.key.EndsBefore m n) ∧ (toSize c.value.len = 0 ∨ c.value.EndsBefore m n)) := by
  refine Reaches.congr ?_ (and_congr_right fun _ => and_iff_left trivial)
  exact (reaches_copy c.key block 0).bind ((reaches_copy c.value _ offsetValue).bind (reaches_pure (c.entry m block)))

/-- Of the copies of a line that was scanned, only that of the value may leave it. -/
theorem reaches_copyLine (cur : List UInt8) (head : List HeaderEntry) (block : Mem) (hcur : slice m lineBegin cur.length = cur)
    (bound : lineBegin + cur.length ≤ n) :
    Reaches n (copyLine ⟨head, lineBegin, cur.length⟩ block) m
      ((lineCopies lineBegin cur.length (delim cur)).entry m block)
      ((valueCopy (lineBegin + cur.length, cur)).EndsBefore m n) := by
  have hgives := gives_delim m lineBegin cur.length
  rw [hcur] at hgives
  have hdelim := (stays_findDelim (m := m) (j := 0) (k := cur.length) bound).reaches hgives
  have hle := delim_le cur
  rw [copyLine_eq]
  refine (hdelim.bind (reaches_perform _ block)).congr ?_
  have hkey : (lineCopies lineBegin cur.length (delim cur)).key.EndsBefore m n := by
    refine Or.inl ?_
    simp only [lineCopies, toSize]
    omega
  have hvalue : valueCopy (lineBegin + cur.length, cur) = (lineCopies lineBegin cur.length (delim cur)).value := by
    rw [valueCopy, Nat.add_sub_cancel_right]
  rw [and_iff_right trivial, and_iff_right (Or.inr hkey), hvalue, or_iff_right_of_imp]
  intro hzero
  refine Or.inl ?_
  simp only [lineCopies, toSize] at hzero ⊢
  omega

/-! ### The scan -/

/-- The scan of `k` bytes, `left` of them before offset `n` and in these lines, ends there, and so do the copies of the
    values. -/
def ScanRoom (malloc : Nat → Option Mem) (m : Mem) (n left k : Nat) (lines : List (Nat × List UInt8)) : Prop :=
  (k ≤ left ∨ ∃ l ∈ lines, ends malloc l = true) ∧
    ∀ l ∈ lines.takeWhile fun l => !ends malloc l, (valueCopy l).EndsBefore m n

variable {left : Nat} {l : Nat × List UInt8} {lines : List (Nat × List UInt8)} {head : List HeaderEntry}

theorem scanRoom_ends (h : ends malloc l = true) : ScanRoom malloc m n left k (l :: lines) := by
  refine ⟨Or.inr ⟨l, List.mem_cons_self, h⟩, ?_⟩
  rw [List.takeWhile_cons_of_neg (by simp [h])]
  exact List.forall_mem_nil _

theorem scanRoom_cons (h : ends malloc l = false) : ScanRoom malloc m n left k (l :: lines) ↔
    (valueCopy l).EndsBefore m n ∧ ScanRoom malloc m n left k lines := by
  have hmore : (∃ g ∈ l :: lines, ends malloc g = true) ↔ ∃ g ∈ lines, ends malloc g = true := by simp [h]
  rw [ScanRoom, ScanRoom, hmore, List.takeWhile_cons_of_pos (by simp [h]), List.forall_mem_cons]
  exact and_left_comm

theorem scanRoom_succ : ScanRoom malloc m n (left + 1) (k + 1) lines ↔ ScanRoom malloc m n left k lines := by
  rw [ScanRoom, ScanRoom, Nat.add_le_add_iff_right]

theorem scanRoom_zero : ScanRoom malloc m n left 0 [] := ⟨Or.inl (Nat.zero_le left), List.forall_mem_nil _⟩

theorem stays_scan_end (head : List HeaderEntry) (i k lineBegin lineLen : Nat) (hi : n ≤ i) :
    Stays n (scanHandshake malloc i k ⟨head, lineBegin, lineLen⟩) m (ScanRoom malloc m n 0 k []) := by
  cases k with
  | zero => exact (stays_pure head).congr (iff_of_true trivial scanRoom_zero)
  | succ k =>
    obtain ⟨f, hload, hf⟩ := scanHandshake_load (local_scanHandshake malloc · k) i ⟨head, lineBegin, lineLen⟩
    have hgives := gives_scanHandshake (m := m) malloc head i (k + 1) lineBegin lineLen
    rw [hload] at hgives ⊢
    exact (stays_load_out hi hf hgives).congr (iff_of_false id (by simp [ScanRoom]))

theorem stays_scan_byte (head : List HeaderEntry) (lineBegin lineLen : Nat) (hlf : m i ≠ '\n'.toUInt8) (bound : i < n)
    (hnext : Stays n (scanHandshake malloc (i + 1) k ⟨head, lineBegin, lineLen + 1⟩) m (ScanRoom malloc m n left k lines)) :
    Stays n (scanHandshake malloc i (k + 1) ⟨head, lineBegin, lineLen⟩) m (ScanRoom malloc m n (left + 1) (k + 1) lines) := by
  rw [scanRoom_succ, scanHandshake]
  refine Stays.congr (Reaches.stays (reaches_load i) ?_) (and_iff_right bound)
  rw [if_neg hlf]
  exact hnext

/-- The scan of a line whose end is before offset `n`, by what follows. -/
theorem stays_scan_line (head : List HeaderEntry) (k : Nat) (hcur : slice m lineBegin cur.length = cur) (later : lineBegin ≠ 0)
    (hlf : m (lineBegin + cur.length) = '\n'.toUInt8) (bound : lineBegin + cur.length < n)
    (hnext : ∀ head, Stays n (scanHandshake malloc (lineBegin + cur.length + 1) k ⟨head, lineBegin + cur.length + 1, 0⟩) m
      (ScanRoom malloc m n left k lines)) :
    Stays n (scanHandshake malloc (lineBegin + cur.length) (k + 1) ⟨head, lineBegin, cur.length⟩) m
      (ScanRoom malloc m n (left + 1) (k + 1) ((lineBegin + cur.length, cur) :: lines)) := by
  have stops {x : Prog (List HeaderEntry)} (hx : Stays n x m True) (h : ends malloc (lineBegin + cur.length, cur) = true) :
      Stays n x m (ScanRoom malloc m n (left + 1) (k + 1) ((lineBegin + cur.length, cur) :: lines)) :=
    hx.congr (iff_of_true trivial (scanRoom_ends h))
  rw [scanHandshake]
  refine Stays.congr (Reaches.stays (reaches_load _) ?_) (and_iff_right bound)
  rw [if_pos hlf, if_neg later]
  by_cases hempty : cur.length = 1
  · rw [if_pos hempty]
    exact stops (stays_pure head) (by simp [ends, hempty])
  rw [if_neg hempty]
  cases hm : malloc (lineBegin + cur.length) with
  | none => exact stops (stays_pure []) (by simp [ends, hm])
  | some block =>
    rw [scanRoom_cons (by simp [ends, hempty, hm]), scanRoom_succ]
    exact (reaches_copyLine cur head block hcur (Nat.le_of_lt bound)).stays (hnext _)

/-- The scan from inside a line on that is not the first: `cur` has been seen of it, and `rest` is what is left before
    offset `n`. -/
theorem stays_scan_lines (cur : List UInt8) (later : lineBegin ≠ 0) (hcur : slice m lineBegin cur.length = cur)
    (hrest : slice m (lineBegin + cur.length) rest.length = rest) (hn : lineBegin + cur.length + rest.length = n)
    (head : List HeaderEntry) (k : Nat) :
    Stays n (scanHandshake malloc (lineBegin + cur.length) k ⟨head, lineBegin, cur.length⟩) m
      (ScanRoom malloc m n rest.length k (feeds (lineBegin + cur.length) cur (rest.take k))) := by
  induction rest generalizing lineBegin cur head k with
  | nil =>
    rw [List.take_nil]
    exact stays_scan_end head _ k lineBegin cur.length hn.ge
  | cons b rest ih =>
    rw [List.length_cons, slice_succ] at hrest
    obtain ⟨hb, htail⟩ := List.cons.inj hrest
    rw [List.length_cons] at hn ⊢
    cases k with
    | zero => exact (stays_pure head).congr (iff_of_true trivial scanRoom_zero)
    | succ k =>
      rw [List.take_succ_cons, feeds]
      by_cases hlf : b = '\n'.toUInt8
      · subst hlf
        rw [if_pos rfl]
        refine stays_scan_line head k hcur later hb (by omega) fun head => ?_
        exact ih [] (Nat.succ_ne_zero _) rfl htail (by simp; omega) head k
      · rw [if_neg hlf]
        have hnext := ih (cur ++ [b]) later (slice_snoc hcur hb) (by rwa [List.length_append, ← Nat.add_assoc])
          (by simp; omega) head k
        rw [List.length_append, ← Nat.add_assoc] at hnext
        exact stays_scan_byte head lineBegin cur.length (by rwa [hb]) (by omega) hnext

/-- The scan from inside the first line on, which is skipped. -/
theorem stays_scan_first (cur : List UInt8) (hrest : slice m cur.length rest.length = rest) (hn : cur.length + rest.length = n)
    (k : Nat) : Stays n (scanHandshake malloc cur.length k ⟨[], 0, cur.length⟩) m
      (ScanRoom malloc m n rest.length k ((feeds cur.length cur (rest.take k)).drop 1)) := by
  induction rest generalizing cur k with
  | nil =>
    rw [List.take_nil]
    exact stays_scan_end [] _ k 0 cur.length hn.ge
  | cons b rest ih =>
    rw [List.length_cons, slice_succ] at hrest
    obtain ⟨hb, htail⟩ := List.cons.inj hrest
    rw [List.length_cons] at hn ⊢
    cases k with
    | zero => exact (stays_pure []).congr (iff_of_true trivial scanRoom_zero)
    | succ k =>
      rw [List.take_succ_cons, feeds]
      by_cases hlf : b = '\n'.toUInt8
      · rw [if_pos hlf, List.drop_one, List.tail_cons, scanRoom_succ, scanHandshake]
        refine Stays.congr (Reaches.stays (reaches_load _) ?_) (and_iff_right (by omega))
        rw [hb, if_pos hlf, if_pos rfl]
        exact stays_scan_lines [] (Nat.succ_ne_zero _) rfl htail (by simp; omega) [] k
      · rw [if_neg hlf]
        have hnext := ih (cur ++ [b]) (by rwa [List.length_append]) (by simp; omega) k
        rw [List.length_append] at hnext
        exact stays_scan_byte [] 0 cur.length (by rwa [hb]) (by omega) hnext

/-! ### The first extent -/

/-- Room in the first extent for the scan of `n` bytes: it holds them all, or a line that ends the scan, and each value
    that is copied ends in it. -/
def HandshakeRoom (malloc : Nat → Option Mem) (n : Nat) (first : List UInt8) : Prop :=
  let lines := (feeds 0 [] (first.take n)).drop 1
  (n ≤ first.length ∨ ∃ l ∈ lines, ends malloc l = true) ∧
    ∀ l ∈ lines.takeWhile fun l => !ends malloc l,
      (valueCopy l).src + toSize (valueCopy l).len ≤ first.length ∨ 0 ∈ first.drop (valueCopy l).src

theorem within_wsParseHandshake (malloc : Nat → Option Mem) (len : Int) (first : List UInt8) (past : Mem) :
    Within first.length ((wsParseHandshake malloc len).run { mem := ofBytes first past }).2 ↔
      HandshakeRoom malloc len.toNat first := by
  have hstays : Stays first.length (scanHandshake malloc 0 len.toNat ⟨[], 0, 0⟩) (ofBytes first past)
      (ScanRoom malloc (ofBytes first past) first.length first.length len.toNat ((feeds 0 [] (first.take len.toNat)).drop 1)) :=
    stays_scan_first [] slice_ofBytes_self (Nat.zero_add _) len.toNat
  have hzero : ∀ i, (∃ j, i ≤ j ∧ j < first.length ∧ ofBytes first past j = 0) ↔ 0 ∈ first.drop i := by
    intro i
    rw [List.mem_iff_getElem?]
    constructor
    · rintro ⟨j, hij, hj, hzero⟩
      refine ⟨j - i, ?_⟩
      rw [List.getElem?_drop, Nat.add_sub_cancel' hij, List.getElem?_eq_getElem hj, ← ofBytes_of_lt hj, hzero]
    · rintro ⟨j, hj⟩
      rw [List.getElem?_drop, List.getElem?_eq_some_iff] at hj
      obtain ⟨hlt, hzero⟩ := hj
      exact ⟨i + j, Nat.le_add_right i j, hlt, by rw [ofBytes_of_lt hlt, hzero]⟩
  rw [wsParseHandshake]
  refine hstays.within.trans ?_
  simp only [ScanRoom, Copy.EndsBefore, hzero]
  rfl

end Vcmp.Websockets
