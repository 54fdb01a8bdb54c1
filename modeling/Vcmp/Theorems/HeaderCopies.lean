import Vcmp.Lib.Loads
import Vcmp.Websockets.Handshake

/-! The copies that `ws_parse_handshake` makes into its entries: where they read and how long they are. -/

namespace Vcmp.Websockets
open ByteMem CInt CString

/-! ### Copies -/

/-- `strncpy(..., data + src, len)`, where `len` is an `int`. -/
structure Copy where
  src : Nat
  len : Int

def Copy.perform (c : Copy) (dest : Mem) (i : Nat) : Prog Mem := do
  let string ← loadString c.src (toSize c.len)
  return strncpy dest i string (toSize c.len)

/-- The copies of one line. -/
structure LineCopies where
  key : Copy
  value : Copy

def LineCopies.perform (c : LineCopies) (block : Mem) : Prog HeaderEntry := do
  let block ← c.key.perform block 0
  let block ← c.value.perform block offsetValue
  return ⟨block⟩

def lineCopies (lineBegin lineLen delimPos : Nat) : LineCopies where
  key := ⟨lineBegin, delimPos⟩
  value := ⟨lineBegin + delimPos + 2, (lineLen : Int) - 1 - delimPos - 2⟩

variable {m : Mem} {malloc : Nat → Option Mem} {cur rest l : List UInt8} {lineBegin i j n : Nat}

theorem copyLine_eq (st : Scan) (block : Mem) : copyLine st block =
    findDelim st.lineBegin 0 st.lineLen >>= fun delimPos => (lineCopies st.lineBegin st.lineLen delimPos).perform block := rfl

/-- The position of the first colon of a line, or 0. -/
def delim (l : List UInt8) : Nat := if ':'.toUInt8 ∈ l then l.idxOf ':'.toUInt8 else 0

/-- The copies of the scan over `n` bytes, for each line with the offset of its line feed; the line so far has
    `lineLen` bytes from `lineBegin` on. -/
def copiesIn (m : Mem) (i : Nat) : Nat → Nat → Nat → List (Nat × LineCopies)
  | 0, _, _ => []
  | n + 1, lineBegin, lineLen =>
    if m i = '\n'.toUInt8 then
      if lineBegin = 0 then copiesIn m (i + 1) n (i + 1) 0
      else if lineLen = 1 then []
      else
        (i, lineCopies lineBegin lineLen (delim (slice m lineBegin lineLen))) :: copiesIn m (i + 1) n (i + 1) 0
    else copiesIn m (i + 1) n lineBegin (lineLen + 1)

def Copy.result (m : Mem) (dest : Mem) (i : Nat) (c : Copy) : Mem :=
  strncpy dest i (cstr m c.src (toSize c.len)) (toSize c.len)

/-- The entry that the copies fill. -/
def LineCopies.entry (m : Mem) (block : Mem) (c : LineCopies) : HeaderEntry :=
  ⟨c.value.result m (c.key.result m block 0) offsetValue⟩

/-- The entries of the copies, in front of those of `head`; none at all where an allocation fails. -/
def entriesOf (m : Mem) (malloc : Nat → Option Mem) (head : List HeaderEntry) : List (Nat × LineCopies) → List HeaderEntry
  | [] => head
  | c :: copies =>
    match malloc c.1 with
    | none => []
    | some block => entriesOf m malloc (c.2.entry m block :: head) copies

/-! ### The scan makes these copies -/

theorem gives_loadString (i n : Nat) : Gives (loadString i n) m (cstr m i n) := fun touched =>
  run_loadString i n ⟨m, touched⟩

theorem gives_copy (c : Copy) (dest : Mem) (i : Nat) : Gives (c.perform dest i) m (c.result m dest i) :=
  (gives_loadString _ _).bind (gives_pure _)

theorem gives_perform (c : LineCopies) (block : Mem) : Gives (c.perform block) m (c.entry m block) :=
  (gives_copy c.key block 0).bind ((gives_copy c.value _ offsetValue).bind (gives_pure _))

theorem gives_findDelim (lineBegin j : Nat) (h : slice m (lineBegin + j) l.length = l) :
    Gives (findDelim lineBegin j l.length) m (if ':'.toUInt8 ∈ l then j + l.idxOf ':'.toUInt8 else 0) := by
  induction l generalizing j with
  | nil => exact gives_pure 0
  | cons b l ih =>
    rw [List.length_cons, slice_succ] at h
    obtain ⟨hb, hl⟩ := List.cons.inj h
    rw [List.length_cons, findDelim]
    refine (gives_load (lineBegin + j)).bind ?_
    rw [hb]
    split
    next hcolon =>
      subst hcolon
      rw [if_pos List.mem_cons_self, List.idxOf_cons_self]
      exact gives_pure j
    next hcolon =>
      have hrest := ih (j + 1) (Nat.add_assoc lineBegin j 1 ▸ hl)
      simp only [List.mem_cons, Ne.symm hcolon, false_or]
      rw [List.idxOf_cons_ne _ hcolon]
      have hadd : j + (List.idxOf ':'.toUInt8 l).succ = j + 1 + List.idxOf ':'.toUInt8 l := by omega
      rwa [hadd]

theorem gives_delim (m : Mem) (lineBegin n : Nat) :
    Gives (findDelim lineBegin 0 n) m (delim (slice m lineBegin n)) := by
  have hslice : slice m (lineBegin + 0) (slice m lineBegin n).length = slice m lineBegin n := by
    rw [length_slice, Nat.add_zero]
  have hgives := gives_findDelim lineBegin 0 hslice
  rw [length_slice] at hgives
  simpa only [delim, Nat.zero_add] using hgives

theorem gives_copyLine (st : Scan) (block : Mem) : Gives (copyLine st block) m
    ((lineCopies st.lineBegin st.lineLen (delim (slice m st.lineBegin st.lineLen))).entry m block) := by
  rw [copyLine_eq]
  exact (gives_delim m st.lineBegin st.lineLen).bind (gives_perform _ block)

/-- The scan stores the entries of its copies. -/
theorem gives_scanHandshake (malloc : Nat → Option Mem) (head : List HeaderEntry) (i n lineBegin lineLen : Nat) :
    Gives (scanHandshake malloc i n ⟨head, lineBegin, lineLen⟩) m
      (entriesOf m malloc head (copiesIn m i n lineBegin lineLen)) := by
  induction n generalizing i head lineBegin lineLen with
  | zero => exact gives_pure head
  | succ n ih =>
    rw [scanHandshake]
    refine (gives_load i).bind ?_
    rw [copiesIn]
    split
    · split
      · exact ih head (i + 1) (i + 1) 0
      split
      · exact gives_pure head
      · rw [entriesOf]
        cases malloc i with
        | none => exact gives_pure []
        | some block => exact (gives_copyLine _ block).bind (ih _ (i + 1) (i + 1) 0)
    · exact ih head (i + 1) lineBegin (lineLen + 1)

/-! ### The lines of the data -/

/-- The lines that a line feed ends. -/
def terminated (data : List UInt8) : List (List UInt8) := (data.splitOn '\n'.toUInt8).dropLast

/-- The lines behind the first one, up to one of a single byte. -/
def headerLines (data : List UInt8) : List (List UInt8) := ((terminated data).drop 1).takeWhile fun l => l.length ≠ 1

/-- A line whose name, and whose value between the byte behind the colon and the last one, are no longer than 255
    bytes; the value is not shorter than nothing. -/
def Fits (l : List UInt8) : Prop := delim l ≤ 255 ∧ delim l + 3 ≤ l.length ∧ l.length ≤ delim l + 258

/-- A copy of at most 255 bytes out of `n`. -/
def Copy.Inside (n : Nat) (c : Copy) : Prop := 0 ≤ c.len ∧ c.len ≤ 255 ∧ c.src + c.len ≤ n

def LineCopies.Inside (n : Nat) (c : LineCopies) : Prop := c.key.Inside n ∧ c.value.Inside n

theorem terminated_cons (clean : '\n'.toUInt8 ∉ cur) : terminated (cur ++ '\n'.toUInt8 :: rest) = cur :: terminated rest := by
  rw [terminated, List.splitOn_append_cons_self_of_not_mem clean, List.dropLast_cons_of_ne_nil (List.splitOn_ne_nil _ _)]
  rfl

theorem terminated_nil (clean : '\n'.toUInt8 ∉ cur) : terminated cur = [] := by
  rw [terminated, List.splitOn_eq_singleton clean]
  rfl

theorem delim_le (l : List UInt8) : delim l ≤ l.length := by
  rw [delim]
  split
  · exact List.idxOf_le_length
  · exact Nat.zero_le _

theorem lineCopies_inside (l : List UInt8) (h : lineBegin + l.length ≤ n) :
    (lineCopies lineBegin l.length (delim l)).Inside n ↔ Fits l := by
  have hle := delim_le l
  simp only [LineCopies.Inside, Copy.Inside, lineCopies, Fits]
  omega

theorem slice_snoc {b : UInt8} (hcur : slice m i cur.length = cur) (hb : m (i + cur.length) = b) :
    slice m i (cur ++ [b]).length = cur ++ [b] := by
  rw [List.length_append, slice_append, hcur, List.length_singleton, slice_succ, hb]
  rfl

/-- The copies of the lines from `cur` on, in front of the line feeds that are left to scan. -/
theorem copies_inside (cur : List UInt8) (later : lineBegin ≠ 0) (hcur : slice m lineBegin cur.length = cur)
    (hrest : slice m (lineBegin + cur.length) rest.length = rest) (clean : '\n'.toUInt8 ∉ cur)
    (bound : lineBegin + cur.length + rest.length ≤ n) :
    (∀ c ∈ copiesIn m (lineBegin + cur.length) rest.length lineBegin cur.length, c.2.Inside n) ↔
      ∀ l ∈ (terminated (cur ++ rest)).takeWhile fun l => l.length ≠ 1, Fits l := by
  induction rest generalizing lineBegin cur with
  | nil =>
    rw [List.append_nil, terminated_nil clean]
    exact iff_of_true (fun c hc => absurd hc List.not_mem_nil) fun l hl => absurd hl List.not_mem_nil
  | cons b rest ih =>
    rw [List.length_cons, slice_succ] at hrest
    obtain ⟨hb, htail⟩ := List.cons.inj hrest
    rw [List.length_cons] at bound ⊢
    rw [copiesIn, hb, hcur]
    by_cases hlf : b = '\n'.toUInt8
    · subst hlf
      rw [if_pos rfl, if_neg later, terminated_cons clean]
      by_cases hempty : cur.length = 1
      · rw [if_pos hempty, List.takeWhile_cons_of_neg (by simp [hempty])]
        exact iff_of_true (fun c hc => absurd hc List.not_mem_nil) fun l hl => absurd hl List.not_mem_nil
      · have hnext := ih [] (Nat.succ_ne_zero (lineBegin + cur.length)) rfl htail List.not_mem_nil (by simp; omega)
        rw [if_neg hempty, List.takeWhile_cons_of_pos (by simp [hempty]), List.forall_mem_cons, List.forall_mem_cons,
          lineCopies_inside cur (by omega)]
        exact and_congr_right fun _ => hnext
    · rw [if_neg hlf]
      have hnext := ih (cur ++ [b]) later (slice_snoc hcur hb)
        (by rw [List.length_append, ← Nat.add_assoc]; exact htail)
        (by simp [clean, Ne.symm hlf]) (by simp; omega)
      rw [List.append_assoc, List.singleton_append, List.length_append, ← Nat.add_assoc] at hnext
      exact hnext

theorem copies_first (cur : List UInt8) (hcur : slice m 0 cur.length = cur) (hrest : slice m cur.length rest.length = rest)
    (clean : '\n'.toUInt8 ∉ cur) (bound : cur.length + rest.length ≤ n) :
    (∀ c ∈ copiesIn m cur.length rest.length 0 cur.length, c.2.Inside n) ↔ ∀ l ∈ headerLines (cur ++ rest), Fits l := by
  induction rest generalizing cur with
  | nil =>
    rw [List.append_nil, headerLines, terminated_nil clean]
    exact iff_of_true (fun c hc => absurd hc List.not_mem_nil) fun l hl => absurd hl List.not_mem_nil
  | cons b rest ih =>
    rw [List.length_cons, slice_succ] at hrest
    obtain ⟨hb, htail⟩ := List.cons.inj hrest
    rw [List.length_cons] at bound ⊢
    rw [copiesIn, hb]
    by_cases hlf : b = '\n'.toUInt8
    · subst hlf
      rw [if_pos rfl, if_pos rfl, headerLines, terminated_cons clean]
      exact copies_inside [] (Nat.succ_ne_zero cur.length) rfl htail List.not_mem_nil (by simp; omega)
    · rw [if_neg hlf]
      have hnext := ih (cur ++ [b]) (slice_snoc hcur (by rwa [Nat.zero_add]))
        (by rw [List.length_append]; exact htail) (by simp [clean, Ne.symm hlf]) (by simp; omega)
      rw [List.append_assoc, List.singleton_append, List.length_append] at hnext
      exact hnext

/-- The copies of the whole scan. -/
def parseCopies (data : List UInt8) (past : Mem) : List (Nat × LineCopies) := copiesIn (ofBytes data past) 0 data.length 0 0

/-- The parser makes these copies, as long as its allocations succeed. -/
theorem gives_wsParseHandshake (malloc : Nat → Option Mem) (data : List UInt8) (past : Mem) :
    Gives (wsParseHandshake malloc data.length) (ofBytes data past)
      (entriesOf (ofBytes data past) malloc [] (parseCopies data past)) :=
  gives_scanHandshake malloc [] 0 data.length 0 0

/-- Each copy stays in the data and in its field if and only if each header line fits. -/
theorem parseCopies_inside_iff (data : List UInt8) (past : Mem) :
    (∀ c ∈ parseCopies data past, c.2.Inside data.length) ↔ ∀ l ∈ headerLines data, Fits l :=
  copies_first [] rfl slice_ofBytes_self List.not_mem_nil (Nat.zero_add _).le

/-- `a`, then a line without a colon, a carriage return or anything else: the value of -3 bytes is copied. -/
theorem empty_line_not_inside : (parseCopies ("a\n\n".toList.map Char.toUInt8) fun _ => 0).map (fun c => c.2.value.len) = [-3] ∧
    ¬∀ c ∈ parseCopies ("a\n\n".toList.map Char.toUInt8) fun _ => 0, c.2.Inside 3 := by
  have hlens : (parseCopies ("a\n\n".toList.map Char.toUInt8) fun _ => 0).map (fun c => c.2.value.len) = [-3] := by decide
  refine ⟨hlens, fun h => ?_⟩
  obtain ⟨c, hc, hlen⟩ := List.mem_map.mp (hlens ▸ List.mem_cons_self)
  have hinside := (h c hc).2.1
  rw [hlen] at hinside
  exact absurd hinside (by decide)

end Vcmp.Websockets
