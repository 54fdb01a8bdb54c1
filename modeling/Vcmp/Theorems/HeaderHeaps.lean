import Vcmp.Theorems.HeaderLookup
import Vcmp.Theorems.HeaderTable

/-! The header tables of one request in two heaps: lookups against the fields of the request and against what `malloc` left in the
entries. -/

namespace Vcmp.Websockets
open ByteMem CInt CString Uthash

variable {m past : Mem} {copies : List (Nat × LineCopies)}

/-! ### The table of a request -/

theorem map_entries_of_lines {lines : List (Field × Nat)} (h : List.Forall₂ (CopyOf m) copies lines) (blocks : Nat → Mem) :
    copies.map (fun c => (c.1, c.2.entry m (blocks c.1))) = lines.map fun l => (l.2, l.1.stored (blocks l.2)) := by
  induction h with
  | nil => rfl
  | cons hc _ ih => rw [List.map_cons, List.map_cons, ih, hc.1, hc.2]

theorem line_of_copy {lines : List (Field × Nat)} (h : List.Forall₂ (CopyOf m) copies lines) {c : Nat × LineCopies} (hc : c ∈ copies) :
    ∃ l ∈ lines, CopyOf m c l := by
  induction h with
  | nil => cases hc
  | @cons c' l _ lines hcopy _ ih =>
    rcases List.mem_cons.mp hc with rfl | hc
    · exact ⟨l, List.mem_cons_self, hcopy⟩
    · obtain ⟨l', hl', hcopy'⟩ := ih hc
      exact ⟨l', List.mem_cons_of_mem l hl', hcopy'⟩

section Made
variable {plain : PlainRequest} {blocks : Nat → Mem} {room : Nat → Alloc} {fresh : Handles Nat} {blank : Nat → HeaderEntry}
  {t : HeaderTable}

theorem PlainRequest.fields_short (plain : PlainRequest) : ∀ f ∈ plain.request.fields, f.Short := by
  intro f hf
  obtain ⟨h, -, rfl⟩ := List.mem_map.mp hf
  exact h.short

theorem PlainRequest.copied (plain : PlainRequest) (past : Mem) :
    List.Forall₂ (CopyOf (ofBytes plain.request.bytes past)) (parseCopies plain.request.bytes past) plain.request.lines :=
  copiesIn_request slice_ofBytes_self (fun f hf => (plain.fields_short f hf).line) fun f hf => (plain.fields_short f hf).2.1

theorem PlainRequest.parseCopies_length (plain : PlainRequest) (past : Mem) :
    (parseCopies plain.request.bytes past).length = plain.headers.length := by
  have hlines := congrArg List.length (map_fst_linesFrom (plain.request.startLine.length + 2) plain.request.fields)
  rw [List.length_map] at hlines
  exact ((plain.copied past).length_eq.trans hlines).trans (List.length_map _)

/-- The table of a request holds its fields, in the order of the lines. -/
theorem made_mirrors (short : plain.request.bytes.length < 2 ^ 31) (bounded : Bounded room plain.headers.length)
    (made : tableOf room plain.request.bytes past (fun i => some (blocks i)) fresh blank = .ok t) :
    ∃ order, Mirrors t (plain.request.lines.map fun l => (l.2, l.1.stored (blocks l.2))) order := by
  have hstored : storedBy (ofBytes plain.request.bytes past) (fun i => some (blocks i)) [] (parseCopies plain.request.bytes past) =
      plain.request.lines.map fun l => (l.2, l.1.stored (blocks l.2)) :=
    (storedBy_all blocks [] _).trans (map_entries_of_lines (plain.copied past) blocks)
  have hbounded : Bounded room (parseCopies plain.request.bytes past).length := (plain.parseCopies_length past).symm ▸ bounded
  rcases tableOf_mirrors (fun i => some (blocks i)) past fresh blank short hbounded with ⟨hexit, -⟩ | ⟨t', order, hrun, hm⟩
  · rw [made] at hexit
    cases hexit
  · rw [made] at hrun
    cases hrun
    exact ⟨order, hstored ▸ hm⟩

theorem Mirrors.entry_line {lines : List (Field × Nat)} {order : List Nat}
    (hm : Mirrors t (lines.map fun l => (l.2, l.1.stored (blocks l.2))) order) {l : Field × Nat} (hl : l ∈ lines) :
    t.entry l.2 = l.1.stored (blocks l.2) :=
  hm.entries (l.2, l.1.stored (blocks l.2)) (List.mem_map_of_mem hl)

end Made

/-! ### Two heaps -/

/-- The value of the entry that a lookup finds. -/
def HeaderTable.valueOf (t : HeaderTable) (key : List UInt8) : Except Halt (Option (List UInt8)) := do
  return (← t.get key).map HeaderEntry.value

/-- A value is that of a header with the name; there is none only where no header has it. -/
structure PlainRequest.Answers (plain : PlainRequest) (key : List UInt8) (value : Option (List UInt8)) : Prop where
  found : ∀ v, value = some v → ∃ h ∈ plain.headers, h.name = key ∧ h.value = v
  missing : value = none → ∀ h ∈ plain.headers, h.name ≠ key

/-- The tables of two heaps hold the strings of the headers, each ended right behind its bytes, and give the same value for each
    name, which is one in the request. -/
structure Faithful (plain : PlainRequest) (t₁ t₂ : HeaderTable) : Prop where
  strings₁ : ∀ l ∈ plain.request.lines, stringsOf (t₁.entry l.2) = l.1.strings
  strings₂ : ∀ l ∈ plain.request.lines, stringsOf (t₂.entry l.2) = l.1.strings
  lookups : ∀ key, key.length < 2 ^ 32 → ∃ value, t₁.valueOf key = .ok value ∧ t₂.valueOf key = .ok value ∧ plain.Answers key value

section Heaps
variable {plain : PlainRequest} {blocks₁ blocks₂ : Nat → Mem} {room₁ room₂ : Nat → Alloc} {t₁ t₂ t₁' t₂' : HeaderTable}
  {stored : List (Nat × HeaderEntry)} {order : List Nat}

/-- Where the keys are the same, the tables have their entries in the same order. -/
theorem twins_addCopies {order₁ : List Nat} (hm : Mirrors t₁ stored order₁) (ht : Twins t₁.hash t₂.hash (stored.map Prod.fst) order)
    (fresh : (stored.map Prod.fst ++ copies.map Prod.fst).Nodup) (few : stored.length + copies.length < 2 ^ 32)
    (bounded₁ : Bounded room₁ (stored.length + copies.length)) (bounded₂ : Bounded room₂ (stored.length + copies.length))
    (keys : ∀ c ∈ copies, (c.2.entry m (blocks₁ c.1)).key = (c.2.entry m (blocks₂ c.1)).key)
    (run₁ : addCopies m (fun i => some (blocks₁ i)) room₁ t₁ copies = .ok t₁')
    (run₂ : addCopies m (fun i => some (blocks₂ i)) room₂ t₂ copies = .ok t₂') :
    ∃ items order, Twins t₁'.hash t₂'.hash items order := by
  induction copies generalizing t₁ t₂ stored order₁ order with
  | nil =>
    cases run₁
    cases run₂
    exact ⟨_, order, ht⟩
  | cons c copies ih =>
    rw [List.length_cons] at few bounded₁ bounded₂
    have hname : c.1 ∉ stored.map Prod.fst := fun hmem => (List.nodup_append.mp fresh).2.2 c.1 hmem c.1 List.mem_cons_self rfl
    obtain ⟨u₁, hadd₁, run₁⟩ := ok_of_bind run₁
    obtain ⟨u₂, hadd₂, run₂⟩ := ok_of_bind run₂
    obtain ⟨hash₁, hhash₁, hu₁⟩ := ok_of_bind hadd₁
    obtain ⟨hash₂, hhash₂, hu₂⟩ := ok_of_bind hadd₂
    cases hu₁
    cases hu₂
    rcases hm.add hname (by omega) (bounded₁.modest c.1) (c.2.entry m (blocks₁ c.1)) with ⟨hexit, -⟩ | ⟨u, order', hadd, hm'⟩
    · rw [hadd₁] at hexit
      cases hexit
    rw [hadd₁] at hadd
    cases hadd
    rw [← keys c List.mem_cons_self] at hhash₂
    obtain ⟨order'', ht'⟩ := ht.add hname (by rw [List.length_map]; omega) ((bounded₁.modest c.1).imp_left hm.log2_lt)
      ((bounded₂.modest c.1).imp_left fun hfew => ht.log2 c.1 ▸ hm.log2_lt hfew) hhash₁ hhash₂
    have hlength : (stored ++ [(c.1, c.2.entry m (blocks₁ c.1))]).length + copies.length = stored.length + (copies.length + 1) := by
      rw [List.length_append, List.length_singleton, Nat.add_assoc, Nat.add_comm 1]
    exact ih hm' (by rwa [List.map_append]) (by rwa [List.map_append, List.append_assoc]) (hlength ▸ few) (hlength ▸ bounded₁)
      (hlength ▸ bounded₂) (fun c' hc => keys c' (List.mem_cons_of_mem c hc)) run₁ run₂

variable {fresh₁ fresh₂ : Handles Nat} {blank₁ blank₂ : Nat → HeaderEntry}

theorem twins_made (short : plain.request.bytes.length < 2 ^ 31) (bounded₁ : Bounded room₁ plain.headers.length)
    (bounded₂ : Bounded room₂ plain.headers.length)
    (same : ∀ l ∈ plain.request.lines, stringsOf (l.1.stored (blocks₁ l.2)) = stringsOf (l.1.stored (blocks₂ l.2)))
    (made₁ : tableOf room₁ plain.request.bytes past (fun i => some (blocks₁ i)) fresh₁ blank₁ = .ok t₁)
    (made₂ : tableOf room₂ plain.request.bytes past (fun i => some (blocks₂ i)) fresh₂ blank₂ = .ok t₂) :
    ∃ items order, Twins t₁.hash t₂.hash items order := by
  obtain ⟨hnodup, -, hlength⟩ := copiesIn_names (ofBytes plain.request.bytes past) 0 plain.request.bytes.length 0 0
  have hcount : 0 + (parseCopies plain.request.bytes past).length = plain.headers.length :=
    (Nat.zero_add _).trans (plain.parseCopies_length past)
  have hfew : 0 + (parseCopies plain.request.bytes past).length < 2 ^ 32 :=
    (Nat.zero_add _).trans_lt (Nat.lt_of_le_of_lt hlength (by omega))
  have hnull : Twins (⟨fresh₁, none⟩ : Hash Nat) ⟨fresh₂, none⟩ [] [] :=
    ⟨⟨rfl, rfl⟩, ⟨rfl, rfl⟩, rfl, fun _ hx => absurd hx List.not_mem_nil⟩
  rw [tableOf_eq] at made₁ made₂
  refine twins_addCopies (.null fresh₁ blank₁) hnull hnodup hfew (hcount ▸ bounded₁) (hcount ▸ bounded₂) (fun c hc => ?_) made₁ made₂
  obtain ⟨l, hl, hname, hstored⟩ := line_of_copy (plain.copied past) hc
  rw [hstored, hstored, hname]
  exact congrArg Prod.fst (same l hl)

theorem PlainRequest.mem_headers {l : Field × Nat} (hl : l ∈ plain.request.lines) :
    ∃ h ∈ plain.headers, h.name = l.1.name ∧ h.value = l.1.value.tail := by
  obtain ⟨h, hh, hfield⟩ := List.mem_map.mp (mem_linesFrom hl)
  exact ⟨h, hh, hfield ▸ rfl, hfield ▸ rfl⟩

theorem PlainRequest.mem_lines {h : Header} (hh : h ∈ plain.headers) : ∃ l ∈ plain.request.lines, l.1 = h.field := by
  have hfields : h.field ∈ plain.request.lines.map Prod.fst := by
    rw [Request.lines, map_fst_linesFrom]
    exact List.mem_map_of_mem hh
  exact List.mem_map.mp hfields

/-- Where the entries of both tables hold the strings of the headers, a lookup that finds the same entry in both finds a header. -/
theorem answers_of_find (key : List UInt8) {out : Option Nat}
    (strings₁ : ∀ l ∈ plain.request.lines, stringsOf (t₁.entry l.2) = l.1.strings)
    (strings₂ : ∀ l ∈ plain.request.lines, stringsOf (t₂.entry l.2) = l.1.strings)
    (perm : order.Perm (plain.request.lines.map Prod.snd)) (find : out = order.find? fun x => (t₁.entry x).key == key) :
    (out.map t₁.entry).map HeaderEntry.value = (out.map t₂.entry).map HeaderEntry.value ∧
      plain.Answers key ((out.map t₁.entry).map HeaderEntry.value) := by
  cases hout : out with
  | none =>
    rw [hout] at find
    refine ⟨rfl, fun v hv => (by cases hv), fun _ h hh hkey => ?_⟩
    obtain ⟨l, hl, hfield⟩ := plain.mem_lines hh
    have hne := List.find?_eq_none.mp find.symm l.2 (perm.mem_iff.mpr (List.mem_map_of_mem hl))
    have hname : (t₁.entry l.2).key = l.1.name := congrArg Prod.fst (strings₁ l hl)
    rw [hname, hfield] at hne
    exact hne (beq_iff_eq.mpr hkey)
  | some x =>
    rw [hout] at find
    obtain ⟨l, hl, rfl⟩ := List.mem_map.mp (perm.mem_iff.mp (List.mem_of_find?_eq_some find.symm))
    have hfound := List.find?_some find.symm
    have hkey : (t₁.entry l.2).key = key := beq_iff_eq.mp hfound
    have hname : (t₁.entry l.2).key = l.1.name := congrArg Prod.fst (strings₁ l hl)
    have hvalue₁ : (t₁.entry l.2).value = l.1.value.tail := congrArg Prod.snd (strings₁ l hl)
    have hvalue₂ : (t₂.entry l.2).value = l.1.value.tail := congrArg Prod.snd (strings₂ l hl)
    refine ⟨congrArg some (hvalue₁.trans hvalue₂.symm), fun v hv => ?_, fun hv => (by cases hv)⟩
    obtain ⟨h, hh, hhname, hhvalue⟩ := plain.mem_headers hl
    exact ⟨h, hh, hhname.trans (hname.symm.trans hkey), hhvalue.trans (hvalue₁.symm.trans (Option.some.inj hv))⟩

variable (plain) in
/-- Lookups do not depend on the heap, for headers as browsers write them, if and only if both heaps hold zeros where
    the copied strings end. -/
theorem faithful_iff (short : plain.request.bytes.length < 2 ^ 31) (bounded₁ : Bounded room₁ plain.headers.length)
    (bounded₂ : Bounded room₂ plain.headers.length)
    (made₁ : tableOf room₁ plain.request.bytes past (fun i => some (blocks₁ i)) fresh₁ blank₁ = .ok t₁)
    (made₂ : tableOf room₂ plain.request.bytes past (fun i => some (blocks₂ i)) fresh₂ blank₂ = .ok t₂) :
    Faithful plain t₁ t₂ ↔ ∀ l ∈ plain.request.lines, l.1.Cleared (blocks₁ l.2) ∧ l.1.Cleared (blocks₂ l.2) := by
  obtain ⟨order₁, hm₁⟩ := made_mirrors short bounded₁ made₁
  obtain ⟨order₂, hm₂⟩ := made_mirrors short bounded₂ made₂
  have hshort {l : Field × Nat} (hl : l ∈ plain.request.lines) : l.1.Short := plain.fields_short _ (mem_linesFrom hl)
  constructor
  · rintro ⟨h₁, h₂, -⟩ l hl
    have hstrings₁ := h₁ l hl
    have hstrings₂ := h₂ l hl
    rw [hm₁.entry_line hl] at hstrings₁
    rw [hm₂.entry_line hl] at hstrings₂
    exact ⟨(strings_stored_iff (hshort hl)).mp hstrings₁, (strings_stored_iff (hshort hl)).mp hstrings₂⟩
  · intro cleared
    have hstrings₁ : ∀ l ∈ plain.request.lines, stringsOf (l.1.stored (blocks₁ l.2)) = l.1.strings := fun l hl =>
      (strings_stored_iff (hshort hl)).mpr (cleared l hl).1
    have hstrings₂ : ∀ l ∈ plain.request.lines, stringsOf (l.1.stored (blocks₂ l.2)) = l.1.strings := fun l hl =>
      (strings_stored_iff (hshort hl)).mpr (cleared l hl).2
    obtain ⟨items, order, htwins⟩ := twins_made short bounded₁ bounded₂ (fun l hl => (hstrings₁ l hl).trans (hstrings₂ l hl).symm)
      made₁ made₂
    have hentries₁ : ∀ l ∈ plain.request.lines, stringsOf (t₁.entry l.2) = l.1.strings := fun l hl =>
      (congrArg stringsOf (hm₁.entry_line hl)).trans (hstrings₁ l hl)
    have hentries₂ : ∀ l ∈ plain.request.lines, stringsOf (t₂.entry l.2) = l.1.strings := fun l hl =>
      (congrArg stringsOf (hm₂.entry_line hl)).trans (hstrings₂ l hl)
    refine ⟨hentries₁, hentries₂, fun key _ => ?_⟩
    have hperm : order₁.Perm (plain.request.lines.map Prod.snd) := by
      have h := hm₁.represents.perm
      rwa [List.map_map] at h
    have hfind₁ := hm₁.find key
    have hfind₂ : hashFind t₂.hash key = .ok (order₁.find? fun x => (t₁.entry x).key == key) := (htwins.find key).symm.trans hfind₁
    obtain ⟨hsame, hanswers⟩ := answers_of_find key hentries₁ hentries₂ hperm rfl
    refine ⟨_, ?_, ?_, hanswers⟩
    · rw [HeaderTable.valueOf, HeaderTable.get, hfind₁]
      rfl
    · rw [HeaderTable.valueOf, HeaderTable.get, hfind₂, hsame]
      rfl

end Heaps

/-- The table of the sample where each block of an entry is this one. -/
def sampleHeap (block : Mem) : Except Halt HeaderTable :=
  tableOf (fun _ => ampleRoom) samplePlain.request.bytes (fun _ => 0) (fun _ => some block) blankTable.hash.handles blankTable.entry

theorem sampleHeap_value : (sampleHeap (fun _ => 0) >>= fun t => t.valueOf [65]) = .ok (some [98]) := by
  decide +kernel

theorem faithful_sample : ∃ t, sampleHeap (fun _ => 0) = .ok t ∧ Faithful samplePlain t t := by
  obtain ⟨t, made, -⟩ := ok_of_bind sampleHeap_value
  have hiff := faithful_iff samplePlain (by decide) (Or.inl (by decide)) (Or.inl (by decide)) made made
  exact ⟨t, made, hiff.mpr fun l _ => ⟨⟨rfl, rfl⟩, rfl, rfl⟩⟩

/-- A byte left behind the copied name makes it another name. -/
theorem leftover_not_faithful : ∃ t₁ t₂, sampleHeap (fun _ => 0) = .ok t₁ ∧
    sampleHeap (Function.update (fun _ => 0) 1 66) = .ok t₂ ∧
    t₁.valueOf [65] = .ok (some [98]) ∧ t₂.valueOf [65] = .ok none ∧ ¬Faithful samplePlain t₁ t₂ := by
  have hleft : (sampleHeap (Function.update (fun _ => 0) 1 66) >>= fun t => t.valueOf [65]) = .ok none := by decide +kernel
  obtain ⟨t₁, made₁, hvalue₁⟩ := ok_of_bind sampleHeap_value
  obtain ⟨t₂, made₂, hvalue₂⟩ := ok_of_bind hleft
  refine ⟨t₁, t₂, made₁, made₂, hvalue₁, hvalue₂, fun faithful => ?_⟩
  obtain ⟨value, h₁, h₂, -⟩ := faithful.lookups [65] (by decide)
  rw [hvalue₁] at h₁
  rw [hvalue₂, ← h₁] at h₂
  cases h₂

end Vcmp.Websockets
