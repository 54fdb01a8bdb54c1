import Vcmp.Theorems.HeaderCopies
import Vcmp.Websockets.Request

/-! What `ws_parse_handshake` makes of a request: the entries of its fields, each in the block that was allocated
    for its line. -/

namespace Vcmp.Websockets
open ByteMem CInt CString

/-! ### One line -/

variable {f : Field} {block m : Mem} {malloc : Nat → Option Mem} {line : List UInt8} {fields : List Field} {request : Request}
  {copies : List (Nat × LineCopies)} {i n lineBegin lineLen : Nat}

theorem Field.length_line (f : Field) : f.line.length = f.name.length + f.value.length + 2 := by
  simp only [line, List.length_append, List.length_cons, List.length_nil]
  omega

theorem Field.slices (h : slice m i f.line.length = f.line) : slice m i f.name.length = f.name ∧
    m (i + f.name.length) = ':'.toUInt8 ∧ slice m (i + f.name.length + 1) f.value.length = f.value := by
  rw [line, List.length_append] at h
  obtain ⟨hname, hrest⟩ := slice_eq_append h
  rw [List.length_cons, slice_succ] at hrest
  obtain ⟨hcolon, hrest⟩ := List.cons.inj hrest
  rw [List.length_append] at hrest
  exact ⟨hname, hcolon, (slice_eq_append hrest).1⟩

theorem Field.delim_line (f : Field) : delim f.line = f.name.length := by
  have hcolon : ':'.toUInt8 ∈ f.line := List.mem_append_right _ List.mem_cons_self
  rw [delim, if_pos hcolon, line, List.idxOf_append_of_notMem fun hmem => (f.nameClean _ hmem).1 rfl, List.idxOf_cons_self, Nat.add_zero]

/-- The copies of the line of a field. -/
theorem entry_stored (h : slice m lineBegin f.line.length = f.line) (short : f.line.length < 2 ^ 31) (valued : f.value ≠ [])
    (block : Mem) : (lineCopies lineBegin f.line.length (delim (slice m lineBegin f.line.length))).entry m block = f.stored block := by
  obtain ⟨hname, -, hvalue⟩ := Field.slices h
  have hlength := f.length_line
  obtain ⟨b, hb⟩ : ∃ b, f.value = b :: f.value.tail := ⟨_, (List.cons_head_tail valued).symm⟩
  have htail : slice m (lineBegin + f.name.length + 2) f.value.tail.length = f.value.tail := by
    rw [hb, List.length_cons, slice_succ] at hvalue
    exact (List.cons.inj hvalue).2
  have hkey : cstr m lineBegin f.name.length = f.name :=
    cstr_self hname fun hzero => (f.nameClean 0 hzero).2.2.2 rfl
  have hval : cstr m (lineBegin + f.name.length + 2) f.value.tail.length = f.value.tail :=
    cstr_self htail fun hzero => (f.valueClean 0 (List.mem_of_mem_tail hzero)).2.2 rfl
  have hlen : ((f.line.length : Int) - 1) - (f.name.length : Int) - 2 = (f.value.tail.length : Int) := by
    have htl := congrArg List.length hb
    rw [List.length_cons] at htl
    omega
  rw [h, f.delim_line]
  simp only [LineCopies.entry, lineCopies, Copy.result, hlen, toSize_natCast (show f.name.length < 2 ^ 31 by omega),
    toSize_natCast (show f.value.tail.length < 2 ^ 31 by rw [List.length_tail]; omega), hkey, hval, Field.stored]

/-! ### The lines of the request -/

theorem copiesIn_line (h : slice m i line.length = line) (clean : '\n'.toUInt8 ∉ line) :
    copiesIn m i (line.length + n) lineBegin lineLen = copiesIn m (i + line.length) n lineBegin (lineLen + line.length) := by
  induction line generalizing i lineLen with
  | nil => rw [List.length_nil, Nat.zero_add, Nat.add_zero, Nat.add_zero]
  | cons b line ih =>
    rw [List.length_cons, slice_succ] at h
    obtain ⟨hb, hline⟩ := List.cons.inj h
    have hne : m i ≠ '\n'.toUInt8 := fun heq => clean (heq ▸ hb ▸ List.mem_cons_self)
    rw [List.length_cons, Nat.add_right_comm, copiesIn, if_neg hne, ih hline fun hmem => clean (List.mem_cons_of_mem b hmem)]
    rw [Nat.add_assoc, Nat.add_assoc, Nat.add_comm 1]

theorem Field.line_clean (f : Field) : '\n'.toUInt8 ∉ f.line := by
  intro hmem
  rcases List.mem_append.mp hmem with hname | hrest
  · exact (f.nameClean _ hname).2.2.1 rfl
  rcases List.mem_cons.mp hrest with hcolon | hrest
  · exact absurd hcolon (by decide)
  rcases List.mem_append.mp hrest with hvalue | hend
  · exact (f.valueClean _ hvalue).2.1 rfl
  · exact absurd hend (by decide)

theorem fieldsBytes_cons : fieldsBytes (f :: fields) = f.line ++ ('\n'.toUInt8 :: fieldsBytes fields) := by
  simp [fieldsBytes]

theorem length_line_le {f : Field} (hf : f ∈ fields) : f.line.length ≤ (fieldsBytes fields).length := by
  have hsub : (f.line ++ ['\n'.toUInt8]).Sublist (fieldsBytes fields) :=
    List.sublist_flatten_of_mem (List.mem_map.mpr ⟨f, hf, rfl⟩)
  have hle := hsub.length_le
  rw [List.length_append] at hle
  omega

theorem Request.length_bytes (request : Request) :
    request.bytes.length = request.startLine.length + (fieldsBytes request.fields).length + 4 := by
  simp only [bytes, List.length_append, List.length_cons, List.length_nil]
  omega

/-- These copies store the field of the line, whatever its block holds. -/
def CopyOf (m : Mem) (c : Nat × LineCopies) (l : Field × Nat) : Prop := c.1 = l.2 ∧ ∀ block, c.2.entry m block = l.1.stored block

/-- From a field on, the copies are those of the fields up to the empty line. -/
theorem copiesIn_fields (h : slice m i ((fieldsBytes fields).length + 2) = fieldsBytes fields ++ ['\r'.toUInt8, '\n'.toUInt8])
    (pos : 0 < i) (short : ∀ f ∈ fields, f.line.length < 2 ^ 31) (valued : ∀ f ∈ fields, f.value ≠ []) :
    List.Forall₂ (CopyOf m) (copiesIn m i ((fieldsBytes fields).length + 2) i 0) (linesFrom i fields) := by
  induction fields generalizing i with
  | nil =>
    have hend : slice m i 2 = ['\r'.toUInt8, '\n'.toUInt8] := h
    rw [slice_succ, slice_succ] at hend
    obtain ⟨hcr, hend⟩ := List.cons.inj hend
    have hline : slice m i ['\r'.toUInt8].length = ['\r'.toUInt8] := congrArg (fun b => [b]) hcr
    have hnone : copiesIn m i (['\r'.toUInt8].length + 1) i 0 = [] := by
      rw [copiesIn_line hline (by decide), copiesIn]
      exact (if_pos (List.cons.inj hend).1).trans ((if_neg (Nat.ne_of_gt pos)).trans (if_pos rfl))
    exact hnone ▸ .nil
  | cons f fields ih =>
    have hlength : (fieldsBytes (f :: fields)).length + 2 = f.line.length + ((fieldsBytes fields).length + 2 + 1) := by
      rw [fieldsBytes_cons, List.length_append, List.length_cons]
      omega
    rw [hlength] at h ⊢
    rw [fieldsBytes_cons, List.append_assoc, List.cons_append] at h
    obtain ⟨hline, hrest⟩ := slice_eq_append (l := f.line) (r := '\n'.toUInt8 :: (fieldsBytes fields ++ ['\r'.toUInt8, '\n'.toUInt8]))
      (by simpa only [List.length_cons, List.length_append, List.length_nil] using h)
    rw [List.length_cons, slice_succ] at hrest
    obtain ⟨hlf, hrest⟩ := List.cons.inj hrest
    have hlong : 0 + f.line.length ≠ 1 := by
      have hfield := f.length_line
      omega
    rw [copiesIn_line hline f.line_clean, copiesIn, if_pos hlf, if_neg (Nat.ne_of_gt pos), if_neg hlong, Nat.zero_add, linesFrom]
    refine .cons ⟨rfl, entry_stored hline (short f List.mem_cons_self) (valued f List.mem_cons_self)⟩ (ih ?_ (Nat.succ_pos _)
      (fun f' hf => short f' (List.mem_cons_of_mem f hf)) fun f' hf => valued f' (List.mem_cons_of_mem f hf))
    simpa only [List.length_append, List.length_cons, List.length_nil] using hrest

/-- The copies of the request that lies at offset 0 are those of its fields. -/
theorem copiesIn_request (h : slice m 0 request.bytes.length = request.bytes)
    (short : ∀ f ∈ request.fields, f.line.length < 2 ^ 31) (valued : ∀ f ∈ request.fields, f.value ≠ []) :
    List.Forall₂ (CopyOf m) (copiesIn m 0 request.bytes.length 0 0) request.lines := by
  have hbytes : request.bytes = (request.startLine ++ ['\r'.toUInt8]) ++
      ('\n'.toUInt8 :: (fieldsBytes request.fields ++ ['\r'.toUInt8, '\n'.toUInt8])) := by
    simp [Request.bytes]
  have hlength : request.bytes.length = (request.startLine ++ ['\r'.toUInt8]).length +
      ((fieldsBytes request.fields).length + 2 + 1) := by
    rw [hbytes, List.length_append, List.length_cons, @List.length_append _ (fieldsBytes _)]
    rfl
  rw [hlength] at h
  rw [hbytes] at h
  obtain ⟨hstart, hrest⟩ := slice_eq_append (l := request.startLine ++ ['\r'.toUInt8])
    (r := '\n'.toUInt8 :: (fieldsBytes request.fields ++ ['\r'.toUInt8, '\n'.toUInt8]))
    (by simpa only [List.length_cons, List.length_append, List.length_nil] using h)
  rw [List.length_cons, slice_succ] at hrest
  obtain ⟨hlf, hrest⟩ := List.cons.inj hrest
  have clean : '\n'.toUInt8 ∉ request.startLine ++ ['\r'.toUInt8] := by
    intro hmem
    rcases List.mem_append.mp hmem with hmem | hmem
    · exact request.startClean hmem
    · exact absurd hmem (by decide)
  have hfields := copiesIn_fields (i := 0 + (request.startLine ++ ['\r'.toUInt8]).length + 1)
    (by simpa only [List.length_append, List.length_cons, List.length_nil] using hrest) (Nat.succ_pos _) short valued
  have hstep : copiesIn m 0 request.bytes.length 0 0 = copiesIn m (0 + (request.startLine ++ ['\r'.toUInt8]).length + 1)
      ((fieldsBytes request.fields).length + 2) (0 + (request.startLine ++ ['\r'.toUInt8]).length + 1) 0 := by
    rw [hlength, copiesIn_line hstart clean, copiesIn, if_pos hlf, if_pos rfl]
  rw [hstep]
  simpa [Request.lines] using hfields

theorem entriesOf_lines {lines : List (Field × Nat)} (h : List.Forall₂ (CopyOf m) copies lines) (head : List HeaderEntry) :
    entriesOf m malloc head copies = storeLines malloc head lines := by
  induction h generalizing head with
  | nil => rfl
  | @cons c l _ _ hc _ ih =>
    rw [entriesOf, storeLines, hc.1]
    cases malloc l.2 with
    | none => rfl
    | some block => exact (ih _).trans (by rw [hc.2])

/-- The parser stores the fields of the request that lies at its pointer. -/
theorem run_wsParseHandshake (h : slice m 0 request.bytes.length = request.bytes)
    (short : ∀ f ∈ request.fields, f.line.length < 2 ^ 31) (valued : ∀ f ∈ request.fields, f.value ≠ []) :
    ((wsParseHandshake malloc request.bytes.length).run { mem := m }).1 = storeLines malloc [] request.lines :=
  (gives_scanHandshake malloc [] 0 request.bytes.length 0 0).value.trans (entriesOf_lines (copiesIn_request h short valued) [])

/-! ### The table -/

theorem mem_linesFrom {fields : List Field} {i : Nat} {l : Field × Nat} (h : l ∈ linesFrom i fields) : l.1 ∈ fields := by
  induction fields generalizing i with
  | nil => cases h
  | cons f fields ih =>
    rcases List.mem_cons.mp h with rfl | h
    · exact List.mem_cons_self
    · exact List.mem_cons_of_mem f (ih h)

section Table
variable {lines : List (Field × Nat)} {head : List HeaderEntry} {e : HeaderEntry} {key : List UInt8}

theorem storeLines_some {l : Field × Nat} (h : malloc l.2 = some block) :
    storeLines malloc head (l :: lines) = storeLines malloc (l.1.stored block :: head) lines := by
  rw [storeLines, h]

theorem storeLines_none {l : Field × Nat} (hl : l ∈ lines) (h : malloc l.2 = none) : storeLines malloc head lines = [] := by
  induction lines generalizing head with
  | nil => cases hl
  | cons l' lines ih =>
    rw [storeLines]
    cases hm : malloc l'.2 with
    | none => rfl
    | some block =>
      rcases List.mem_cons.mp hl with rfl | hl
      · rw [h] at hm
        cases hm
      · exact ih hl

theorem mem_storeLines (all : ∀ l ∈ lines, (malloc l.2).isSome = true) : e ∈ storeLines malloc head lines ↔
    e ∈ head ∨ ∃ l ∈ lines, ∃ block ∈ malloc l.2, e = l.1.stored block := by
  induction lines generalizing head with
  | nil => simp [storeLines]
  | cons l lines ih =>
    obtain ⟨block, hblock⟩ := Option.isSome_iff_exists.mp (all l List.mem_cons_self)
    rw [storeLines_some hblock, ih fun l' hl => all l' (List.mem_cons_of_mem l hl)]
    simp only [List.mem_cons, exists_eq_or_imp, hblock, Option.mem_def, Option.some.injEq, exists_eq_left']
    tauto

/-- What a lookup compares of an entry: the name and, behind it, what the block held, up to the first zero. -/
theorem stored_key_iff (fits : f.name.length ≤ offsetValue) (clean : 0 ∉ key) (short : key.length < offsetValue) :
    (f.stored block).key = key ↔ f.name ++ cstr block f.name.length addressSpace = key := by
  have hblock : ∀ j, f.name.length ≤ j → j < offsetValue → (f.stored block).mem j = block j := by
    intro j hj hlt
    exact (strncpy_of_lt hlt).trans (strncpy_of_le ((Nat.zero_add _).symm ▸ hj))
  have hslice : slice (f.stored block).mem 0 f.name.length = f.name :=
    (slice_congr fun j _ hj => strncpy_of_lt (by omega)).trans (slice_strncpy block)
  have hle : f.name.length ≤ addressSpace := Nat.le_trans fits (by decide)
  have hkey : (f.stored block).key =
      f.name ++ cstr (f.stored block).mem f.name.length (addressSpace - f.name.length) := by
    have hcstr := cstr_slice (n := addressSpace - f.name.length) hslice fun hzero => (f.nameClean 0 hzero).2.2.2 rfl
    rwa [Nat.add_sub_cancel' hle, Nat.zero_add] at hcstr
  rw [hkey]
  by_cases hprefix : f.name <+: key
  · obtain ⟨rest, rfl⟩ := hprefix
    have hrest : 0 ∉ rest := fun hzero => clean (List.mem_append_right _ hzero)
    rw [List.length_append] at short
    have hagree : slice (f.stored block).mem f.name.length (rest.length + 1) = slice block f.name.length (rest.length + 1) :=
      slice_congr fun j hj hlt => hblock j hj (by omega)
    have hlong : offsetValue < addressSpace := by decide
    rw [List.append_cancel_left_eq, List.append_cancel_left_eq, cstr_eq_iff hrest (by omega), cstr_eq_iff hrest (by omega),
      hagree]
  · exact iff_of_false (fun h => hprefix ⟨_, h⟩) fun h => hprefix ⟨_, h⟩

theorem Field.zeroFree_name (f : Field) : 0 ∉ f.name := fun hzero => (f.nameClean 0 hzero).2.2.2 rfl

theorem Field.zeroFree_value (f : Field) : 0 ∉ f.value.tail := fun hzero =>
  (f.valueClean 0 (List.mem_of_mem_tail hzero)).2.2 rfl

theorem key_stored_iff (short : f.name.length < offsetValue) :
    (f.stored block).key = f.name ↔ block f.name.length = 0 := by
  have hlong : offsetValue < addressSpace := by decide
  have hcstr : cstr (strncpy block 0 f.name f.name.length) 0 addressSpace = f.name ↔ block (0 + f.name.length) = 0 :=
    cstr_strncpy_iff f.zeroFree_name (by omega)
  rw [Nat.zero_add] at hcstr
  rw [HeaderEntry.key, ← hcstr, cstr_eq_iff f.zeroFree_name (by omega), cstr_eq_iff f.zeroFree_name (by omega)]
  have hslice : slice (f.stored block).mem 0 (f.name.length + 1) =
      slice (strncpy block 0 f.name f.name.length) 0 (f.name.length + 1) :=
    slice_congr fun j _ hj => strncpy_of_lt (by omega)
  rw [hslice]

theorem value_stored_iff (short : f.name.length ≤ offsetValue) (hlength : f.value.tail.length < addressSpace) :
    (f.stored block).value = f.value.tail ↔ block (offsetValue + f.value.tail.length) = 0 := by
  have hcstr : (f.stored block).value = f.value.tail ↔
      strncpy block 0 f.name f.name.length (offsetValue + f.value.tail.length) = 0 :=
    cstr_strncpy_iff f.zeroFree_value hlength
  rw [strncpy_of_le (by omega)] at hcstr
  exact hcstr

end Table
end Vcmp.Websockets
