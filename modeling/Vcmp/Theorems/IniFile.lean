import Vcmp.Theorems.IniReader

/-! Configurations in files: `ini_parse` against `ini_parsebuf`. -/

namespace Vcmp.Ini
open ByteMem CString

variable {content : Text} {heap : Mem} {stack : Stack} {mallocs : Mallocs} {fuel : Nat} {o : Except Stop IniConfig}
  {fopen : List UInt8 → Option (List UInt8)} {filepath : List UInt8}

/-- A file with this content is loaded as `ini_parsebuf` takes the content with a zero behind it, whatever the heap holds,
    and no byte outside of the block is touched. -/
def LoadsAsParsed (content : Text) : Prop := ∀ fopen filepath stack mallocs heap past, filepath ≠ [] →
  fopen filepath = some content.bytes → ∃ enough, ∀ fuel ≥ enough,
    ((iniParse fopen true stack mallocs fuel (some filepath)).run.run { mem := heap }).1 =
      ((iniParsebuf stack mallocs fuel).run.run { mem := content.buffer past }).1 ∧
    Within content.bytes.length ((iniParse fopen true stack mallocs fuel (some filepath)).run.run { mem := heap }).2

/-- The content is stored at the beginning of the block, and then parsed there. -/
theorem run_iniParse (heap : Mem) (stack : Stack) (mallocs : Mallocs) (fuel : Nat) (named : filepath ≠ []) (hopen : fopen filepath = some content.bytes) (nonempty : content.bytes ≠ []) :
    ∃ touched, (∀ k ∈ touched, k < content.bytes.length) ∧
      (iniParse fopen true stack mallocs fuel (some filepath)).run.run { mem := heap } =
        (iniParsebuf stack mallocs fuel).run.run ⟨put heap 0 content.bytes, touched⟩ := by
  obtain ⟨c, path, rfl⟩ := List.exists_cons_of_ne_nil named
  refine ⟨((storeBytes 0 content.bytes).run { mem := heap }).2.touched, fun k hk => ?_, ?_⟩
  · rw [touched_storeBytes, List.append_nil, List.mem_reverse, List.mem_range'_1] at hk
    omega
  · have hmem := run_storeBytes 0 content.bytes { mem := heap }
    have hrun : (iniParse fopen true stack mallocs fuel (some (c :: path))).run.run { mem := heap } =
        (if decide (content.bytes ≠ []) then iniParsebuf stack mallocs fuel else throw .fail).run.run
          ((storeBytes 0 content.bytes).run { mem := heap }).2 := by
      simp only [iniParse, hopen]
      rfl
    rw [hrun, if_pos (decide_eq_true nonempty), ← hmem]

theorem run_iniParse_nil (named : filepath ≠ []) (hopen : fopen filepath = some []) :
    (iniParse fopen true stack mallocs fuel (some filepath)).run.run { mem := heap } = (.error .fail, ⟨heap, []⟩) := by
  obtain ⟨c, path, rfl⟩ := List.exists_cons_of_ne_nil named
  simp only [iniParse, hopen]
  rfl

/-- With zeros behind the content the first byte behind the block is read, unless a byte of the content is refused. -/
theorem reads_behind (stack : Stack) (fopen : List UInt8 → Option (List UInt8)) (filepath : List UInt8) (content : Text)
    (named : filepath ≠ []) (hopen : fopen filepath = some content.bytes) (nonempty : content.bytes ≠ [])
    (hread : readAll content.bytes ≠ none) (enough : 2 * content.bytes.length + 2 ≤ fuel) :
    content.bytes.length ∈ ((iniParse fopen true stack ample fuel (some filepath)).run.run { mem := fun _ => 0 }).2.touched := by
  obtain ⟨touched, -, hrun⟩ := run_iniParse (fun _ => 0) stack ample fuel named hopen nonempty
  have hmem : put (fun _ => 0) 0 content.bytes = ofBytes content.bytes fun _ => 0 := put_zero
  have hend {k : Nat} (hk : content.bytes.length ≤ k) : ofBytes content.bytes (fun _ => 0) k = 0 := ofBytes_of_le hk
  have fate := parsebuf_fate 1 stack slice_ofBytes_self (fun _ => hend (Nat.le_refl _)) nonempty (show ample.config = true from rfl) enough
  obtain ⟨r, hr⟩ := Option.ne_none_iff_exists'.mp hread
  rw [hr] at fate
  obtain ⟨more, o, hmore, -, hends⟩ := fate.ends (hend (Nat.le_succ _))
  rw [hrun, hmem, hends]
  exact List.mem_append_left touched hmore

/-- Only a file that is empty or refused is loaded as its content is parsed. -/
theorem loadsAsParsed_iff (content : Text) : LoadsAsParsed content ↔ content.bytes = [] ∨ readAll content.bytes = none := by
  constructor
  · intro h
    rw [or_iff_not_imp_left]
    intro nonempty
    by_contra hread
    let stack : Stack := ⟨fun _ => 0, fun _ => 0, fun _ => 0, fun _ => 0⟩
    obtain ⟨enough, hloads⟩ := h (fun _ => some content.bytes) [97] stack ample (fun _ => 0) (fun _ => 0) nofun rfl
    have hwithin := (hloads (enough + (2 * content.bytes.length + 2)) (Nat.le_add_right _ _)).2
    have hbehind := reads_behind stack (fun _ => some content.bytes) [97] content nofun rfl nonempty hread (Nat.le_add_left _ enough)
    exact absurd (hwithin _ hbehind) (Nat.lt_irrefl _)
  · intro hcontent fopen filepath stack mallocs heap past named hopen
    refine ⟨2 * content.bytes.length + 1, fun fuel enough => ?_⟩
    by_cases nonempty : content.bytes = []
    · rw [nonempty] at hopen
      rw [run_iniParse_nil named hopen, (parsebuf_refused (Or.inl (content.buffer_empty past nonempty))).run_throw]
      exact ⟨rfl, nofun⟩
    obtain ⟨touched, hstored, hrun⟩ := run_iniParse heap stack mallocs fuel named hopen nonempty
    have hlength := List.length_pos_iff.mpr nonempty
    rw [hrun]
    cases hconfig : mallocs.config with
    | false =>
      rw [(parsebuf_refused (Or.inr hconfig)).run_throw, parsebuf_refused (Or.inr hconfig)]
      refine ⟨rfl, fun k hk => ?_⟩
      rcases List.mem_cons.mp hk with rfl | hk
      · exact hlength
      · exact hstored k hk
    | true =>
      have hread := hcontent.resolve_left nonempty
      have hparse := buffer_fate 0 stack content past nonempty hconfig enough
      have hblock : slice (put heap 0 content.bytes) 0 content.bytes.length = content.bytes := slice_put
      have hfile := parsebuf_fate 0 stack hblock (fun h => absurd hread h) nonempty hconfig enough
      rw [hread] at hparse hfile
      cases hparse with | refused goes _ => ?_
      cases hfile with | refused goes' bound => ?_
      rw [goes.run_throw, goes']
      refine ⟨rfl, fun k hk => ?_⟩
      rcases List.mem_append.mp hk with hk | hk
      · exact bound k hk
      · exact hstored k hk

/-- The file `a=b` with a line feed is accepted, and read past. -/
theorem file_read_past : ¬LoadsAsParsed ⟨[97, 61, 98, 10], by decide⟩ := by
  intro h
  obtain ⟨enough, hloads⟩ := h (fun _ => some [97, 61, 98, 10]) [97] ⟨fun _ => 0, fun _ => 0, fun _ => 0, fun _ => 0⟩ ample
    (fun _ => 0) (fun _ => 0) nofun rfl
  have hwithin := (hloads (enough + 10) (Nat.le_add_right _ _)).2
  have hbehind := reads_behind ⟨fun _ => 0, fun _ => 0, fun _ => 0, fun _ => 0⟩ (fun _ => some [97, 61, 98, 10]) [97]
    ⟨[97, 61, 98, 10], by decide⟩ nofun rfl nofun (by decide) (Nat.le_add_left _ enough)
  exact absurd (hwithin _ hbehind) (Nat.lt_irrefl _)

end Vcmp.Ini
