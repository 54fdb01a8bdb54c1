import Vcmp.Theorems.IniReader

/-! How far the parser of configurations reads. -/

namespace Vcmp.Ini
open ByteMem CString

variable {text : Text} {fuel : Nat}

/-- Whatever lies behind the text and whichever allocations fail, the parser stops, and no byte it read lies behind the
    terminator. -/
def CursorStays (text : Text) : Prop := ∀ stack mallocs past, ∃ enough, ∀ fuel ≥ enough,
  ((iniParsebuf stack mallocs fuel).run.run { mem := text.buffer past }).1 ≠ .error .fuel ∧
    Within (text.bytes.length + 1) ((iniParsebuf stack mallocs fuel).run.run { mem := text.buffer past }).2

theorem Up.within {more : List Nat} {n : Nat} {m : Mem} (h : Up n more) : Within (n + 1) ⟨m, more⟩ :=
  fun k hk => Nat.lt_succ_of_le (h.2 k hk)

theorem fail_ne_fuel : (.error .fail : Except Stop IniConfig) ≠ .error .fuel := nofun

theorem ok_ne_fuel (cfg : IniConfig) : (.ok cfg : Except Stop IniConfig) ≠ .error .fuel := nofun

/-- With zeros behind the text the first byte behind the terminator is the last one that is read. -/
theorem reads_past (stack : Stack) (text : Text) (hover : text.runsOver = true) (enough : 2 * text.bytes.length + 2 ≤ fuel) :
    text.bytes.length + 1 ∈ ((iniParsebuf stack ample fuel).run.run { mem := text.buffer fun _ => 0 }).2.touched := by
  have fate := buffer_fate 1 stack text (fun _ => 0) (nonempty_of_runsOver hover) (show ample.config = true from rfl) enough
  rw [Text.runsOver, Option.any_eq_true] at hover
  obtain ⟨r, hread, hover⟩ := hover
  rw [hread] at fate
  obtain ⟨more, o, -, hpast, hrun⟩ := fate.ends (text.buffer_past (fun _ => 0) 0)
  rw [hrun []]
  exact List.mem_append_left [] (hpast hover)

/-- The cursor stays in front of the terminator exactly if the text is refused, or ends neither in a comment, nor in a section
    name that fills its array, nor in a value. -/
theorem cursorStays_iff (text : Text) : CursorStays text ↔ text.runsOver = false := by
  constructor
  · intro h
    rw [← Bool.not_eq_true]
    intro hover
    let stack : Stack := ⟨fun _ => 0, fun _ => 0, fun _ => 0, fun _ => 0⟩
    obtain ⟨enough, hstays⟩ := h stack ample fun _ => 0
    have hwithin := (hstays (enough + (2 * text.bytes.length + 2)) (Nat.le_add_right _ _)).2
    have hread := reads_past stack text hover (Nat.le_add_left _ enough)
    exact absurd (hwithin _ hread) (Nat.lt_irrefl _)
  · intro hover stack mallocs past
    by_cases hrefused : text.bytes = [] ∨ mallocs.config = false
    · refine ⟨0, fun fuel _ => ?_⟩
      rw [(parsebuf_refused (hrefused.imp_left (text.buffer_empty past))).run_throw]
      refine ⟨fail_ne_fuel, fun k hk => ?_⟩
      rw [List.mem_singleton.mp hk]
      exact Nat.succ_pos _
    obtain ⟨nonempty, hconfig⟩ := not_or.mp hrefused
    refine ⟨2 * text.bytes.length + 1, fun fuel enough => ?_⟩
    have fate := buffer_fate 0 stack text past nonempty (by simpa using hconfig) enough
    generalize hread : readAll text.bytes = o at fate
    cases fate with
    | refused goes bound =>
      rw [goes.run_throw]
      exact ⟨fail_ne_fuel, fun k hk => (bound k hk).trans (Nat.lt_succ_self _)⟩
    | accepted goes up _ =>
      rw [goes.run_pure]
      exact ⟨ok_ne_fuel _, up.within⟩
    | cut _ _ goes up =>
      rw [goes.run_throw]
      exact ⟨fail_ne_fuel, up.within⟩
    | overrun inner step _ _ _ _ =>
      have hplace := runsOver_iff.mpr ⟨inner, by rw [step]; exact Option.some_ne_none _⟩
      rw [Text.runsOver, hread] at hover
      exact Bool.noConfusion (hplace.symm.trans hover)

/-- The comment `#a` is not ended by a line feed. -/
theorem comment_runs_over : ¬CursorStays ⟨[35, 97], by decide⟩ := by
  intro h
  obtain ⟨enough, hstays⟩ := h ⟨fun _ => 0, fun _ => 0, fun _ => 0, fun _ => 0⟩ ample fun _ => 0
  have hwithin := (hstays (enough + 6) (Nat.le_add_right _ _)).2
  have hread := reads_past ⟨fun _ => 0, fun _ => 0, fun _ => 0, fun _ => 0⟩ ⟨[35, 97], by decide⟩ (by decide)
    (show 2 * 2 + 2 ≤ enough + 6 from Nat.le_add_left _ enough)
  exact absurd (hwithin _ hread) (Nat.lt_irrefl _)

end Vcmp.Ini
