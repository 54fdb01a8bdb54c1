import Vcmp.Theorems.IniStores

/-! The tokens of a configuration that do not fit into the arrays of the parser. -/

namespace Vcmp.Ini
open ByteMem CString

variable {m : Mem} {fuel i j n : Nat} {stack : Stack} {mallocs : Mallocs} {r r' : Reader} {p q : Parser}
  {l rest u w : List UInt8} {text : Text}

/-! ### Tokens that fit -/

def StoresInside (m : Mem) (fuel : Nat) (p : Parser) : Prop := ∀ i ∈ tmpStores m fuel p, i < 256

/-- The strings that a turn assigns end inside of their arrays. -/
def StringsEnd (mallocs : Mallocs) (m : Mem) (fuel : Nat) (p : Parser) : Prop :=
  p.state = .value → ∀ q, ((parseCase mallocs fuel p).run.run { mem := m }).1 = .ok q →
    Terminated q.currentSection 256 ∧ Terminated q.currentKey 256 ∧ Terminated q.currentValue 256

/-- Behind an equals sign with something behind it: the key and the value ahead have at most 255 bytes. -/
def PairFits (r : Reader) (rest : List UInt8) : Prop :=
  ∀ keyName, r.place = .equals keyName → keyName.length ≤ 255 ∧ (valueAhead rest).length ≤ 255

theorem zeroFree_valueAhead (rest : List UInt8) : 0 ∉ valueAhead rest := by
  intro hmem
  have hends := List.mem_takeWhile_imp hmem
  cases hends

theorem turn_fits (head : Head stack mallocs m j r p) (h : slice m j rest.length = rest) (hend : m (j + rest.length) = 0)
    (enough : rest.length < fuel) : StoresInside m fuel p ∧ StringsEnd mallocs m fuel p ↔ PairFits r rest := by
  cases hplace : r.place with
  | equals keyName =>
    obtain ⟨hstores, bufp, hcase⟩ := value_turn head hplace h hend enough
    have hkey : Terminated p.currentKey 256 ↔ keyName.length ≤ 255 := head.keyEnds keyName (by rw [hplace]; rfl)
    have hvalue := terminated_copyTmp p.currentValue head.cleared (zeroFree_valueAhead rest)
    have hstate : p.state = .value := by rw [head.state, hplace]; rfl
    rw [StoresInside, hstores, StringsEnd, hcase]
    constructor
    · rintro ⟨-, hstrings⟩ keyName' hkeyName
      obtain rfl : keyName = keyName' := Place.equals.inj (hplace.symm.trans hkeyName)
      obtain ⟨-, hk, hv⟩ := hstrings hstate _ rfl
      exact ⟨hkey.mp hk, hvalue.mp hv⟩
    · intro hfits
      obtain ⟨hk, hv⟩ := hfits keyName hplace
      refine ⟨fun i hi => ?_, fun _ q hq => ?_⟩
      · rw [List.mem_range'_1] at hi
        omega
      · obtain rfl := Except.ok.inj hq
        exact ⟨head.sectionEnds, hkey.mpr hk, hvalue.mpr hv⟩
  | ready | hash | bracket | began _ =>
    have hstate := head.state
    rw [hplace] at hstate
    refine iff_of_true ⟨?_, ?_⟩ ?_
    · rw [StoresInside, tmpStores, hstate]
      first
      | exact List.forall_mem_nil _
      | exact fun i hi => (fillStores_limit (Nat.zero_le _) i hi).trans_le (by decide)
    · intro hvalue
      cases hstate.symm.trans hvalue
    · intro keyName hkeyName
      cases hplace.symm.trans hkeyName
  | comment | name _ | key _ | gap _ | lead _ | value _ _ => cases hplace ▸ head.atTurn

/-! ### Section names that do not fit -/

def nameByte (b : UInt8) : Bool := b ≠ ']'.toUInt8 ∧ ¬endsLine b

/-- A section or a key begins with the byte. -/
def begins (b : UInt8) : Bool := b ≠ ' '.toUInt8 ∧ b ≠ '\n'.toUInt8 ∧ b ≠ '#'.toUInt8 ∧ b ≠ ';'.toUInt8

/-- In a turn at a section name nothing begins in the rest of the name, nor at its bracket. -/
def NameWhole (mallocs : Mallocs) (m : Mem) (fuel : Nat) (p : Parser) : Prop := p.state = .sectionName →
  EachTurn mallocs m (fun _ q => q.state = .readyForData → (∀ k, p.bufp ≤ k → k < q.bufp → nameByte (m k) = true) →
    endsLine (m q.bufp) = false → begins (m q.bufp) = false) (fuel + 1) p

mutual
/-- Only spaces and comments. -/
def quiet : List UInt8 → Bool
  | [] => true
  | b :: l => if b = '#'.toUInt8 ∨ b = ';'.toUInt8 then quietComment l else b = ' '.toUInt8 && quiet l

/-- The rest of a comment, and then only spaces and comments. -/
def quietComment : List UInt8 → Bool
  | [] => true
  | b :: l => if b = '\r'.toUInt8 ∨ b = '\t'.toUInt8 then quiet l else quietComment l
end

/-- The section name ahead with its bracket, or up to the end of the line where it has none. -/
def headerAhead : List UInt8 → List UInt8
  | [] => []
  | b :: rest => if endsLine b then [] else if b = ']'.toUInt8 then [b] else b :: headerAhead rest

/-- What is behind the first 256 bytes of the name ahead is quiet. -/
def NameFits (r : Reader) (rest : List UInt8) : Prop := r.place = .bracket → quiet ((headerAhead rest).drop 256) = true

/-- Nothing begins in the bytes where the reader is ready. -/
def Silent (r : Reader) (l : List UInt8) : Prop := ∀ u c v r', l = u ++ c :: v → Lts.run Reader.step r u = some r' →
  r'.place = .ready → begins c = false

theorem silent_nil : Silent r [] := fun _ c v _ h => absurd (List.append_eq_nil_iff.mp h.symm).2 (List.cons_ne_nil c v)

theorem silent_cons {b : UInt8} : Silent r (b :: l) ↔ (r.place = .ready → begins b = false) ∧ ∀ r' ∈ r.step b, Silent r' l := by
  constructor
  · intro h
    refine ⟨h [] b l r rfl rfl, fun r₁ hstep u c v r' hsplit hrun => h (b :: u) c v r' (congrArg (b :: ·) hsplit) ?_⟩
    rw [Lts.run, hstep, Option.bind_some, hrun]
  · rintro ⟨hfirst, hnext⟩ u c v r' hsplit hrun hready
    cases u with
    | nil =>
      obtain ⟨rfl, rfl⟩ := List.cons.inj hsplit
      obtain rfl := Option.some.inj hrun
      exact hfirst hready
    | cons b' u =>
      obtain ⟨rfl, rfl⟩ := List.cons.inj hsplit
      obtain ⟨r₁, hstep, hrest⟩ := Option.bind_eq_some_iff.mp hrun
      exact hnext r₁ hstep u c v r' rfl hrest hready

theorem nameByte_iff {b : UInt8} : nameByte b = true ↔ b ≠ ']'.toUInt8 ∧ endsLine b = false := by
  rw [nameByte, decide_eq_true_iff, Bool.not_eq_true]

theorem headerAhead_append {l : List UInt8} (clean : ∀ b ∈ u, nameByte b = true) : headerAhead (u ++ l) = u ++ headerAhead l := by
  induction u with
  | nil => rfl
  | cons b u ih =>
    obtain ⟨hbracket, hends⟩ := nameByte_iff.mp (clean b List.mem_cons_self)
    rw [List.cons_append, headerAhead, hends, if_neg Bool.false_ne_true, if_neg hbracket,
      ih fun c hc => clean c (List.mem_cons_of_mem b hc), List.cons_append]

theorem headerAhead_cons {b : UInt8} (hends : endsLine b = false) (l : List UInt8) : ∃ v, headerAhead (b :: l) = b :: v := by
  rw [headerAhead, hends, if_neg Bool.false_ne_true]
  split_ifs
  · exact ⟨[], rfl⟩
  · exact ⟨headerAhead l, rfl⟩

/-- In front of a byte of the header there are bytes of the name only. -/
theorem headerAhead_split {c : UInt8} {v : List UInt8} (h : headerAhead rest = u ++ c :: v) :
    (∀ b ∈ u, nameByte b = true) ∧ endsLine c = false ∧ ∃ v', rest = u ++ c :: v' := by
  induction rest generalizing u with
  | nil => exact absurd (List.append_eq_nil_iff.mp h.symm).2 (List.cons_ne_nil c v)
  | cons b rest ih =>
    rw [headerAhead] at h
    cases hends : endsLine b with
    | true =>
      rw [hends, if_pos rfl] at h
      exact absurd (List.append_eq_nil_iff.mp h.symm).2 (List.cons_ne_nil c v)
    | false =>
      rw [hends, if_neg Bool.false_ne_true] at h
      cases u with
      | nil =>
        have hb : b = c := by
          split_ifs at h
          · exact (List.cons.inj h).1
          · exact (List.cons.inj h).1
        exact ⟨fun _ hmem => absurd hmem List.not_mem_nil, hb ▸ hends, rest, by rw [hb]; rfl⟩
      | cons b' u =>
        split_ifs at h with hbracket
        · exact absurd (List.append_eq_nil_iff.mp (List.cons.inj h).2.symm).2 (List.cons_ne_nil c v)
        · obtain ⟨rfl, hrest⟩ := List.cons.inj h
          obtain ⟨hu, hc, v', rfl⟩ := ih hrest
          exact ⟨List.forall_mem_cons.mpr ⟨nameByte_iff.mpr ⟨hbracket, hends⟩, hu⟩, hc, v', rfl⟩

theorem not_endsLine_of_mem_headerAhead {b : UInt8} (h : b ∈ headerAhead rest) : endsLine b = false := by
  obtain ⟨u, v, hsplit⟩ := List.append_of_mem h
  exact (headerAhead_split hsplit).2.1

/-- Where the reader is ready, nothing may begin. -/
theorem silent_ready_cons {b : UInt8} {entries : List Entry} (hends : endsLine b = false)
    (ready : Silent ⟨.ready, entries⟩ l ↔ quiet l = true) (hash : Silent ⟨.hash, entries⟩ l ↔ quietComment l = true) :
    Silent ⟨.ready, entries⟩ (b :: l) ↔ quiet (b :: l) = true := by
  have hstep : Reader.step ⟨.ready, entries⟩ b = some (Reader.stepReady ⟨.ready, entries⟩ b) := rfl
  rw [silent_cons, hstep, quiet]
  simp only [Option.mem_some_iff, forall_eq', true_imp_iff]
  by_cases hmark : b = '#'.toUInt8 ∨ b = ';'.toUInt8
  · have hbegins : begins b = false := by rcases hmark with rfl | rfl <;> rfl
    rw [Reader.stepReady, if_pos hmark, if_pos hmark, and_iff_right hbegins]
    exact hash
  by_cases hspace : b = ' '.toUInt8
  · subst hspace
    exact (and_iff_right rfl).trans ready
  · obtain ⟨hhash, hsemicolon⟩ := not_or.mp hmark
    have hbegins : begins b = true := decide_eq_true ⟨hspace, ne_lf_of_endsLine hends, hhash, hsemicolon⟩
    rw [if_neg hmark, decide_eq_false hspace, hbegins]
    exact iff_of_false (fun h => Bool.noConfusion h.1) Bool.false_ne_true

theorem silent_comment_cons {b : UInt8} {place : Place} {entries : List Entry} (hplace : place = .hash ∨ place = .comment)
    (hends : endsLine b = false) (ready : Silent ⟨.ready, entries⟩ l ↔ quiet l = true)
    (comment : Silent ⟨.comment, entries⟩ l ↔ quietComment l = true) :
    Silent ⟨place, entries⟩ (b :: l) ↔ quietComment (b :: l) = true := by
  have hstep : Reader.step ⟨place, entries⟩ b = some (Reader.stepComment ⟨place, entries⟩ b) := by
    rcases hplace with rfl | rfl <;> rfl
  have hready : place ≠ .ready := by
    rcases hplace with rfl | rfl <;> exact nofun
  rw [silent_cons, hstep, Reader.stepComment_inside _ hends, quietComment]
  simp only [Option.mem_some_iff, forall_eq']
  rw [and_iff_right fun h => absurd h hready]
  split_ifs
  · exact ready
  · exact comment

/-- Inside of a line the reader is silent over quiet bytes only. -/
theorem silent_iff (clean : ∀ b ∈ l, endsLine b = false) (entries : List Entry) :
    (Silent ⟨.ready, entries⟩ l ↔ quiet l = true) ∧
      ∀ place, place = .hash ∨ place = .comment → (Silent ⟨place, entries⟩ l ↔ quietComment l = true) := by
  induction l with
  | nil => exact ⟨iff_of_true silent_nil rfl, fun _ _ => iff_of_true silent_nil rfl⟩
  | cons b l ih =>
    obtain ⟨ready, comment⟩ := ih fun c hc => clean c (List.mem_cons_of_mem b hc)
    have hends := clean b List.mem_cons_self
    exact ⟨silent_ready_cons hends ready (comment .hash (Or.inl rfl)),
      fun place hplace => silent_comment_cons hplace hends ready (comment .comment (Or.inr rfl))⟩

/-- The bytes of a name are kept as long as there is room. -/
theorem run_name {entries : List Entry} (clean : ∀ b ∈ l, nameByte b = true) (room : w.length + l.length ≤ 255) :
    Lts.run Reader.step ⟨.name w, entries⟩ l = some ⟨.name (w ++ l), entries⟩ := by
  induction l generalizing w with
  | nil => rw [List.append_nil]; rfl
  | cons b l ih =>
    rw [List.length_cons] at room
    obtain ⟨hbracket, hends⟩ := nameByte_iff.mp (clean b List.mem_cons_self)
    have hstep : Reader.step ⟨.name w, entries⟩ b = some ⟨.name (w ++ [b]), entries⟩ := by
      have hstop : ¬(b = ']'.toUInt8 ∨ w.length = 255) := not_or.mpr ⟨hbracket, by omega⟩
      rw [Reader.step_name, Reader.stepName, if_neg hstop, hends, if_neg Bool.false_ne_true]
      rfl
    rw [Lts.run, hstep, Option.bind_some, ih (fun c hc => clean c (List.mem_cons_of_mem b hc)), List.append_assoc]
    · rfl
    · rw [List.length_append, List.length_singleton]
      omega

theorem run_bracket {entries : List Entry} (nonempty : l ≠ []) :
    Lts.run Reader.step ⟨.bracket, entries⟩ l = Lts.run Reader.step ⟨.name [], entries⟩ l := by
  obtain ⟨b, l, rfl⟩ := List.exists_cons_of_ne_nil nonempty
  rfl

/-- A longer name is cut off: its first 255 bytes are the name, and the byte behind them is lost. -/
theorem run_long_name {entries : List Entry} (clean : ∀ b ∈ l, nameByte b = true) (long : 256 ≤ l.length) :
    Lts.run Reader.step ⟨.bracket, entries⟩ l =
      Lts.run Reader.step ⟨.ready, entries ++ [.header (l.take 255)]⟩ (l.drop 256) := by
  have hl : l = l.take 255 ++ l[255] :: l.drop 256 := by
    rw [← List.drop_eq_getElem_cons, List.take_append_drop]
  have htake : (l.take 255).length = 255 := by
    rw [List.length_take]
    omega
  have hname : Lts.run Reader.step ⟨.name [], entries⟩ (l.take 255) = some ⟨.name ([] ++ l.take 255), entries⟩ :=
    run_name (fun b hb => clean b (List.mem_of_mem_take hb)) (by rw [htake]; rfl)
  have hstep : Reader.step ⟨.name (l.take 255), entries⟩ l[255] = some ⟨.ready, entries ++ [.header (l.take 255)]⟩ := by
    rw [Reader.step_name, Reader.stepName, if_pos (Or.inr htake)]
    rfl
  rw [run_bracket (List.ne_nil_of_length_pos (by omega))]
  conv_lhs => rw [hl]
  rw [Lts.run_append, hname, Option.bind_some, List.nil_append, Lts.run, hstep, Option.bind_some]

/-- Nothing begins in the header ahead exactly if what is cut off is quiet. -/
theorem nameFits_iff (entries : List Entry) : (∀ u c v r', rest = u ++ c :: v → Lts.run Reader.step ⟨.bracket, entries⟩ u = some r' →
    r'.place = .ready → (∀ b ∈ u, nameByte b = true) → endsLine c = false → begins c = false) ↔
      quiet ((headerAhead rest).drop 256) = true := by
  have clean : ∀ b ∈ (headerAhead rest).drop 256, endsLine b = false := fun b hb =>
    not_endsLine_of_mem_headerAhead (List.mem_of_mem_drop hb)
  rw [← (silent_iff clean (entries ++ [.header ((headerAhead rest).take 255)])).1]
  constructor
  · intro h u c v r' hsplit hrun hready
    have hlong : 256 < (headerAhead rest).length := by
      have hlength := congrArg List.length hsplit
      rw [List.length_drop, List.length_append, List.length_cons] at hlength
      omega
    have hheader : headerAhead rest = ((headerAhead rest).take 256 ++ u) ++ c :: v := by
      rw [List.append_assoc, ← hsplit, List.take_append_drop]
    have htake : ((headerAhead rest).take 256).length = 256 := by
      rw [List.length_take]
      omega
    obtain ⟨hu, hc, v', hrest⟩ := headerAhead_split hheader
    refine h _ c v' r' hrest ?_ hready hu hc
    rw [run_long_name hu (by rw [List.length_append, htake]; omega), List.drop_left' htake,
      List.take_append_of_le_length (by rw [htake]; decide), List.take_take]
    exact hrun
  · intro h u c v r' hsplit hrun hready hu hc
    obtain ⟨v', hcons⟩ := headerAhead_cons hc v
    have hheader : headerAhead rest = u ++ c :: v' := by rw [hsplit, headerAhead_append hu, hcons]
    have hlong : 256 ≤ u.length := by
      by_contra hshort
      by_cases hempty : u = []
      · subst hempty
        obtain rfl := Option.some.inj hrun
        cases hready
      · rw [run_bracket hempty, run_name (w := []) hu (by rw [List.length_nil]; omega)] at hrun
        obtain rfl := Option.some.inj hrun
        cases hready
    rw [run_long_name hu hlong] at hrun
    rw [hheader, List.drop_append_of_le_length hlong, List.take_append_of_le_length (by omega)] at h
    exact h (u.drop 256) c v' r' rfl hrun hready

theorem state_ready (head : Head stack mallocs m j r p) : p.state = .readyForData ↔ r.place = .ready := by
  rw [head.state]
  cases hplace : r.place with
  | ready => exact iff_of_true rfl rfl
  | _ => exact iff_of_false nofun nofun

theorem state_sectionName (head : Head stack mallocs m j r p) : p.state = .sectionName ↔ r.place = .bracket := by
  rw [head.state]
  cases hplace : r.place with
  | bracket => exact iff_of_true rfl rfl
  | name _ => cases hplace ▸ head.atTurn
  | _ => exact iff_of_false nofun nofun

theorem forall_offsets {f : UInt8 → Bool} (h : slice m j u.length = u) :
    (∀ k, j ≤ k → k < j + u.length → f (m k) = true) ↔ ∀ b ∈ u, f b = true := by
  conv_rhs => rw [← h, slice]
  simp only [List.forall_mem_map, List.mem_range'_1, and_imp]

theorem turn_name (head : Head stack mallocs m j r p) (h : slice m j rest.length = rest) (hend : m (j + rest.length) = 0)
    (zeroFree : 0 ∉ rest) (enough : 2 * rest.length + r.place.turns ≤ fuel + 1)
    (stays : ∀ r', Lts.run Reader.step r rest = some r' → r'.place.runsOver = false) :
    NameWhole mallocs m fuel p ↔ NameFits r rest := by
  rw [NameWhole, state_sectionName head, NameFits]
  refine imp_congr_right fun hplace => ?_
  obtain ⟨place, entries⟩ := r
  obtain rfl : place = .bracket := hplace
  let Q : List UInt8 → Reader → List UInt8 → Prop := fun w r rest => r.place = .ready → (∀ b ∈ w, nameByte b = true) →
    ∀ c ∈ rest.head?, endsLine c = false → begins c = false
  have hP {w rest' : List UInt8} {r : Reader} {q : Parser} (hsplit : rest = w ++ rest') (hrest : rest' ≠ [])
      (hhead : Head stack mallocs m (j + w.length) r q) : (q.state = .readyForData →
        (∀ k, p.bufp ≤ k → k < q.bufp → nameByte (m k) = true) → endsLine (m q.bufp) = false → begins (m q.bufp) = false) ↔
          Q w r rest' := by
    obtain ⟨c, v, rfl⟩ := List.exists_cons_of_ne_nil hrest
    rw [hsplit, List.length_append] at h
    obtain ⟨hbytes, hbehind⟩ := slice_eq_append h
    rw [List.length_cons, slice_succ] at hbehind
    rw [state_ready hhead, head.bufp, hhead.bufp, (List.cons.inj hbehind).1, forall_offsets hbytes]
    simp only [Q, List.head?_cons, Option.mem_some_iff, forall_eq']
  have hahead : EachTurn mallocs m _ (fuel + 1) p ↔ Ahead Q [] _ rest :=
    eachTurn_iff (fun hsplit hrest hhead _ _ => hP hsplit hrest hhead) h hend zeroFree rfl head enough stays
  rw [hahead, ← nameFits_iff entries]
  constructor
  · intro hahead u c v r' hsplit hrun hready hu hc
    have hstands : StandsAt ⟨.bracket, entries⟩ u r' := ⟨r', hrun, by rw [hready]; rfl, Or.inl rfl⟩
    exact hahead u (c :: v) r' hsplit (List.cons_ne_nil c v) hstands hready hu c rfl hc
  · rintro hnames u rest' r' hsplit hrest ⟨r₁, hrun, -, hr'⟩ hready hu c hc hname
    obtain ⟨d, v, rfl⟩ := List.exists_cons_of_ne_nil hrest
    obtain rfl := Option.some.inj hc
    rcases hr' with rfl | ⟨-, rfl⟩
    · exact hnames u d v r' hsplit hrun hready hu hname
    · cases hready

/-! ### Texts -/

/-- Whatever lies behind the text and whichever allocations fail: the stores to `tmp` stay inside, the strings that are used
    end inside of their arrays, and if the text is accepted nothing begins inside of a section name. -/
def TokensFit (text : Text) : Prop := ∀ stack mallocs past, ∃ enough, ∀ fuel ≥ enough,
  EachTurn mallocs (text.buffer past)
    (fun fuel p => StoresInside (text.buffer past) fuel p ∧ StringsEnd mallocs (text.buffer past) fuel p) fuel (.start stack) ∧
  ∀ cfg, ((iniParsebuf stack mallocs fuel).run.run { mem := text.buffer past }).1 = .ok cfg →
    EachTurn mallocs (text.buffer past) (NameWhole mallocs (text.buffer past)) fuel (.start stack)

def Place.keyRead : Place → Option (List UInt8)
  | .equals keyName => some keyName
  | .began first => if first = '='.toUInt8 then some [] else none
  | _ => none

/-- Every key that is followed by an equals sign and another byte, and every value, has at most 255 bytes. -/
def Text.PairsFit (text : Text) : Prop := ∀ u rest r keyName, text.bytes = u ++ rest → rest ≠ [] → readAll u = some r →
  r.place.keyRead = some keyName → keyName.length ≤ 255 ∧ (valueAhead rest).length ≤ 255

/-- In every section header, its bracket included, only spaces and comments follow the first 256 bytes. -/
def Text.NamesFit (text : Text) : Prop := ∀ u rest r, text.bytes = u ++ rest → readAll u = some r → r.place = .bracket →
  quiet ((headerAhead rest).drop 256) = true

def Text.accepted (text : Text) : Bool := (readAll text.bytes).any fun r => r.place.atTurn

theorem pairsFit_iff (text : Text) : text.PairsFit ↔ Ahead (fun _ r rest => PairFits r rest) [] start text.bytes := by
  constructor
  · rintro h u rest r' hsplit hrest ⟨r₁, hrun, -, hr'⟩ keyName hplace
    refine h u rest r₁ keyName hsplit hrest hrun ?_
    rcases hr' with rfl | ⟨hfirst, rfl⟩
    · rw [hplace]; rfl
    · obtain rfl := Place.equals.inj hplace
      rw [hfirst]; rfl
  · intro h u rest r keyName hsplit hrest hrun hkey
    cases hplace : r.place with
    | equals keyName' =>
      rw [hplace] at hkey
      obtain rfl := Option.some.inj hkey
      exact h u rest r hsplit hrest ⟨r, hrun, by rw [hplace]; rfl, Or.inl rfl⟩ _ hplace
    | began first =>
      rw [hplace, Place.keyRead] at hkey
      split_ifs at hkey with hfirst
      obtain rfl := Option.some.inj hkey
      exact h u rest (r.goTo (.equals [])) hsplit hrest ⟨r, hrun, by rw [hplace]; rfl, Or.inr ⟨hfirst ▸ hplace, rfl⟩⟩ _ rfl
    | _ =>
      rw [hplace] at hkey
      cases hkey

theorem namesFit_iff (text : Text) : text.NamesFit ↔ Ahead (fun _ r rest => NameFits r rest) [] start text.bytes := by
  constructor
  · rintro h u rest r' hsplit - ⟨r₁, hrun, -, hr'⟩ hplace
    rcases hr' with rfl | ⟨-, rfl⟩
    · exact h u rest r' hsplit hrun hplace
    · cases hplace
  · intro h u rest r hsplit hrun hplace
    by_cases hrest : rest = []
    · subst hrest
      rfl
    · exact h u rest r hsplit hrest ⟨r, hrun, by rw [hplace]; rfl, Or.inl rfl⟩ hplace

/-- A value that does not fit, in a text of its own. -/
def longValue : Text where
  bytes := [107, 61] ++ (List.replicate 300 118 ++ [10])
  zeroFree := by
    simp only [List.mem_append, List.mem_replicate]
    decide

theorem longValue_stays (h : Lts.run Reader.step r longValue.bytes = some r') : r'.place.runsOver = false := by
  have hsplit : longValue.bytes = [107, 61] ++ List.replicate 300 118 ++ [10] := (List.append_assoc _ _ _).symm
  rw [hsplit, Lts.run_append] at h
  obtain ⟨r₁, -, h⟩ := Option.bind_eq_some_iff.mp h
  obtain ⟨r₂, hstep, h⟩ := Option.bind_eq_some_iff.mp h
  obtain rfl := Option.some.inj h
  rw [step_lf hstep]
  rfl

theorem not_ahead_longValue (hready : r.place = .ready) : ¬Ahead (fun _ r rest => PairFits r rest) [] r longValue.bytes := by
  intro h
  obtain ⟨place, entries⟩ := r
  obtain rfl : place = .ready := hready
  have hstands : StandsAt ⟨.ready, entries⟩ [107, 61] ⟨.equals [107], entries⟩ := ⟨_, rfl, rfl, Or.inl rfl⟩
  have hlong := (h [107, 61] _ _ rfl (fun hnil => nomatch (List.append_eq_nil_iff.mp hnil).2) hstands [107] rfl).2
  exact absurd hlong (by decide +kernel)

theorem stays_of_runsOver (h : text.runsOver = false) (r' : Reader) (hr' : readAll text.bytes = some r') : r'.place.runsOver = false := by
  rwa [Text.runsOver, hr'] at h

/-- Over the bytes at an offset the turns fit where the pairs ahead do. -/
theorem turns_fit_ahead (head : Head stack mallocs m j r p) (hslice : slice m j l.length = l) (hend : m (j + l.length) = 0)
    (zeroFree : 0 ∉ l) (enough : 2 * l.length + r.place.turns ≤ fuel)
    (stays : ∀ r', Lts.run Reader.step r l = some r' → r'.place.runsOver = false) :
    EachTurn mallocs m (fun fuel p => StoresInside m fuel p ∧ StringsEnd mallocs m fuel p) fuel p ↔
      Ahead (fun _ r rest => PairFits r rest) [] r l := by
  refine eachTurn_iff (fun {_ _ r _ _} hsplit hrest hhead hfuel _ => ?_) hslice hend zeroFree rfl head enough stays
  have hpos := r.place.turns_pos
  rw [hsplit, List.length_append] at hslice hend
  have hlength := List.length_pos_iff.mpr hrest
  exact turn_fits hhead (slice_eq_append hslice).2 (by rwa [Nat.add_assoc]) (by omega)

theorem turns_fit_iff (stack : Stack) (mallocs : Mallocs) (past : Mem) (hover : text.runsOver = false)
    (enough : 2 * text.bytes.length + 1 ≤ fuel) : EachTurn mallocs (text.buffer past)
      (fun fuel p => StoresInside (text.buffer past) fuel p ∧ StringsEnd mallocs (text.buffer past) fuel p) fuel (.start stack) ↔
        text.PairsFit := by
  have hend : text.buffer past (0 + text.bytes.length) = 0 := by rw [Nat.zero_add, text.buffer_end]
  rw [pairsFit_iff]
  exact turns_fit_ahead (head_start stack mallocs _) (text.slice_buffer past) hend text.zeroFree enough (stays_of_runsOver hover)

theorem turns_name_iff (stack : Stack) (mallocs : Mallocs) (past : Mem) (hover : text.runsOver = false)
    (enough : 2 * text.bytes.length + 1 ≤ fuel) :
    EachTurn mallocs (text.buffer past) (NameWhole mallocs (text.buffer past)) fuel (.start stack) ↔ text.NamesFit := by
  have hend : text.buffer past (0 + text.bytes.length) = 0 := by rw [Nat.zero_add, text.buffer_end]
  rw [namesFit_iff]
  refine eachTurn_iff (fun hsplit _ hhead hfuel stays => ?_) (text.slice_buffer past) hend text.zeroFree rfl (head_start stack mallocs _)
    enough (stays_of_runsOver hover)
  have hslice := text.slice_buffer past
  have zeroFree := text.zeroFree
  rw [hsplit] at zeroFree
  rw [hsplit, List.length_append] at hslice hend
  exact turn_name hhead (slice_eq_append hslice).2 (by rwa [Nat.add_assoc]) (fun hzero => zeroFree (List.mem_append_right _ hzero)) hfuel stays

/-- Behind a text that is run over there can be one with a pair that does not fit. -/
theorem not_turns_fit (stack : Stack) (hover : text.runsOver = true) {behind : Text}
    (stays : ∀ {r r'}, Lts.run Reader.step r behind.bytes = some r' → r'.place.runsOver = false)
    (hpairs : ∀ {r : Reader}, r.place = .ready → ¬Ahead (fun _ r rest => PairFits r rest) [] r behind.bytes)
    (enough : 2 * text.bytes.length + 1 + (2 * behind.bytes.length + 1) ≤ fuel) :
    ¬EachTurn ample (text.buffer (behind.buffer fun _ => 0)) (fun fuel p => StoresInside (text.buffer (behind.buffer fun _ => 0)) fuel p ∧
      StringsEnd ample (text.buffer (behind.buffer fun _ => 0)) fuel p) fuel (.start stack) := by
  intro hturns
  obtain ⟨r, hread, hr⟩ := (Option.any_eq_true _ _).mp hover
  have hend (past : Mem) : text.buffer past (0 + text.bytes.length) = 0 := by rw [Nat.zero_add, text.buffer_end]
  obtain ⟨fuel, q, r', hfuel, hready, hhead, hbehind⟩ := hturns.overrun (2 * behind.bytes.length + 1) (head_start stack ample _)
    enough (text.slice_buffer _) (hend _) text.zeroFree hread hr
  rw [Nat.zero_add] at hhead
  have hone : r'.place.turns = 1 := by rw [hready]; rfl
  exact hpairs hready ((turns_fit_ahead hhead (text.slice_past behind _) (text.past_end behind _) behind.zeroFree (by omega)
    fun _ => stays).mp hbehind)

theorem not_runsOver (h : TokensFit text) {behind : Text}
    (stays : ∀ {r r'}, Lts.run Reader.step r behind.bytes = some r' → r'.place.runsOver = false)
    (hpairs : ∀ {r : Reader}, r.place = .ready → ¬Ahead (fun _ r rest => PairFits r rest) [] r behind.bytes) :
    text.runsOver = false := by
  rw [← Bool.not_eq_true]
  intro hover
  let stack : Stack := ⟨fun _ => 0, fun _ => 0, fun _ => 0, fun _ => 0⟩
  obtain ⟨enough, hfit⟩ := h stack ample (behind.buffer fun _ => 0)
  exact not_turns_fit stack hover stays hpairs (Nat.le_add_left _ enough) (hfit _ (Nat.le_add_right _ _)).1

theorem pairsFit_of_tokensFit (h : TokensFit text) (hover : text.runsOver = false) : text.PairsFit := by
  let stack : Stack := ⟨fun _ => 0, fun _ => 0, fun _ => 0, fun _ => 0⟩
  obtain ⟨enough, hfit⟩ := h stack ample fun _ => 0
  exact (turns_fit_iff stack ample _ hover (Nat.le_add_left _ enough)).mp (hfit _ (Nat.le_add_right _ _)).1

theorem namesFit_of_tokensFit (h : TokensFit text) (hover : text.runsOver = false) (haccepted : text.accepted = true) :
    text.NamesFit := by
  by_cases nonempty : text.bytes = []
  · rintro u rest r hsplit hread hplace
    rw [nonempty] at hsplit
    obtain ⟨rfl, rfl⟩ := List.append_eq_nil_iff.mp hsplit.symm
    rfl
  let stack : Stack := ⟨fun _ => 0, fun _ => 0, fun _ => 0, fun _ => 0⟩
  obtain ⟨enough, hfit⟩ := h stack ample fun _ => 0
  obtain ⟨r, hread, hr⟩ := (Option.any_eq_true _ _).mp haccepted
  have hok := parsebuf_ok stack (fun _ => 0) nonempty hread hr (Nat.le_add_left _ enough)
  exact (turns_name_iff stack ample _ hover (Nat.le_add_left _ enough)).mp ((hfit _ (Nat.le_add_right _ _)).2 _ hok)

/-- Tokens of every length fit exactly if the text is not run over, no pair has a longer key or value than there is room for,
    and in an accepted text nothing begins inside of a section name. -/
theorem tokensFit_iff (text : Text) : TokensFit text ↔
    text.runsOver = false ∧ text.PairsFit ∧ (text.accepted = true → text.NamesFit) := by
  constructor
  · intro h
    have hover := not_runsOver h longValue_stays not_ahead_longValue
    exact ⟨hover, pairsFit_of_tokensFit h hover, namesFit_of_tokensFit h hover⟩
  · rintro ⟨hover, hpairs, hnames⟩ stack mallocs past
    refine ⟨2 * text.bytes.length + 1, fun fuel enough => ⟨(turns_fit_iff stack mallocs past hover enough).mpr hpairs, fun cfg hcfg => ?_⟩⟩
    refine (turns_name_iff stack mallocs past hover enough).mpr (hnames ?_)
    by_contra haccepted
    have hfail : ∀ r ∈ readAll text.bytes, r.place.atTurn = false ∧ r.place.runsOver = false := by
      intro r hread
      rw [Text.accepted, hread, Option.any_some, Bool.not_eq_true] at haccepted
      exact ⟨haccepted, stays_of_runsOver hover r hread⟩
    rw [parsebuf_fail stack mallocs past hfail enough] at hcfg
    cases hcfg

/-- A value of 300 bytes is stored behind the end of `tmp`. -/
theorem long_value_overflow : ¬TokensFit longValue := by
  intro h
  have hover : longValue.runsOver = false := by decide +kernel
  exact not_ahead_longValue rfl ((pairsFit_iff longValue).mp (pairsFit_of_tokensFit h hover))

end Vcmp.Ini
