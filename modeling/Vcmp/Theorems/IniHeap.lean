import Vcmp.IniHeap
import Vcmp.Theorems.IniDump

/-! Configurations in memory: the functions of `lib/ini.c` keep what they own in a tree of nodes that stands for the configuration,
and free it whole. -/

namespace Vcmp.IniHeap
open Ledger

variable {P : Type}

/-! ### Nodes -/

/-- A string that was copied, if there was memory for it. -/
abbrev Text (P : Type) := Option (P × List UInt8)

structure KeyvalNode (P : Type) where
  block : P
  name : Text P
  value : Text P

structure SectionNode (P : Type) where
  block : P
  name : Text P
  keyvals : List (KeyvalNode P)

structure ConfigNode (P : Type) where
  block : P
  sections : List (SectionNode P)
  globals : List (KeyvalNode P)

def textBlocks (text : Text P) : List (P × Cell P) := (text.map fun t => (t.1, Cell.string t.2)).toList

def keyvalShape : Shape P (Cell P) (KeyvalNode P) where
  block := KeyvalNode.block
  cell n q := .keyval (n.name.map Prod.fst) (n.value.map Prod.fst) q
  own n := textBlocks n.name ++ textBlocks n.value
  next := nextKeyvalSlot
  next_block _ := rfl
  get_cell _ _ := rfl
  set_cell _ _ _ := rfl

def sectionShape : Shape P (Cell P) (SectionNode P) where
  block := SectionNode.block
  cell s q := .sec (s.name.map Prod.fst) (keyvalShape.head none s.keyvals) q
  own s := textBlocks s.name ++ keyvalShape.segment none s.keyvals
  next := nextSectionSlot
  next_block _ := rfl
  get_cell _ _ := rfl
  set_cell _ _ _ := rfl

def ConfigNode.cell (t : ConfigNode P) : Cell P := .config (sectionShape.head none t.sections) (keyvalShape.head none t.globals)

/-- All that a configuration owns. -/
def ConfigNode.blocks (t : ConfigNode P) : List (P × Cell P) :=
  (t.block, t.cell) :: (keyvalShape.segment none t.globals ++ sectionShape.segment none t.sections)

/-! ### What the nodes stand for -/

def text (t : Text P) : List UInt8 := (t.map Prod.snd).getD []

def KeyvalNode.keyval (n : KeyvalNode P) : Ini.IniKeyval := ⟨text n.name, text n.value⟩

def SectionNode.sec (s : SectionNode P) : Ini.IniSection := ⟨text s.name, s.keyvals.map KeyvalNode.keyval⟩

def ConfigNode.cfg (t : ConfigNode P) : Ini.IniConfig := ⟨t.sections.map SectionNode.sec, t.globals.map KeyvalNode.keyval⟩

/-- No string is missing. -/
def KeyvalNode.Whole (n : KeyvalNode P) : Prop := n.name.isSome = true ∧ n.value.isSome = true

structure SectionNode.Whole (s : SectionNode P) : Prop where
  name : s.name.isSome = true
  keyvals : ∀ n ∈ s.keyvals, n.Whole

structure ConfigNode.Whole (t : ConfigNode P) : Prop where
  sections : ∀ s ∈ t.sections, s.Whole
  globals : ∀ n ∈ t.globals, n.Whole

/-- Nothing but a string that is missing is followed; then there was no memory for it. -/
def Missing (A : Allocator P (Cell P)) (base : P → Option (Cell P)) (e : Fault) : Prop := e = .null ∧ ¬A.Ample base

/-- No list of a configuration has more nodes. -/
structure ConfigNode.Small (n : Nat) (t : ConfigNode P) : Prop where
  sections : t.sections.length ≤ n
  globals : t.globals.length ≤ n
  keyvals : ∀ s ∈ t.sections, s.keyvals.length ≤ n

theorem ConfigNode.Small.succ {n : Nat} {t : ConfigNode P} (small : t.Small n) : t.Small (n + 1) :=
  ⟨small.sections.trans (Nat.le_succ n), small.globals.trans (Nat.le_succ n), fun s hs => (small.keyvals s hs).trans (Nat.le_succ n)⟩

def SectionNode.push (s : SectionNode P) (more : List (KeyvalNode P)) : SectionNode P := { s with keyvals := s.keyvals ++ more }

/-- What a configuration owns besides the pairs of a section and its node. -/
def ConfigNode.around (t : ConfigNode P) (pre : List (SectionNode P)) (s : SectionNode P) (post : List (SectionNode P)) :
    List (P × Cell P) :=
  (t.block, .config (sectionShape.head (some s.block) pre) (keyvalShape.head none t.globals)) ::
    (keyvalShape.segment none t.globals ++ (sectionShape.segment (some s.block) pre ++
      (textBlocks s.name ++ sectionShape.segment none post)))

theorem blocks_around [DecidableEq P] {t : ConfigNode P} {pre post : List (SectionNode P)} {s : SectionNode P}
    (hsplit : t.sections = pre ++ s :: post) (l : List (P × Cell P)) :
    (t.blocks ++ l).Perm ((s.block, sectionShape.cell s (sectionShape.head none post)) ::
      (keyvalShape.segment none s.keyvals ++ (t.around pre s post ++ l))) := by
  have hhead : sectionShape.head none t.sections = sectionShape.head (some s.block) pre := by
    rw [hsplit, Shape.head_append]
    rfl
  have hsegment : sectionShape.segment none t.sections = sectionShape.segment (some s.block) pre ++
      (s.block, sectionShape.cell s (sectionShape.head none post)) ::
        (textBlocks s.name ++ keyvalShape.segment none s.keyvals ++ sectionShape.segment none post) := by
    rw [hsplit, Shape.segment_append]
    rfl
  rw [ConfigNode.blocks, ConfigNode.cell, ConfigNode.around, hhead, hsegment]
  refine List.perm_iff_count.mpr fun b => ?_
  simp only [List.count_append, List.count_cons]
  omega

/-! ### New nodes -/

theorem text_of_mem {t : Text P} {bytes : List UInt8} (h : ∀ s ∈ t, s.2 = bytes) (ht : t.isSome = true) : text t = bytes := by
  obtain ⟨s, rfl⟩ := Option.isSome_iff_exists.mp ht
  exact h s rfl

section Functions
variable [DecidableEq P] {A : Allocator P (Cell P)} {base : P → Option (Cell P)} {l : List (P × Cell P)} {h : Heap P (Cell P)}
  {F : Fault → Prop} {name value : List UInt8} {fuel : Nat}

theorem ends_strdup (bytes : List UInt8) {Q : Option P → Heap P (Cell P) → Prop} (hold : Holds base h l)
    (hq : ∀ (t : Text P) h', (∀ s ∈ t, s.2 = bytes) → (A.Ample base → t.isSome = true) → Holds base h' (textBlocks t ++ l) →
      Q (t.map Prod.fst) h') : Ends (strdup A bytes) F Q h := by
  refine ends_malloc hold fun p h' hp hold' => ?_
  cases p with
  | none => exact hq none h' (fun s hs => by cases hs) (fun ample => ample.isSome hold hp) hold'
  | some p =>
    refine hq (some (p, bytes)) h' (fun s hs => ?_) (fun _ => rfl) hold'
    rw [← Option.some.inj hs]

/-- The node of a pair, none if there was no memory for it. -/
structure NewKeyval (A : Allocator P (Cell P)) (base : P → Option (Cell P)) (name value : List UInt8) (more : List (KeyvalNode P)) : Prop where
  one : more.length ≤ 1
  ample : A.Ample base → ∃ n, more = [n] ∧ n.Whole ∧ n.keyval = ⟨name, value⟩

theorem ends_newKeyval {Q : Option P → Heap P (Cell P) → Prop} (hold : Holds base h l)
    (hq : ∀ more h', NewKeyval A base name value more → Holds base h' (keyvalShape.segment none more ++ l) →
      Q (keyvalShape.head none more) h') : Ends (newKeyval A name value) F Q h := by
  refine Ends.bind (ends_malloc hold fun p h₁ hp hold₁ => ?_)
  cases p with
  | none => exact ends_pure (hq [] h₁ ⟨Nat.zero_le 1, fun ample => by cases ample.isSome hold hp⟩ hold₁)
  | some p =>
    refine Ends.bind (ends_strdup name hold₁ fun tn h₂ hn hample hold₂ => ?_)
    refine Ends.bind (ends_strdup value hold₂ fun tv h₃ hv hample' hold₃ => ?_)
    have hfront : Holds base h₃ ((p, Cell.keyval none none none) :: (textBlocks tn ++ textBlocks tv ++ l)) := by
      refine hold₃.counted fun b => ?_
      simp only [Option.map_some, Option.toList_some, List.count_append, List.count_cons, List.count_nil]
      omega
    refine Ends.bind (ends_store hfront fun h₄ hold₄ => ends_pure ?_)
    refine hq [⟨p, tn, tv⟩] h₄ ⟨Nat.le_refl 1, fun ample => ⟨_, rfl, ⟨hample ample, hample' ample⟩, ?_⟩⟩ ?_
    · rw [KeyvalNode.keyval, text_of_mem hn (hample ample), text_of_mem hv (hample' ample)]
    · simp only [Shape.segment, List.append_nil, List.cons_append]
      exact hold₄

/-- A pair is added behind the others of its list. -/
theorem ends_addKeyval {s : Slot P (Cell P)} {c : Cell P} {ns : List (KeyvalNode P)} {Q : Unit → Heap P (Cell P) → Prop}
    (hget : s.get c = some (keyvalShape.head none ns)) (hold : Holds base h ((s.block, c) :: (keyvalShape.segment none ns ++ l)))
    (enough : ns.length < fuel)
    (hq : ∀ more h', NewKeyval A base name value more →
      Holds base h' ((s.block, s.set c (keyvalShape.head none (ns ++ more))) :: (keyvalShape.segment none (ns ++ more) ++ l)) → Q () h') :
    Ends (addKeyval A fuel s name value) F Q h := by
  have hns : keyvalShape.segment none ns ⊆ (s.block, c) :: (keyvalShape.segment none ns ++ l) := fun b hb =>
    List.mem_cons_of_mem _ (List.mem_append_left l hb)
  refine Ends.bind (Shape.ends_lastSlot hold List.mem_cons_self hget hns enough ?_)
  refine Ends.bind (ends_newKeyval hold fun more h₁ hmore hold₁ => ?_)
  have hfront : Holds base h₁ ((s.block, c) :: (keyvalShape.segment none ns ++ (keyvalShape.segment none more ++ l))) := by
    refine hold₁.counted fun b => ?_
    simp only [List.count_append, List.count_cons]
    omega
  exact Shape.ends_link hget hfront fun h₂ hold₂ => hq more h₂ hmore hold₂

/-- The node of a section, none if there was no memory for it. -/
structure NewSection (A : Allocator P (Cell P)) (base : P → Option (Cell P)) (name : List UInt8) (more : List (SectionNode P)) :
    Prop where
  one : more = [] ∨ ∃ s, more = [s] ∧ s.keyvals = []
  ample : A.Ample base → ∃ s, more = [s] ∧ s.Whole ∧ s.sec = ⟨name, []⟩

theorem ends_newSection {Q : Option P → Heap P (Cell P) → Prop} (hold : Holds base h l)
    (hq : ∀ more h', NewSection A base name more → Holds base h' (sectionShape.segment none more ++ l) →
      Q (sectionShape.head none more) h') : Ends (newSection A name) F Q h := by
  refine Ends.bind (ends_malloc hold fun p h₁ hp hold₁ => ?_)
  cases p with
  | none => exact ends_pure (hq [] h₁ ⟨Or.inl rfl, fun ample => by cases ample.isSome hold hp⟩ hold₁)
  | some p =>
    refine Ends.bind (ends_strdup name hold₁ fun tn h₂ hn hample hold₂ => ?_)
    have hfront : Holds base h₂ ((p, Cell.sec none none none) :: (textBlocks tn ++ l)) := by
      refine hold₂.counted fun b => ?_
      simp only [Option.map_some, Option.toList_some, List.count_append, List.count_cons, List.count_nil]
      omega
    refine Ends.bind (ends_store hfront fun h₃ hold₃ => ends_pure ?_)
    refine hq [⟨p, tn, []⟩] h₃ ⟨Or.inr ⟨_, rfl, rfl⟩, fun ample => ⟨_, rfl, ⟨hample ample, List.forall_mem_nil _⟩, ?_⟩⟩ ?_
    · rw [SectionNode.sec, text_of_mem hn (hample ample)]
      rfl
    · simp only [Shape.segment, sectionShape, List.append_nil, List.cons_append]
      exact hold₃

/-- A section is added behind the others. -/
theorem ends_addSection {s : Slot P (Cell P)} {c : Cell P} {ns : List (SectionNode P)} {Q : Option P → Heap P (Cell P) → Prop}
    (hget : s.get c = some (sectionShape.head none ns)) (hold : Holds base h ((s.block, c) :: (sectionShape.segment none ns ++ l)))
    (enough : ns.length < fuel)
    (hq : ∀ more h', NewSection A base name more →
      Holds base h' ((s.block, s.set c (sectionShape.head none (ns ++ more))) :: (sectionShape.segment none (ns ++ more) ++ l)) →
        Q (sectionShape.head none more) h') : Ends (addSection A fuel s name) F Q h := by
  have hns : sectionShape.segment none ns ⊆ (s.block, c) :: (sectionShape.segment none ns ++ l) := fun b hb =>
    List.mem_cons_of_mem _ (List.mem_append_left l hb)
  refine Ends.bind (Shape.ends_lastSlot hold List.mem_cons_self hget hns enough ?_)
  refine Ends.bind (ends_newSection hold fun more h₁ hmore hold₁ => ?_)
  have hfront : Holds base h₁ ((s.block, c) :: (sectionShape.segment none ns ++ (sectionShape.segment none more ++ l))) := by
    refine hold₁.counted fun b => ?_
    simp only [List.count_append, List.count_cons]
    omega
  exact Ends.bind (Shape.ends_link hget hfront fun h₂ hold₂ => ends_pure (hq more h₂ hmore hold₂))

/-! ### Lookup -/

omit [DecidableEq P] in
theorem ends_strcmpEq {t : Text P} {Q : Bool → Heap P (Cell P) → Prop} (hold : Holds base h l) (ht : textBlocks t ⊆ l)
    (missing : t = none → F .null) (hq : t.isSome = true → Q (decide (text t = name)) h) : Ends (strcmpEq (t.map Prod.fst) name) F Q h := by
  cases t with
  | none => exact Ends.bind (Ends.bind (ends_load_null (missing rfl)))
  | some t =>
    have hmem : (t.1, Cell.string t.2) ∈ l := ht (List.mem_singleton.mpr rfl)
    exact Ends.bind (Ends.bind (ends_load hold hmem (hq rfl)))

omit [DecidableEq P] in
/-- The first section of a name, as far as the names in front of it are there. -/
theorem ends_sectionFrom {ns : List (SectionNode P)} {Q : Option P → Heap P (Cell P) → Prop} (hold : Holds base h l)
    (hns : sectionShape.segment none ns ⊆ l) (enough : ns.length < fuel) (missing : (∃ s ∈ ns, s.name = none) → F .null)
    (found : ∀ pre s post, ns = pre ++ s :: post → (∀ s' ∈ pre, text s'.name ≠ name) → text s.name = name → Q (some s.block) h)
    (absent : (∀ s ∈ ns, text s.name ≠ name) → Q none h) : Ends (sectionFrom fuel (sectionShape.head none ns) name) F Q h := by
  induction ns generalizing fuel with
  | nil =>
    obtain ⟨fuel, rfl⟩ := Nat.exists_eq_succ_of_ne_zero (Nat.ne_zero_of_lt enough)
    exact ends_pure (absent (List.forall_mem_nil _))
  | cons s ns ih =>
    obtain ⟨fuel, rfl⟩ := Nat.exists_eq_succ_of_ne_zero (Nat.ne_zero_of_lt enough)
    obtain ⟨hs, hrest⟩ := List.cons_subset.mp hns
    obtain ⟨hown, hrest⟩ := List.append_subset.mp hrest
    obtain ⟨hname, -⟩ := List.append_subset.mp hown
    refine Ends.bind (ends_load hold hs ?_)
    refine Ends.bind (ends_strcmpEq hold hname (fun hnone => missing ⟨s, List.mem_cons_self, hnone⟩) fun _ => ?_)
    by_cases heq : text s.name = name
    · rw [decide_eq_true heq, if_pos rfl]
      exact ends_pure (found [] s ns rfl (List.forall_mem_nil _) heq)
    · rw [decide_eq_false heq, if_neg Bool.false_ne_true]
      refine ih hrest (Nat.lt_of_succ_lt_succ enough) ?_ ?_ ?_
      · rintro ⟨s', hs', hnone⟩
        exact missing ⟨s', List.mem_cons_of_mem s hs', hnone⟩
      · intro pre s' post hsplit hpre hs'
        exact found (s :: pre) s' post (congrArg (s :: ·) hsplit) (List.forall_mem_cons.mpr ⟨heq, hpre⟩) hs'
      · exact fun hall => absent (List.forall_mem_cons.mpr ⟨heq, hall⟩)

omit [DecidableEq P] in
/-- The first section of a name in a tree. -/
theorem ends_sectionOf {t : ConfigNode P} {n : Nat} {Q : Option P → Heap P (Cell P) → Prop} (hold : Holds base h (t.blocks ++ l))
    (small : t.Small n) (enough : n < fuel) (sound : A.Ample base → t.Whole) (missing : ∀ e, Missing A base e → F e)
    (found : ∀ pre s post, t.sections = pre ++ s :: post → (∀ s' ∈ pre, text s'.name ≠ name) → text s.name = name → Q (some s.block) h)
    (absent : (∀ s ∈ t.sections, text s.name ≠ name) → Q none h) :
    Ends (sectionFrom fuel (sectionShape.head none t.sections) name) F Q h := by
  have hsections : sectionShape.segment none t.sections ⊆ t.blocks ++ l := fun b hb =>
    List.mem_append_left l (List.mem_cons_of_mem _ (List.mem_append_right _ hb))
  refine ends_sectionFrom hold hsections (small.sections.trans_lt enough) ?_ found absent
  rintro ⟨s, hs, hnone⟩
  refine missing _ ⟨rfl, fun ample => ?_⟩
  have hsome := ((sound ample).sections s hs).name
  rw [hnone] at hsome
  cases hsome

/-! ### Assignments -/

/-- What an assignment makes of a configuration. -/
structure Assigned (A : Allocator P (Cell P)) (base : P → Option (Cell P)) (sec : Option (List UInt8)) (name value : List UInt8)
    (t t' : ConfigNode P) : Prop where
  block : t'.block = t.block
  small : ∀ n, t.Small n → t'.Small (n + 1)
  ample : A.Ample base → t.Whole → t'.Whole ∧ t'.cfg = Ini.assignKeyval true true t.cfg sec name value

theorem ends_assignKeyvalToRoot {t : ConfigNode P} {n : Nat} {Q : Unit → Heap P (Cell P) → Prop} (named : name ≠ [])
    (hold : Holds base h (t.blocks ++ l)) (small : t.Small n) (enough : n < fuel)
    (hq : ∀ t' h', Assigned A base none name value t t' → Holds base h' (t'.blocks ++ l) → Q () h') :
    Ends (assignKeyvalToRoot A fuel (some t.block) name value) F Q h := by
  have hfront : Holds base h ((t.block, t.cell) :: (keyvalShape.segment none t.globals ++
      (sectionShape.segment none t.sections ++ l))) := by
    rw [← List.append_assoc]
    exact hold
  rw [assignKeyvalToRoot, if_neg named]
  refine ends_addKeyval (s := globalKeyvalsSlot t.block) rfl hfront (small.globals.trans_lt enough) fun more h' hmore hold' => ?_
  refine hq { t with globals := t.globals ++ more } h' ⟨rfl, fun n small => ?_, fun ample whole => ?_⟩ ?_
  · refine ⟨small.succ.sections, ?_, small.succ.keyvals⟩
    rw [List.length_append]
    exact Nat.add_le_add small.globals hmore.one
  · obtain ⟨new, rfl, hnew, hkeyval⟩ := hmore.ample ample
    refine ⟨⟨whole.sections, List.forall_mem_append.mpr ⟨whole.globals, List.forall_mem_singleton.mpr hnew⟩⟩, ?_⟩
    simp only [Ini.assignKeyval, if_neg named, Ini.assignKeyvalToRoot, ConfigNode.cfg, List.map_append, List.map_cons, hkeyval]
    rfl
  · rw [ConfigNode.blocks, List.cons_append, List.append_assoc]
    exact hold'

/-- The section at its place gets the pair. -/
theorem ends_assignKeyvalToSection {t : ConfigNode P} {n : Nat} {Q : Unit → Heap P (Cell P) → Prop} {pre post : List (SectionNode P)}
    {s : SectionNode P} (named : name ≠ []) (hold : Holds base h (t.blocks ++ l)) (small : t.Small n) (enough : n < fuel)
    (hsplit : t.sections = pre ++ s :: post)
    (hq : ∀ more h', NewKeyval A base name value more → Holds base h' ({ t with sections := pre ++ s.push more :: post }.blocks ++ l) → Q () h') :
    Ends (assignKeyvalToSection A fuel (some s.block) name value) F Q h := by
  have hs : s ∈ t.sections := hsplit ▸ List.mem_append_right pre List.mem_cons_self
  rw [assignKeyvalToSection, if_neg named]
  refine ends_addKeyval (s := keyvalsSlot s.block) rfl (hold.perm (blocks_around hsplit l)) ((small.keyvals s hs).trans_lt enough)
    fun more h' hmore hold' => hq more h' hmore ?_
  exact hold'.perm (blocks_around (t := { t with sections := pre ++ s.push more :: post }) rfl l).symm

omit [DecidableEq P] in
/-- The section of a tree is the one that is assigned to. -/
theorem cfg_push {t : ConfigNode P} {pre post : List (SectionNode P)} {s : SectionNode P} {new : KeyvalNode P} {sectionName : List UInt8}
    (named : name ≠ []) (hname : sectionName ≠ []) (hsplit : t.sections = pre ++ s :: post)
    (hpre : ∀ s' ∈ pre, text s'.name ≠ sectionName) (hs : text s.name = sectionName) (hnew : new.keyval = ⟨name, value⟩) :
    { t with sections := pre ++ s.push [new] :: post }.cfg = Ini.assignKeyval true true t.cfg (some sectionName) name value := by
  have hbefore : (pre.map SectionNode.sec).findIdx? (fun sec : Ini.IniSection => sec.name = sectionName) = none := by
    refine List.findIdx?_eq_none_iff.mpr fun sec hsec => decide_eq_false ?_
    obtain ⟨s', hs', rfl⟩ := List.mem_map.mp hsec
    exact hpre s' hs'
  have hsec : decide (s.sec.name = sectionName) = true := decide_eq_true hs
  have hpush : Ini.IniSection.push ⟨name, value⟩ s.sec = (s.push [new]).sec := by
    simp only [SectionNode.sec, SectionNode.push, Ini.IniSection.push, List.map_append, List.map_cons, List.map_nil, hnew]
  simp only [Ini.assignKeyval, if_neg named, Ini.findOrCreateSection, if_neg hname, ConfigNode.cfg, hsplit, List.map_append, List.map_cons,
    List.findIdx?_append, hbefore, List.findIdx?_cons, hsec, if_true, Option.map_some, Option.none_or, Nat.zero_add,
    Ini.assignKeyvalToSection_named _ named]
  rw [Ini.modify_middle, hpush]

omit [DecidableEq P] in
/-- A new section is assigned to where there was none. -/
theorem cfg_created {t : ConfigNode P} {s : SectionNode P} {new : KeyvalNode P} {sectionName : List UInt8} (named : name ≠ [])
    (hname : sectionName ≠ []) (other : ∀ s' ∈ t.sections, text s'.name ≠ sectionName) (hs : s.sec = ⟨sectionName, []⟩)
    (hnew : new.keyval = ⟨name, value⟩) : { t with sections := t.sections ++ [s.push [new]] }.cfg =
      Ini.assignKeyval true true t.cfg (some sectionName) name value := by
  have hpush : (s.push [new]).sec = ⟨sectionName, [⟨name, value⟩]⟩ := by
    obtain ⟨htext, hkeyvals⟩ := Ini.IniSection.mk.inj hs
    simp only [SectionNode.sec, SectionNode.push, List.map_append, List.map_cons, List.map_nil, hnew, htext, hkeyvals, List.nil_append]
  rcases Ini.assigned_section t.cfg named hname value with ⟨pre, sec, post, hsplit, hsec, -, -⟩ | ⟨-, hassign⟩
  · have hmem : sec ∈ t.cfg.sections := hsplit ▸ List.mem_append_right pre List.mem_cons_self
    obtain ⟨s', hs', rfl⟩ := List.mem_map.mp hmem
    exact absurd hsec (other s' hs')
  · rw [hassign]
    simp only [ConfigNode.cfg, List.map_append, List.map_cons, List.map_nil, hpush]

omit [DecidableEq P] in
theorem Assigned.unchanged {t : ConfigNode P} {sec : Option (List UInt8)} (h : Ini.assignKeyval true true t.cfg sec name value = t.cfg) :
    Assigned A base sec name value t t := ⟨rfl, fun _ small => small.succ, fun _ whole => ⟨whole, h.symm⟩⟩

omit [DecidableEq P] in
/-- Where a section at its place gets the pair, it is the one the pair is assigned to. -/
theorem Assigned.pushed {t : ConfigNode P} {pre post : List (SectionNode P)} {s : SectionNode P} {more : List (KeyvalNode P)}
    {sectionName : List UInt8} (named : name ≠ []) (hname : sectionName ≠ []) (hsplit : t.sections = pre ++ s :: post)
    (hpre : ∀ s' ∈ pre, text s'.name ≠ sectionName) (hs : text s.name = sectionName) (hmore : NewKeyval A base name value more) :
    Assigned A base (some sectionName) name value t { t with sections := pre ++ s.push more :: post } := by
  refine ⟨rfl, fun n small => ?_, fun ample whole => ?_⟩
  · obtain ⟨hsections, hglobals, hkeyvals⟩ := small.succ
    have hold := small.keyvals
    rw [hsplit] at hsections hkeyvals hold
    obtain ⟨hbefore, hbehind⟩ := List.forall_mem_append.mp hkeyvals
    refine ⟨?_, hglobals, List.forall_mem_append.mpr ⟨hbefore, List.forall_mem_cons.mpr ⟨?_, (List.forall_mem_cons.mp hbehind).2⟩⟩⟩
    · rw [List.length_append, List.length_cons] at hsections ⊢
      exact hsections
    · rw [SectionNode.push, List.length_append]
      exact Nat.add_le_add (hold s (List.mem_append_right pre List.mem_cons_self)) hmore.one
  · obtain ⟨new, rfl, hnew, hkeyval⟩ := hmore.ample ample
    obtain ⟨hsections, hglobals⟩ := whole
    rw [hsplit] at hsections
    obtain ⟨hbefore, hbehind⟩ := List.forall_mem_append.mp hsections
    obtain ⟨hsec, hrest⟩ := List.forall_mem_cons.mp hbehind
    refine ⟨⟨List.forall_mem_append.mpr ⟨hbefore, List.forall_mem_cons.mpr ⟨⟨hsec.name, ?_⟩, hrest⟩⟩, hglobals⟩, ?_⟩
    · exact List.forall_mem_append.mpr ⟨hsec.keyvals, List.forall_mem_singleton.mpr hnew⟩
    · exact cfg_push named hname hsplit hpre hs hkeyval

omit [DecidableEq P] in
theorem Assigned.created {t : ConfigNode P} {s : SectionNode P} {more : List (KeyvalNode P)} {sectionName : List UInt8}
    (named : name ≠ []) (hname : sectionName ≠ []) (other : ∀ s' ∈ t.sections, text s'.name ≠ sectionName)
    (hs : NewSection A base sectionName [s]) (hmore : NewKeyval A base name value more) :
    Assigned A base (some sectionName) name value t { t with sections := t.sections ++ [s.push more] } := by
  refine ⟨rfl, fun n small => ?_, fun ample whole => ?_⟩
  · have hempty : s.keyvals = [] := by
      rcases hs.one with hnil | ⟨s', heq, hempty⟩
      · cases hnil
      · rw [List.singleton_inj.mp heq, hempty]
    refine ⟨?_, small.succ.globals, List.forall_mem_append.mpr ⟨small.succ.keyvals, List.forall_mem_singleton.mpr ?_⟩⟩
    · rw [List.length_append]
      exact Nat.succ_le_succ small.sections
    · rw [SectionNode.push, hempty, List.nil_append]
      exact hmore.one.trans (Nat.le_add_left 1 n)
  · obtain ⟨new, rfl, hnew, hkeyval⟩ := hmore.ample ample
    obtain ⟨s', heq, hwhole, hsec⟩ := hs.ample ample
    obtain rfl := List.singleton_inj.mp heq
    refine ⟨⟨List.forall_mem_append.mpr ⟨whole.sections, List.forall_mem_singleton.mpr ⟨hwhole.name, ?_⟩⟩, whole.globals⟩, ?_⟩
    · exact List.forall_mem_append.mpr ⟨hwhole.keyvals, List.forall_mem_singleton.mpr hnew⟩
    · exact cfg_created named hname other hsec hkeyval

/-- The pair goes to a section that is there. -/
theorem ends_assigned {t : ConfigNode P} {n : Nat} {sectionName : List UInt8} {Q : Unit → Heap P (Cell P) → Prop}
    {pre post : List (SectionNode P)} {s : SectionNode P} (named : name ≠ []) (hname : sectionName ≠ [])
    (hold : Holds base h (t.blocks ++ l)) (small : t.Small n) (enough : n < fuel) (hsplit : t.sections = pre ++ s :: post)
    (hpre : ∀ s' ∈ pre, text s'.name ≠ sectionName) (hs : text s.name = sectionName)
    (hq : ∀ t' h', Assigned A base (some sectionName) name value t t' → Holds base h' (t'.blocks ++ l) → Q () h') :
    Ends (assignKeyvalToSection A fuel (some s.block) name value) F Q h :=
  ends_assignKeyvalToSection named hold small enough hsplit fun _ h' hmore hold' =>
    hq _ h' (Assigned.pushed named hname hsplit hpre hs hmore) hold'

/-- The section is there, or it is added behind the others, if there is memory for it. -/
theorem ends_findOrCreateSection {t : ConfigNode P} {n : Nat} {sectionName : List UInt8} {Q : Option P → Heap P (Cell P) → Prop}
    (hname : sectionName ≠ []) (hold : Holds base h (t.blocks ++ l)) (small : t.Small n) (enough : n < fuel)
    (sound : A.Ample base → t.Whole) (missing : ∀ e, Missing A base e → F e)
    (found : ∀ pre s post, t.sections = pre ++ s :: post → (∀ s' ∈ pre, text s'.name ≠ sectionName) → text s.name = sectionName →
      Q (some s.block) h)
    (created : ∀ more h', (∀ s ∈ t.sections, text s.name ≠ sectionName) → NewSection A base sectionName more →
      Holds base h' ({ t with sections := t.sections ++ more }.blocks ++ l) → Q (sectionShape.head none more) h') :
    Ends (findOrCreateSection A fuel (some t.block) sectionName) F Q h := by
  have hcell : (t.block, t.cell) ∈ t.blocks ++ l := List.mem_append_left l List.mem_cons_self
  simp only [findOrCreateSection, if_neg hname]
  refine Ends.bind (Shape.ends_read (s := sectionsSlot t.block) hold hcell rfl ?_)
  refine Ends.bind (ends_sectionOf hold small enough sound missing ?_ fun other => ?_)
  · exact fun pre s post hsplit hpre hs => ends_pure (found pre s post hsplit hpre hs)
  · have hfront : Holds base h ((t.block, t.cell) :: (sectionShape.segment none t.sections ++
        (keyvalShape.segment none t.globals ++ l))) := by
      refine hold.counted fun b => ?_
      simp only [ConfigNode.blocks, List.count_append, List.count_cons]
      omega
    refine ends_addSection (s := sectionsSlot t.block) rfl hfront (small.sections.trans_lt enough) fun more h' hmore hold' =>
      created more h' other hmore ?_
    refine hold'.counted fun b => ?_
    simp only [ConfigNode.blocks, ConfigNode.cell, sectionsSlot, List.count_append, List.count_cons]
    omega

/-- An assignment keeps what the configuration owns in a tree, and does to it what the assignment does. -/
theorem ends_assignKeyval {t : ConfigNode P} {n : Nat} {sec : Option (List UInt8)} {Q : Unit → Heap P (Cell P) → Prop}
    (hold : Holds base h (t.blocks ++ l)) (small : t.Small n) (enough : n + 1 < fuel) (sound : A.Ample base → t.Whole)
    (missing : ∀ e, Missing A base e → F e)
    (hq : ∀ t' h', Assigned A base sec name value t t' → Holds base h' (t'.blocks ++ l) → Q () h') :
    Ends (assignKeyval A fuel (some t.block) sec name value) F Q h := by
  rw [assignKeyval.eq_def, Option.isNone_some, if_neg Bool.false_ne_true]
  by_cases named : name = []
  · rw [if_pos named]
    exact ends_pure (hq t h (Assigned.unchanged (by simp only [Ini.assignKeyval, if_pos named])) hold)
  rw [if_neg named]
  cases sec with
  | none => exact ends_assignKeyvalToRoot named hold small (Nat.lt_of_succ_lt enough) hq
  | some sectionName =>
    by_cases hname : sectionName = []
    · have hassign : Ini.assignKeyval true true t.cfg (some sectionName) name value = t.cfg := by
        simp only [Ini.assignKeyval, if_neg named, Ini.findOrCreateSection, if_pos hname]
      simp only [findOrCreateSection, if_pos hname]
      exact Ends.bind (ends_pure (ends_pure (hq t h (Assigned.unchanged hassign) hold)))
    · refine Ends.bind (ends_findOrCreateSection hname hold small (Nat.lt_of_succ_lt enough) sound missing ?_ ?_)
      · intro pre s post hsplit hpre hs
        exact ends_assigned named hname hold small (Nat.lt_of_succ_lt enough) hsplit hpre hs hq
      · intro more h₁ other hmore hold₁
        rcases hmore.one with rfl | ⟨s, rfl, hempty⟩
        · refine ends_pure (hq t h₁ ⟨rfl, fun _ small => small.succ, fun ample => ?_⟩ ?_)
          · obtain ⟨s, hs, -⟩ := hmore.ample ample
            cases hs
          · rw [List.append_nil] at hold₁
            exact hold₁
        · have hsmall : { t with sections := t.sections ++ [s] }.Small (n + 1) := by
            refine ⟨?_, small.succ.globals, List.forall_mem_append.mpr ⟨small.succ.keyvals, List.forall_mem_singleton.mpr ?_⟩⟩
            · rw [List.length_append]
              exact Nat.succ_le_succ small.sections
            · rw [hempty]
              exact Nat.zero_le _
          refine ends_assignKeyvalToSection (t := { t with sections := t.sections ++ [s] }) named hold₁ hsmall enough rfl
            fun more h' hmore' hold' => hq _ h' (Assigned.created named hname other hmore hmore') hold'

/-! ### Values -/

omit [DecidableEq P] in
theorem ends_loadString {t : Text P} {Q : List UInt8 → Heap P (Cell P) → Prop} (hold : Holds base h l) (ht : textBlocks t ⊆ l)
    (missing : t = none → F .null) (hq : t.isSome = true → Q (text t) h) : Ends (loadString (t.map Prod.fst)) F Q h := by
  cases t with
  | none => exact Ends.bind (ends_load_null (missing rfl))
  | some t =>
    have hmem : (t.1, Cell.string t.2) ∈ l := ht (List.mem_singleton.mpr rfl)
    exact Ends.bind (ends_load hold hmem (hq rfl))

omit [DecidableEq P] in
theorem not_whole_name {n : KeyvalNode P} (h : n.name = none) : ¬n.Whole := fun whole => by
  have hsome := whole.1
  rw [h] at hsome
  cases hsome

omit [DecidableEq P] in
theorem not_whole_value {n : KeyvalNode P} (h : n.value = none) : ¬n.Whole := fun whole => by
  have hsome := whole.2
  rw [h] at hsome
  cases hsome

omit [DecidableEq P] in
theorem valueIn_cons (n : KeyvalNode P) (ns : List (KeyvalNode P)) (key : List UInt8) : Ini.valueIn ((n :: ns).map KeyvalNode.keyval) key =
    if text n.name = key then some (text n.value) else Ini.valueIn (ns.map KeyvalNode.keyval) key := by
  rw [Ini.valueIn, List.map_cons, List.find?_cons]
  by_cases heq : text n.name = key
  · have hkey : decide (n.keyval.name = key) = true := decide_eq_true heq
    rw [hkey, if_pos heq]
    rfl
  · have hkey : decide (n.keyval.name = key) = false := decide_eq_false heq
    rw [hkey, if_neg heq]
    rfl

/-- The value of the first pair of the name is copied. -/
theorem ends_valueFrom {ns : List (KeyvalNode P)} {key : List UInt8} {Q : Option P → Heap P (Cell P) → Prop} (hold : Holds base h l)
    (hns : keyvalShape.segment none ns ⊆ l) (enough : ns.length < fuel) (missing : (∃ n ∈ ns, ¬n.Whole) → F .null)
    (hq : ∀ (x : Text P) h', (A.Ample base → x.map Prod.snd = Ini.valueIn (ns.map KeyvalNode.keyval) key) →
      Holds base h' (textBlocks x ++ l) → Q (x.map Prod.fst) h') : Ends (valueFrom A fuel (keyvalShape.head none ns) key) F Q h := by
  induction ns generalizing fuel with
  | nil =>
    obtain ⟨fuel, rfl⟩ := Nat.exists_eq_succ_of_ne_zero (Nat.ne_zero_of_lt enough)
    exact ends_pure (hq none h (fun _ => rfl) hold)
  | cons n ns ih =>
    obtain ⟨fuel, rfl⟩ := Nat.exists_eq_succ_of_ne_zero (Nat.ne_zero_of_lt enough)
    obtain ⟨hn, hrest⟩ := List.cons_subset.mp hns
    obtain ⟨hown, hrest⟩ := List.append_subset.mp hrest
    obtain ⟨hname, hvalue⟩ := List.append_subset.mp hown
    have hfirst := valueIn_cons n ns key
    refine Ends.bind (ends_load hold hn ?_)
    refine Ends.bind (ends_strcmpEq hold hname (fun hnone => missing ⟨n, List.mem_cons_self, not_whole_name hnone⟩) fun _ => ?_)
    by_cases heq : text n.name = key
    · rw [decide_eq_true heq, if_pos rfl]
      rw [if_pos heq] at hfirst
      refine Ends.bind (ends_loadString hold hvalue (fun hnone => missing ⟨n, List.mem_cons_self, not_whole_value hnone⟩) fun _ => ?_)
      refine ends_strdup (text n.value) hold fun x h' hx hample hold' => hq x h' (fun ample => ?_) hold'
      obtain ⟨s, rfl⟩ := Option.isSome_iff_exists.mp (hample ample)
      rw [hfirst, ← hx s rfl]
      rfl
    · rw [decide_eq_false heq, if_neg Bool.false_ne_true]
      rw [if_neg heq] at hfirst
      refine ih hrest (Nat.lt_of_succ_lt_succ enough) ?_ fun x h' hx hold' => hq x h' (fun ample => (hx ample).trans hfirst.symm) hold'
      rintro ⟨n', hn', hnot⟩
      exact missing ⟨n', List.mem_cons_of_mem n hn', hnot⟩

omit [DecidableEq P] in
/-- The pairs under a section of a tree. -/
theorem keyvalsUnder_found {t : ConfigNode P} {pre post : List (SectionNode P)} {s : SectionNode P} (hname : name ≠ [])
    (hsplit : t.sections = pre ++ s :: post) (hpre : ∀ s' ∈ pre, text s'.name ≠ name) (hs : text s.name = name) :
    Ini.keyvalsUnder t.cfg (some name) = s.keyvals.map KeyvalNode.keyval := by
  have hbefore : (pre.map SectionNode.sec).find? (fun sec : Ini.IniSection => sec.name = name) = none := by
    refine List.find?_eq_none.mpr fun sec hsec => ?_
    obtain ⟨s', hs', rfl⟩ := List.mem_map.mp hsec
    exact fun heq => hpre s' hs' (of_decide_eq_true heq)
  have hsec : decide (s.sec.name = name) = true := decide_eq_true hs
  simp only [Ini.keyvalsUnder, Ini.findSection, if_neg hname, ConfigNode.cfg, hsplit, List.map_append, List.map_cons, List.find?_append,
    hbefore, List.find?_cons, hsec, Option.none_or, Option.map_some, Option.getD_some]
  rfl

omit [DecidableEq P] in
theorem keyvalsUnder_absent {t : ConfigNode P} (h : name = [] ∨ ∀ s ∈ t.sections, text s.name ≠ name) :
    Ini.keyvalsUnder t.cfg (some name) = [] := by
  rw [Ini.keyvalsUnder, Ini.findSection]
  split
  · rfl
  next hname =>
    have hnone : t.cfg.sections.find? (fun sec : Ini.IniSection => sec.name = name) = none := by
      refine List.find?_eq_none.mpr fun sec hsec => ?_
      obtain ⟨s, hs, rfl⟩ := List.mem_map.mp hsec
      exact fun heq => h.resolve_left hname s hs (of_decide_eq_true heq)
    rw [hnone]
    rfl

omit [DecidableEq P] in
/-- The section whose pairs are those under the name. -/
theorem ends_findSection {t : ConfigNode P} {n : Nat} {Q : Option P → Heap P (Cell P) → Prop} (hold : Holds base h (t.blocks ++ l))
    (small : t.Small n) (enough : n < fuel) (sound : A.Ample base → t.Whole) (missing : ∀ e, Missing A base e → F e)
    (found : ∀ pre s post, t.sections = pre ++ s :: post → Ini.keyvalsUnder t.cfg (some name) = s.keyvals.map KeyvalNode.keyval →
      Q (some s.block) h)
    (absent : Ini.keyvalsUnder t.cfg (some name) = [] → Q none h) : Ends (findSection fuel (some t.block) name) F Q h := by
  by_cases hname : name = []
  · simp only [findSection, if_pos hname]
    exact ends_pure (absent (keyvalsUnder_absent (Or.inl hname)))
  · have hcell : (t.block, t.cell) ∈ t.blocks ++ l := List.mem_append_left l List.mem_cons_self
    simp only [findSection, if_neg hname]
    refine Ends.bind (Shape.ends_read (s := sectionsSlot t.block) hold hcell rfl ?_)
    refine ends_sectionOf hold small enough sound missing ?_ fun other => absent (keyvalsUnder_absent (Or.inr other))
    exact fun pre s post hsplit hpre hs => found pre s post hsplit (keyvalsUnder_found hname hsplit hpre hs)

/-- A lookup leaves the configuration as it is, and adds a copy of the value. -/
theorem ends_iniGetValue {t : ConfigNode P} {n : Nat} {sec : Option (List UInt8)} {key : List UInt8}
    {Q : Option P → Heap P (Cell P) → Prop} (hold : Holds base h (t.blocks ++ l)) (small : t.Small n) (enough : n < fuel)
    (sound : A.Ample base → t.Whole) (missing : ∀ e, Missing A base e → F e)
    (hq : ∀ (x : Text P) h', (A.Ample base → x.map Prod.snd = Ini.iniGetValue t.cfg sec key) →
      Holds base h' (textBlocks x ++ (t.blocks ++ l)) → Q (x.map Prod.fst) h') : Ends (iniGetValue A fuel (some t.block) sec key) F Q h := by
  have hnothing (heq : Ini.iniGetValue t.cfg sec key = none) : Q none h := hq none h (fun _ => heq.symm) hold
  have hvalue := Ini.iniGetValue_eq t.cfg sec key
  have hcell : (t.block, t.cell) ∈ t.blocks ++ l := List.mem_append_left l List.mem_cons_self
  rw [iniGetValue.eq_def]
  dsimp only
  by_cases hkey : key = []
  · rw [if_pos hkey]
    exact ends_pure (hnothing (hvalue.trans (if_pos hkey)))
  rw [if_neg hkey]
  rw [if_neg hkey] at hvalue
  cases sec with
  | none =>
    have hglobals : keyvalShape.segment none t.globals ⊆ t.blocks ++ l := fun b hb =>
      List.mem_append_left l (List.mem_cons_of_mem _ (List.mem_append_left _ hb))
    refine Ends.bind (Shape.ends_read (s := globalKeyvalsSlot t.block) hold hcell rfl ?_)
    refine ends_valueFrom hold hglobals (small.globals.trans_lt enough) ?_ fun x h' hx hold' => hq x h' (fun ample => ?_) hold'
    · rintro ⟨n, hn, hnot⟩
      exact missing _ ⟨rfl, fun ample => hnot ((sound ample).globals n hn)⟩
    · exact (hx ample).trans hvalue.symm
  | some name =>
    refine Ends.bind (ends_findSection hold small enough sound missing ?_ fun hunder => ?_)
    · intro pre s post hsplit hunder
      have hmem : s ∈ t.sections := hsplit ▸ List.mem_append_right pre List.mem_cons_self
      have hfront := hold.perm (blocks_around hsplit l)
      have hback : keyvalShape.segment none s.keyvals ⊆ (s.block, sectionShape.cell s (sectionShape.head none post)) ::
          (keyvalShape.segment none s.keyvals ++ (t.around pre s post ++ l)) := fun b hb =>
        List.mem_cons_of_mem _ (List.mem_append_left _ hb)
      refine Ends.bind (Shape.ends_read (s := keyvalsSlot s.block) hfront List.mem_cons_self rfl ?_)
      refine ends_valueFrom hfront hback ((small.keyvals s hmem).trans_lt enough) ?_ fun x h' hx hold' => hq x h' (fun ample => ?_) ?_
      · rintro ⟨n, hn, hnot⟩
        exact missing _ ⟨rfl, fun ample => hnot (((sound ample).sections s hmem).keyvals n hn)⟩
      · rw [hx ample, hvalue, hunder]
      · exact hold'.perm ((blocks_around hsplit l).symm.append_left (textBlocks x))
    · rw [hunder] at hvalue
      exact ends_pure (hnothing hvalue)

/-! ### Release -/

theorem ends_freeText {t : Text P} {Q : Unit → Heap P (Cell P) → Prop} (hold : Holds base h (textBlocks t ++ l))
    (hq : ∀ h', Holds base h' l → Q () h') : Ends (free (t.map Prod.fst)) F Q h := by
  cases t with
  | none => exact ends_free_null (hq h hold)
  | some t => exact ends_free hold hq

/-- A list of pairs is freed whole. -/
theorem ends_freeKeyvals {ns : List (KeyvalNode P)} {Q : Unit → Heap P (Cell P) → Prop}
    (hold : Holds base h (keyvalShape.segment none ns ++ l)) (enough : ns.length < fuel) (hq : ∀ h', Holds base h' l → Q () h') :
    Ends (freeKeyvals fuel (keyvalShape.head none ns)) F Q h := by
  induction ns generalizing fuel h with
  | nil =>
    obtain ⟨fuel, rfl⟩ := Nat.exists_eq_succ_of_ne_zero (Nat.ne_zero_of_lt enough)
    exact ends_pure (hq h hold)
  | cons n ns ih =>
    obtain ⟨fuel, rfl⟩ := Nat.exists_eq_succ_of_ne_zero (Nat.ne_zero_of_lt enough)
    have hname : Holds base h (textBlocks n.name ++ (textBlocks n.value ++
        ((n.block, keyvalShape.cell n (keyvalShape.head none ns)) :: (keyvalShape.segment none ns ++ l)))) := by
      refine hold.counted fun b => ?_
      simp only [Shape.segment, keyvalShape, List.count_append, List.count_cons]
      omega
    refine Ends.bind (ends_load hold List.mem_cons_self ?_)
    refine Ends.bind (ends_freeText hname fun h₁ hvalue => ?_)
    refine Ends.bind (ends_freeText hvalue fun h₂ hnode => ?_)
    exact Ends.bind (ends_free hnode fun h₃ hrest => ih hrest (Nat.lt_of_succ_lt_succ enough))

/-- The sections are freed whole, each with its pairs. -/
theorem ends_freeSections {ns : List (SectionNode P)} {turns : Nat} {Q : Unit → Heap P (Cell P) → Prop}
    (hold : Holds base h (sectionShape.segment none ns ++ l)) (enough : ns.length < turns)
    (keyvals : ∀ s ∈ ns, s.keyvals.length < fuel) (hq : ∀ h', Holds base h' l → Q () h') :
    Ends (freeSections fuel turns (sectionShape.head none ns)) F Q h := by
  induction ns generalizing turns h with
  | nil =>
    obtain ⟨turns, rfl⟩ := Nat.exists_eq_succ_of_ne_zero (Nat.ne_zero_of_lt enough)
    exact ends_pure (hq h hold)
  | cons s ns ih =>
    obtain ⟨turns, rfl⟩ := Nat.exists_eq_succ_of_ne_zero (Nat.ne_zero_of_lt enough)
    obtain ⟨hs, hns⟩ := List.forall_mem_cons.mp keyvals
    have hkeyvals : Holds base h (keyvalShape.segment none s.keyvals ++ (textBlocks s.name ++
        ((s.block, sectionShape.cell s (sectionShape.head none ns)) :: (sectionShape.segment none ns ++ l)))) := by
      refine hold.counted fun b => ?_
      simp only [Shape.segment, sectionShape, List.count_append, List.count_cons]
      omega
    refine Ends.bind (ends_load hold List.mem_cons_self ?_)
    refine Ends.bind (ends_freeKeyvals hkeyvals hs fun h₁ hname => ?_)
    refine Ends.bind (ends_freeText hname fun h₂ hnode => ?_)
    exact Ends.bind (ends_free hnode fun h₃ hrest => ih hrest (Nat.lt_of_succ_lt_succ enough) hns)

theorem ends_iniFree {t : ConfigNode P} {n : Nat} {Q : Unit → Heap P (Cell P) → Prop} (hold : Holds base h (t.blocks ++ l))
    (small : t.Small n) (enough : n < fuel) (hq : ∀ h', Holds base h' l → Q () h') : Ends (iniFree fuel (some t.block)) F Q h := by
  have hglobals : Holds base h (keyvalShape.segment none t.globals ++
      ((t.block, t.cell) :: (sectionShape.segment none t.sections ++ l))) := by
    refine hold.counted fun b => ?_
    simp only [ConfigNode.blocks, List.count_append, List.count_cons]
    omega
  refine Ends.bind (Shape.ends_read (s := globalKeyvalsSlot t.block) hold List.mem_cons_self rfl ?_)
  refine Ends.bind (ends_freeKeyvals hglobals (small.globals.trans_lt enough) fun h₁ hcell => ?_)
  refine Ends.bind (Shape.ends_read (s := sectionsSlot t.block) hcell List.mem_cons_self rfl ?_)
  have hsections : Holds base h₁ (sectionShape.segment none t.sections ++ ((t.block, t.cell) :: l)) :=
    hcell.perm List.perm_middle.symm
  refine Ends.bind (ends_freeSections hsections (small.sections.trans_lt enough)
    (fun s hs => (small.keyvals s hs).trans_lt enough) fun h₂ hlast => ?_)
  exact ends_free hlast hq

/-! ### Sessions -/

/-- What the assignments make of a configuration, apart from memory. -/
def assigned (cfg : Ini.IniConfig) (calls : List Assignment) : Ini.IniConfig :=
  calls.foldl (fun cfg call => Ini.assignKeyval true true cfg call.sec call.name call.value) cfg

/-- What the parser assigns for what it reads of a text, behind a header. -/
def assignments (stack : Ini.Stack) : Option (List UInt8) → List Ini.Entry → List Assignment
  | _, [] => []
  | _, .header name :: entries => assignments stack (if name = [] then none else some name) entries
  | current, .pair key value :: entries =>
    ⟨current, Ini.held stack.currentKey key, Ini.held stack.currentValue value⟩ :: assignments stack current entries

omit [DecidableEq P] in
/-- The configuration of a text is what these assignments make. -/
theorem stored_assigned (stack : Ini.Stack) (entries : List Ini.Entry) :
    (Ini.stored stack entries).2 = assigned ⟨[], []⟩ (assignments stack none entries) := by
  have hfoldl : ∀ s, (entries.foldl (Ini.Entry.apply stack) s).2 = assigned s.2 (assignments stack s.1 entries) := by
    induction entries with
    | nil => exact fun s => rfl
    | cons entry entries ih =>
      intro s
      rw [List.foldl_cons, ih]
      cases entry <;> rfl
  exact hfoldl (none, ⟨[], []⟩)

theorem ends_assignAll {t : ConfigNode P} {n : Nat} {calls : List Assignment} {Q : Unit → Heap P (Cell P) → Prop}
    (hold : Holds base h (t.blocks ++ l)) (small : t.Small n) (enough : n + calls.length < fuel) (sound : A.Ample base → t.Whole)
    (missing : ∀ e, Missing A base e → F e)
    (hq : ∀ (t' : ConfigNode P) h', t'.block = t.block → t'.Small (n + calls.length) → (A.Ample base → t'.Whole ∧ t'.cfg = assigned t.cfg calls) →
      Holds base h' (t'.blocks ++ l) → Q () h') : Ends (assignAll A fuel (some t.block) calls) F Q h := by
  induction calls generalizing t n h with
  | nil => exact ends_pure (hq t h rfl small (fun ample => ⟨sound ample, rfl⟩) hold)
  | cons call calls ih =>
    rw [List.length_cons] at enough hq
    refine Ends.bind (ends_assignKeyval hold small (by omega) sound missing fun t₁ h₁ hassigned hold₁ => ?_)
    rw [← hassigned.block]
    refine ih hold₁ (hassigned.small n small) (by omega) (fun ample => (hassigned.ample ample (sound ample)).1) ?_
    intro t' h' hblock hsmall hcfg hold'
    refine hq t' h' (hblock.trans hassigned.block) ?_ (fun ample => ?_) hold'
    · rw [Nat.add_comm calls.length, ← Nat.add_assoc]
      exact hsmall
    · obtain ⟨hwhole, heq⟩ := hcfg ample
      rw [(hassigned.ample ample (sound ample)).2] at heq
      exact ⟨hwhole, heq⟩

/-- The copies of values, as far as there was memory for them. -/
def copies (xs : List (Text P)) : List (P × Cell P) := xs.flatMap textBlocks

theorem ends_getAll {t : ConfigNode P} {n : Nat} {lookups : List Lookup} {Q : List (Option P) → Heap P (Cell P) → Prop}
    (hold : Holds base h (t.blocks ++ l)) (small : t.Small n) (enough : n < fuel) (sound : A.Ample base → t.Whole)
    (missing : ∀ e, Missing A base e → F e)
    (hq : ∀ xs h', (A.Ample base → xs.map (Option.map Prod.snd) = lookups.map fun look => Ini.iniGetValue t.cfg look.sec look.key) →
      Holds base h' (t.blocks ++ (copies xs ++ l)) → Q (xs.map (Option.map Prod.fst)) h') :
    Ends (getAll A fuel (some t.block) lookups) F Q h := by
  induction lookups generalizing l h Q with
  | nil => exact ends_pure (hq [] h (fun _ => rfl) hold)
  | cons look lookups ih =>
    refine Ends.bind (ends_iniGetValue hold small enough sound missing fun x h₁ hx hold₁ => ?_)
    have hnext : Holds base h₁ (t.blocks ++ (textBlocks x ++ l)) := by
      refine hold₁.counted fun b => ?_
      simp only [List.count_append]
      omega
    refine Ends.bind (ih hnext fun xs h₂ hxs hold₂ => ends_pure ?_)
    refine hq (x :: xs) h₂ (fun ample => ?_) (hold₂.counted fun b => ?_)
    · rw [List.map_cons, List.map_cons, hx ample, hxs ample]
    · simp only [copies, List.flatMap_cons, List.count_append]
      omega

/-- Whatever memory there is, a session follows no pointer but to what it owns, frees all of it but the copies of the values, and
    touches nothing else; it stops early only at `NULL`, and only where memory can lack. With memory enough the copies are what the
    assignments and the lookups give apart from memory. -/
theorem session_frees (A : Allocator P (Cell P)) (calls : List Assignment) (lookups : List Lookup) (h : Heap P (Cell P)) {fuel : Nat}
    (enough : calls.length < fuel) :
    Ends (session A fuel calls lookups) (Missing A h.cells) (fun values h' =>
      (values = none ∧ h'.cells = h.cells ∧ ¬A.Ample h.cells) ∨ ∃ xs : List (Text P), values = some (xs.map (Option.map Prod.fst)) ∧
        Holds h.cells h' (copies xs) ∧ (A.Ample h.cells → xs.map (Option.map Prod.snd) =
          lookups.map fun look => Ini.iniGetValue (assigned ⟨[], []⟩ calls) look.sec look.key)) h := by
  have hstart : Holds h.cells h [] := holds_nil.mpr rfl
  refine Ends.bind (ends_malloc hstart fun p h₁ hp hold₁ => ?_)
  cases p with
  | none => exact ends_pure (Or.inl ⟨rfl, holds_nil.mp hold₁, fun ample => by cases ample.isSome hstart hp⟩)
  | some p =>
    let t : ConfigNode P := ⟨p, [], []⟩
    have hsmall : t.Small 0 := ⟨Nat.le_refl 0, Nat.le_refl 0, List.forall_mem_nil _⟩
    have hwhole : t.Whole := ⟨List.forall_mem_nil _, List.forall_mem_nil _⟩
    have hcalls : 0 + calls.length < fuel := by rwa [Nat.zero_add]
    refine Ends.bind (ends_assignAll (t := t) hold₁ hsmall hcalls (fun _ => hwhole) (fun _ he => he) ?_)
    intro t₂ h₂ hblock hsmall₂ hcfg hold₂
    have hblock : p = t₂.block := hblock.symm
    rw [hblock]
    refine Ends.bind (ends_getAll hold₂ hsmall₂ hcalls (fun ample => (hcfg ample).1) (fun _ he => he) fun xs h₃ hxs hold₃ => ?_)
    refine Ends.bind (ends_iniFree hold₃ hsmall₂ hcalls fun h₄ hold₄ => ends_pure (Or.inr ⟨xs, rfl, ?_, fun ample => ?_⟩))
    · rwa [List.append_nil] at hold₄
    · rw [hxs ample, (hcfg ample).2]
      rfl

/-- One pair under a section, one under none; a key is looked up that neither has. -/
theorem session_frees_sample : Ends (session (Allocator.any Nat (Cell Nat)) 3 [⟨none, [97], [98]⟩, ⟨some [115], [97], [99]⟩]
    [⟨some [115], [97]⟩, ⟨none, [97]⟩, ⟨none, [98]⟩]) (fun _ => False) (fun values h' => ∃ xs : List (Text Nat),
      values = some (xs.map (Option.map Prod.fst)) ∧ Holds (fun _ => none) h' (copies xs) ∧
      xs.map (Option.map Prod.snd) = [some [99], some [98], none]) ⟨fun _ => none, 0⟩ := by
  have hample : (Allocator.any Nat (Cell Nat)).Ample (fun _ => none) :=
    ample_any (Set.finite_empty.subset fun p hp => absurd rfl hp)
  refine (session_frees (Allocator.any Nat (Cell Nat)) [⟨none, [97], [98]⟩, ⟨some [115], [97], [99]⟩]
    [⟨some [115], [97]⟩, ⟨none, [97]⟩, ⟨none, [98]⟩] ⟨fun _ => none, 0⟩ (show 2 < 3 by decide)).mono ?_ ?_
  · exact fun e he => he.2 hample
  · rintro values h' (⟨-, -, hnot⟩ | ⟨xs, hvalues, hold, hcontents⟩)
    · exact absurd hample hnot
    · exact ⟨xs, hvalues, hold, (hcontents hample).trans (by decide)⟩

end Functions
end Vcmp.IniHeap
