import Vcmp.Lib.Local

/-! Buffers in several extents, and callbacks that get a pointer to the first of them. -/

namespace ByteMem

/-- A buffer as its extents, none of them empty. -/
structure Extents where
  parts : List (List UInt8)
  filled : ∀ part ∈ parts, part ≠ []

namespace Extents

def bytes (b : Extents) : List UInt8 := b.parts.flatten

/-- The extent that a single vector shows; an empty buffer shows none. -/
def first (b : Extents) : List UInt8 := b.parts.headD []

theorem first_isPrefix (b : Extents) : b.first <+: b.bytes := by
  obtain ⟨parts, filled⟩ := b
  cases parts with
  | nil => exact List.nil_prefix
  | cons part parts => exact ⟨parts.flatten, List.flatten_cons.symm⟩

end Extents

/-- What comes of a callback and which offsets it looks at, for the first extent, the bytes of the whole buffer and the
    memory behind the extent. -/
abbrev Callback (α : Type) := List UInt8 → List UInt8 → Mem → α × List Nat

/-- A program over the memory at the first extent, which may know the bytes of the buffer but for their contents. -/
def Prog.callback {α : Type} (x : List UInt8 → Prog α) : Callback α := fun first total past =>
  let r := (x total).run { mem := ofBytes first past }
  (r.1, r.2.touched)

/-- The callback stays in the first extent, and the same comes of it as if all bytes lay in one. -/
structure Respects {α : Type} (c : Callback α) (b : Extents) (past : Mem) : Prop where
  inside : ∀ i ∈ (c b.first b.bytes past).2, i < b.first.length
  same : ∀ past', (c b.bytes b.bytes past').1 = (c b.first b.bytes past).1

section Respects
variable {α : Type} {b : Extents} {past past' : Mem}

theorem ofBytes_agree {l r : List UInt8} (h : l <+: r) {i : Nat} (hi : i < l.length) :
    ofBytes l past i = ofBytes r past' i := by
  obtain ⟨t, rfl⟩ := h
  rw [ofBytes_append, ofBytes_of_lt hi, ofBytes_of_lt hi]

theorem respects_iff_within {x : List UInt8 → Prog α} (hx : ∀ total, Local (x total)) :
    Respects (Prog.callback x) b past ↔ Within b.first.length ((x b.bytes).run { mem := ofBytes b.first past }).2 := by
  refine ⟨fun h => h.inside, fun inside => ⟨inside, fun past' => ?_⟩⟩
  exact ((hx b.bytes).below inside fun i hi => ofBytes_agree b.first_isPrefix hi).1

end Respects

end ByteMem
