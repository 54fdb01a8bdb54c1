import Vcmp.Theorems.HeaderLookup
import Vcmp.Websockets.Http

/-! Lookups of the fields of HTTP/1.1: for which spellings they find the value. -/

namespace Vcmp.Websockets
open ByteMem CInt CString

variable {f g : HttpField} {http : HttpRequest} {request : Request} {q : List UInt8} {front back : List HttpField} {past : Mem}

/-! ### The lines of a request -/

theorem delim_line (f : Field) : delim f.line = f.name.length := by
  have hname : ':'.toUInt8 ∉ f.name := fun hmem => (f.nameClean _ hmem).1 rfl
  have hmem : ':'.toUInt8 ∈ f.line := List.mem_append_right _ List.mem_cons_self
  rw [delim, if_pos hmem, Field.line, List.idxOf_append_of_notMem hname, List.idxOf_cons_self]
  rfl

theorem fits_line (f : Field) : Fits f.line ↔ f.name.length ≤ 255 ∧ f.value ≠ [] ∧ f.value.length ≤ 256 := by
  rw [Fits, delim_line, f.length_line, ← List.length_pos_iff]
  omega

theorem terminated_fields (fields : List Field) (rest : List UInt8) :
    terminated (fieldsBytes fields ++ rest) = fields.map Field.line ++ terminated rest := by
  induction fields with
  | nil => rfl
  | cons f fields ih =>
    rw [fieldsBytes_cons, List.append_assoc, List.cons_append, terminated_cons f.line_clean, ih]
    rfl

/-- The header lines of a request are those of its fields. -/
theorem headerLines_bytes (request : Request) : headerLines request.bytes = request.fields.map Field.line := by
  have hstart : '\n'.toUInt8 ∉ request.startLine ++ ['\r'.toUInt8] := by
    rw [List.mem_append, List.mem_singleton]
    exact not_or.mpr ⟨request.startClean, by decide⟩
  have hbytes : request.bytes = (request.startLine ++ ['\r'.toUInt8]) ++
      ('\n'.toUInt8 :: (fieldsBytes request.fields ++ ['\r'.toUInt8, '\n'.toUInt8])) := by
    simp [Request.bytes]
  have hend : terminated ['\r'.toUInt8, '\n'.toUInt8] = [['\r'.toUInt8]] := by decide
  rw [headerLines, hbytes, terminated_cons hstart, List.drop_one, List.tail_cons, terminated_fields, hend]
  have hlong : ∀ l ∈ request.fields.map Field.line, decide (l.length ≠ 1) = true := by
    intro l hl
    obtain ⟨f, -, rfl⟩ := List.mem_map.mp hl
    have hlength := f.length_line
    exact decide_eq_true (by omega)
  rw [List.takeWhile_append_of_pos hlong]
  simp

/-! ### Lookup -/

/-- The parser stays in the data and in its entries, and a lookup finds the value of the field. -/
structure Finds (http : HttpRequest) (past : Mem) (q : List UInt8) (f : HttpField) : Prop where
  inside : ∀ c ∈ parseCopies http.request.bytes past, c.2.Inside http.request.bytes.length
  found : (wsHeaderGet (table http.request past fun _ _ => 0) q).map HeaderEntry.value = some f.value

theorem inside_iff (http : HttpRequest) (past : Mem) :
    (∀ c ∈ parseCopies http.request.bytes past, c.2.Inside http.request.bytes.length) ↔
      ∀ g ∈ http.fields, g.raw ≠ [] ∧ g.raw.length ≤ 256 := by
  have hfields : http.request.fields = http.fields.map HttpField.field := rfl
  rw [parseCopies_inside_iff, headerLines_bytes, hfields, List.map_map, List.forall_mem_map]
  refine forall₂_congr fun g _ => (fits_line g.field).trans ?_
  exact and_iff_right g.nameShort

theorem find?_once (others : ∀ g ∈ front ++ back, g.name ≠ q) :
    (front ++ f :: back).reverse.find? (fun g => g.name == q) = if f.name = q then some f else none := by
  have hnone {l : List HttpField} (h : ∀ g ∈ l, g.name ≠ q) : l.reverse.find? (fun g => g.name == q) = none := by
    rw [List.find?_eq_none]
    exact fun g hg => by simpa using h g (List.mem_reverse.mp hg)
  have hfront := hnone fun g hg => others g (List.mem_append_left back hg)
  have hback := hnone fun g hg => others g (List.mem_append_right front hg)
  rw [List.reverse_append, List.reverse_cons, List.find?_append, List.find?_append, hfront, hback, Option.none_or,
    Option.or_none]
  by_cases hname : f.name = q <;> simp [hname]

/-- What a lookup finds in zeroed memory of a field that is there once. -/
theorem lookup_once (fits : ∀ g ∈ http.fields, g.raw ≠ [] ∧ g.raw.length ≤ 256) (fields : http.fields = front ++ f :: back)
    (others : ∀ g ∈ front ++ back, g.name ≠ q) :
    (wsHeaderGet (table http.request past fun _ _ => 0) q).map HeaderEntry.value =
      if f.name = q then some f.raw.tail else none := by
  have short : ∀ g ∈ http.request.fields, g.Short := by
    intro g hg
    obtain ⟨h, hh, rfl⟩ := List.mem_map.mp hg
    exact ⟨h.nameShort, fits h hh⟩
  have hstrings : ∀ l ∈ http.request.lines, stringsOf (l.1.stored ((fun _ _ => 0 : Nat → Mem) l.2)) = l.1.strings := fun l hl =>
    (strings_stored_iff (short l.1 (mem_linesFrom hl))).mpr ⟨rfl, rfl⟩
  have hreverse : http.request.fields.reverse = (front ++ f :: back).reverse.map HttpField.field := by
    rw [List.map_reverse, ← fields]
    rfl
  rw [table_eq past _ short, lookup_eq hstrings, Request.valueOf, hreverse, List.find?_map]
  have hfind := find?_once (f := f) others
  rw [show ((fun f : Field => f.name == q) ∘ HttpField.field) = fun g => g.name == q from rfl, hfind]
  split <;> rfl

/-- A field that is there once, whatever the case of its letters, is found under a spelling of its name if and only if
    that is the spelling it has, one byte stands in front of its value and none behind it, and the raw values of all
    fields have 1 to 256 bytes. -/
theorem finds_iff (fields : http.fields = front ++ f :: back) (once : ∀ g ∈ front ++ back, ¬SameName g.name f.name)
    (spelling : SameName q f.name) (past : Mem) :
    Finds http past q f ↔
      (∀ g ∈ http.fields, g.raw ≠ [] ∧ g.raw.length ≤ 256) ∧ q = f.name ∧ ∃ b, f.raw = b :: f.value := by
  have others : ∀ g ∈ front ++ back, g.name ≠ q := fun g hg hname => once g hg (hname ▸ spelling)
  have hmem : f ∈ http.fields := fields ▸ List.mem_append_right front List.mem_cons_self
  constructor
  · rintro ⟨inside, found⟩
    have fits := (inside_iff http past).mp inside
    rw [lookup_once fits fields others] at found
    split at found
    next hname =>
      refine ⟨fits, hname.symm, ?_⟩
      rw [← Option.some.inj found]
      exact ⟨_, (List.cons_head_tail (fits f hmem).1).symm⟩
    · cases found
  · rintro ⟨fits, rfl, b, hraw⟩
    refine ⟨(inside_iff http past).mpr fits, ?_⟩
    rw [lookup_once fits fields others, if_pos rfl, hraw]
    rfl

/-- The field `A` of value `b`. -/
def sampleHttpField (before : List UInt8) (blank : ∀ b ∈ before, IsBlank b) : HttpField where
  name := [65]
  before := before
  value := [98]
  after := []
  named := sampleHeader.named
  nameShort := sampleHeader.nameShort
  nameClean := sampleHeader.nameClean
  beforeBlank := blank
  afterBlank := List.forall_mem_nil _
  valueShort := sampleHeader.valueShort
  valueClean := sampleHeader.valueClean
  trimmed := by
    have letter : ¬IsBlank 98 := by rintro (h | h) <;> exact absurd h (by decide)
    refine ⟨fun b hb => ?_, fun b hb => ?_⟩ <;> exact Option.mem_some.mp hb ▸ letter

def sampleHttp (f : HttpField) : HttpRequest := ⟨[71], [f], samplePlain.startClean⟩

def spacedField : HttpField := sampleHttpField [' '.toUInt8] (List.forall_mem_singleton.mpr (Or.inl rfl))

theorem finds_iff_sample : Finds (sampleHttp spacedField) (fun _ => 0) [65] spacedField :=
  have fields : (sampleHttp spacedField).fields = [] ++ spacedField :: [] := rfl
  (finds_iff fields (List.forall_mem_nil _) rfl fun _ => 0).mpr ⟨by decide, rfl, _, rfl⟩

def tightField : HttpField := sampleHttpField [] (List.forall_mem_nil _)

/-- Of `A:b` the only byte of the value is skipped. -/
theorem tight_not_finds :
    (wsHeaderGet (table (sampleHttp tightField).request (fun _ => 0) fun _ _ => 0) [65]).map HeaderEntry.value = some [] ∧
    ¬Finds (sampleHttp tightField) (fun _ => 0) [65] tightField := by
  have hfound : (wsHeaderGet (table (sampleHttp tightField).request (fun _ => 0) fun _ _ => 0) [65]).map HeaderEntry.value =
      some [] := by decide +kernel
  refine ⟨hfound, fun finds => ?_⟩
  have h := finds.found
  rw [hfound] at h
  cases h

end Vcmp.Websockets
