import Mathlib.Data.List.Find
import Vcmp.Theorems.Handshake

/-! Lookups in the list of the parsed headers, against the fields of the request. -/

namespace Vcmp.Websockets
open ByteMem CInt CString

variable {f : Field} {request : Request} {block : Mem} {past : Mem} {blocks : Nat → Mem} {lines : List (Field × Nat)}
  {key : List UInt8}

/-! ### The table -/

/-- Short enough for an entry: both copies stay in their fields. -/
def Field.Short (f : Field) : Prop := f.name.length ≤ 255 ∧ f.value ≠ [] ∧ f.value.length ≤ 256

/-- The block holds zeros where the copied name and the copied value of the field end. -/
def Field.Cleared (f : Field) (block : Mem) : Prop :=
  block f.name.length = 0 ∧ block (offsetValue + f.value.tail.length) = 0

/-- The two strings of an entry. -/
def stringsOf (e : HeaderEntry) : List UInt8 × List UInt8 := (e.key, e.value)

def Field.strings (f : Field) : List UInt8 × List UInt8 := (f.name, f.value.tail)

theorem strings_stored_iff (short : f.Short) : stringsOf (f.stored block) = f.strings ↔ f.Cleared block := by
  obtain ⟨hname, -, hvalue⟩ := short
  have hlong : 256 < addressSpace := by decide
  have htail : f.value.tail.length ≤ f.value.length := by
    rw [List.length_tail]
    omega
  have hoffset : offsetValue = 256 := rfl
  rw [stringsOf, Field.strings, Prod.mk.injEq, key_stored_iff (by omega), value_stored_iff (by omega) (by omega)]
  rfl

/-- The entries of all lines, the latest first. -/
def stores (blocks : Nat → Mem) (lines : List (Field × Nat)) : List HeaderEntry :=
  (lines.map fun l => l.1.stored (blocks l.2)).reverse

theorem storeLines_some_all (blocks : Nat → Mem) (head : List HeaderEntry) (lines : List (Field × Nat)) :
    storeLines (fun i => some (blocks i)) head lines = stores blocks lines ++ head := by
  induction lines generalizing head with
  | nil => rfl
  | cons l lines ih =>
    rw [storeLines_some rfl, ih, stores, stores, List.map_cons, List.reverse_cons, List.append_assoc]
    rfl

theorem map_fst_linesFrom (i : Nat) (fields : List Field) : (linesFrom i fields).map Prod.fst = fields := by
  induction fields generalizing i with
  | nil => rfl
  | cons f fields ih => rw [linesFrom, List.map_cons, ih]

/-- The table that the parser makes of a request in these blocks. -/
def table (request : Request) (past : Mem) (blocks : Nat → Mem) : List HeaderEntry :=
  ((wsParseHandshake (fun i => some (blocks i)) request.bytes.length).run { mem := ofBytes request.bytes past }).1

theorem Field.Short.line (short : f.Short) : f.line.length < 2 ^ 31 := by
  have hlength := f.length_line
  have hname := short.1
  have hvalue := short.2.2
  omega

theorem table_eq (past : Mem) (blocks : Nat → Mem) (short : ∀ f ∈ request.fields, f.Short) :
    table request past blocks = stores blocks request.lines := by
  rw [table, run_wsParseHandshake slice_ofBytes_self (fun f hf => (short f hf).line) fun f hf => (short f hf).2.1,
    storeLines_some_all, List.append_nil]

/-- The value of the last field with a name, without its first byte. -/
def Request.valueOf (request : Request) (key : List UInt8) : Option (List UInt8) :=
  (request.fields.reverse.find? fun f => f.name == key).map fun f => f.value.tail

/-- Where each entry holds the strings of its field, a lookup finds the last field of the name. -/
theorem lookup_eq (h : ∀ l ∈ request.lines, stringsOf (l.1.stored (blocks l.2)) = l.1.strings) (key : List UInt8) :
    (wsHeaderGet (stores blocks request.lines) key).map HeaderEntry.value = request.valueOf key := by
  have hfields : request.fields.reverse = request.lines.reverse.map Prod.fst := by
    rw [List.map_reverse, Request.lines, map_fst_linesFrom]
  have hstores : stores blocks request.lines = request.lines.reverse.map fun l => l.1.stored (blocks l.2) := by
    rw [stores, List.map_reverse]
  have hfind : request.lines.reverse.find? ((fun e => e.key == key) ∘ fun l => l.1.stored (blocks l.2)) =
      request.lines.reverse.find? ((fun f => f.name == key) ∘ Prod.fst) := by
    refine List.find?_congr fun l hl => ?_
    have hkey : (l.1.stored (blocks l.2)).key = l.1.name := congrArg Prod.fst (h l (List.mem_reverse.mp hl))
    simp only [Function.comp_apply, hkey]
  rw [wsHeaderGet, hstores, Request.valueOf, hfields, List.find?_map, List.find?_map, hfind]
  cases hl : request.lines.reverse.find? ((fun f => f.name == key) ∘ Prod.fst) with
  | none => rfl
  | some l => exact congrArg (fun strings => some strings.2) (h l (List.mem_reverse.mp (List.mem_of_find?_eq_some hl)))

/-! ### Plain requests -/

theorem Header.short (h : Header) : h.field.Short := by
  have hvalue := h.valueShort
  exact ⟨h.nameShort, List.cons_ne_nil _ _, by simp [Header.field]; omega⟩

theorem PlainRequest.valueOf_eq (plain : PlainRequest) (key : List UInt8) : plain.request.valueOf key = plain.valueOf key := by
  have hfields : plain.request.fields.reverse = plain.headers.reverse.map Header.field := List.map_reverse.symm
  rw [Request.valueOf, PlainRequest.valueOf, hfields, List.find?_map, Option.map_map]
  rfl

/-- `A: b` -/
def sampleHeader : Header := ⟨[65], [98], by decide, by decide, by decide +kernel, by decide, by decide +kernel⟩

def samplePlain : PlainRequest := ⟨[71], [sampleHeader], by decide⟩

end Vcmp.Websockets
