import Vcmp.Websockets.Handshake

/-! Upgrade requests as they go over the wire, and where the header scanner stores their fields. -/

namespace Vcmp.Websockets
open ByteMem CString

/-- A header field: its name, and all that stands between the colon and the end of its line. -/
structure Field where
  name : List UInt8
  value : List UInt8
  named : name ≠ []
  nameClean : ∀ b ∈ name, b ≠ ':'.toUInt8 ∧ b ≠ '\r'.toUInt8 ∧ b ≠ '\n'.toUInt8 ∧ b ≠ 0
  valueClean : ∀ b ∈ value, b ≠ '\r'.toUInt8 ∧ b ≠ '\n'.toUInt8 ∧ b ≠ 0

def Field.line (f : Field) : List UInt8 := f.name ++ ':'.toUInt8 :: (f.value ++ ['\r'.toUInt8])

/-- A start line, fields and the empty line. -/
structure Request where
  startLine : List UInt8
  fields : List Field
  startClean : '\n'.toUInt8 ∉ startLine

def fieldsBytes (fields : List Field) : List UInt8 := fields.flatMap fun f => f.line ++ ['\n'.toUInt8]

def Request.bytes (request : Request) : List UInt8 :=
  request.startLine ++ ['\r'.toUInt8, '\n'.toUInt8] ++ (fieldsBytes request.fields ++ ['\r'.toUInt8, '\n'.toUInt8])

/-- The fields of a request from offset `i` on, each with the offset of its line feed. -/
def linesFrom (i : Nat) : List Field → List (Field × Nat)
  | [] => []
  | f :: fields => (f, i + f.line.length) :: linesFrom (i + f.line.length + 1) fields

def Request.lines (request : Request) : List (Field × Nat) :=
  linesFrom (request.startLine.length + 2) request.fields

/-- The entry of a field: the byte behind the colon is skipped, and nothing ends the two strings. -/
def Field.stored (f : Field) (block : Mem) : HeaderEntry :=
  ⟨strncpy (strncpy block 0 f.name f.name.length) offsetValue f.value.tail f.value.tail.length⟩

/-- The entries of lines whose blocks are allocated by `malloc`, in front of those of `head`; none at all where
    an allocation fails. -/
def storeLines (malloc : Nat → Option Mem) (head : List HeaderEntry) : List (Field × Nat) → List HeaderEntry
  | [] => head
  | l :: lines =>
    match malloc l.2 with
    | none => []
    | some block => storeLines malloc (l.1.stored block :: head) lines

/-! ### Fields as browsers write them -/

/-- `name: value`, neither of them longer than an entry holds. -/
structure Header where
  name : List UInt8
  value : List UInt8
  named : name ≠ []
  nameShort : name.length ≤ 255
  nameClean : ∀ b ∈ name, b ≠ ':'.toUInt8 ∧ b ≠ '\r'.toUInt8 ∧ b ≠ '\n'.toUInt8 ∧ b ≠ 0
  valueShort : value.length ≤ 255
  valueClean : ∀ b ∈ value, b ≠ '\r'.toUInt8 ∧ b ≠ '\n'.toUInt8 ∧ b ≠ 0

def Header.field (h : Header) : Field where
  name := h.name
  value := ' '.toUInt8 :: h.value
  named := h.named
  nameClean := h.nameClean
  valueClean := List.forall_mem_cons.mpr ⟨by decide, h.valueClean⟩

/-- A start line and headers. -/
structure PlainRequest where
  startLine : List UInt8
  headers : List Header
  startClean : '\n'.toUInt8 ∉ startLine

def PlainRequest.request (plain : PlainRequest) : Request where
  startLine := plain.startLine
  fields := plain.headers.map Header.field
  startClean := plain.startClean

/-- The value of the last header with a name. -/
def PlainRequest.valueOf (plain : PlainRequest) (key : List UInt8) : Option (List UInt8) :=
  (plain.headers.reverse.find? fun h => h.name == key).map Header.value

end Vcmp.Websockets
