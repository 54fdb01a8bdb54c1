import Vcmp.Ini

/-! Configurations as text, and what is looked up in them. Nothing here is read off the parser. -/

namespace Vcmp.Ini
open ByteMem

/-! ### Texts -/

/-- What a string of C can hold. -/
structure Text where
  bytes : List UInt8
  zeroFree : 0 ∉ bytes

/-- The string with its zero, and the memory behind it. -/
def Text.buffer (text : Text) (past : Mem) : Mem := ofBytes (text.bytes ++ [0]) past

structure Line where
  bytes : List UInt8
  clean : ∀ b ∈ bytes, b ≠ '\n'.toUInt8 ∧ b ≠ 0

/-- Lines, each with a line feed behind it. -/
def linesText (lines : List Line) : Text where
  bytes := lines.flatMap fun line => line.bytes ++ ['\n'.toUInt8]
  zeroFree := by
    simp only [List.mem_flatMap, List.mem_append, List.mem_singleton, not_exists, not_and, not_or]
    exact fun line _ => ⟨fun hzero => (line.clean 0 hzero).2 rfl, by decide⟩

structure Comment where
  mark : UInt8
  body : List UInt8
  marked : mark = '#'.toUInt8 ∨ mark = ';'.toUInt8
  clean : ∀ b ∈ body, b ≠ '\n'.toUInt8 ∧ b ≠ 0

def Comment.line (comment : Comment) : Line where
  bytes := comment.mark :: comment.body
  clean b hb := by
    rcases List.mem_cons.mp hb with rfl | hb
    · rcases comment.marked with h | h <;> rw [h] <;> decide
    · exact comment.clean b hb

def Line.withReturn (line : Line) : Line where
  bytes := line.bytes ++ ['\r'.toUInt8]
  clean b hb := by
    rcases List.mem_append.mp hb with hb | hb
    · exact line.clean b hb
    · rw [List.mem_singleton.mp hb]
      decide

/-- Lines without carriage returns, the last of them not empty. -/
structure PlainText where
  init : List Line
  last : Line
  noReturn : ∀ line ∈ init ++ [last], '\r'.toUInt8 ∉ line.bytes
  nonempty : last.bytes ≠ []

namespace PlainText
variable (text : PlainText)

def lines : List Line := text.init ++ [text.last]

/-- The text with a line feed behind each line. -/
def lf : Text := linesText text.lines

/-- The text with a carriage return and a line feed behind each line. -/
def crlf : Text := linesText (text.lines.map Line.withReturn)

/-- The text without its last line feed. -/
def unended : Text where
  bytes := (linesText text.init).bytes ++ text.last.bytes
  zeroFree := by
    rw [List.mem_append, not_or]
    exact ⟨(linesText text.init).zeroFree, fun hzero => (text.last.clean 0 hzero).2 rfl⟩

end PlainText

/-! ### Documents -/

/-- A key and its value; the value does not begin with what is skipped in front of it. -/
structure Pair where
  key : List UInt8
  value : List UInt8
  named : key ≠ []
  keyShort : key.length ≤ 255
  keyClean : ∀ b ∈ key, b ≠ ' '.toUInt8 ∧ b ≠ '\t'.toUInt8 ∧ b ≠ '='.toUInt8 ∧ b ≠ '\n'.toUInt8 ∧ b ≠ 0
  keyHead : ∀ b ∈ key.head?, b ≠ '#'.toUInt8 ∧ b ≠ ';'.toUInt8 ∧ b ≠ '['.toUInt8
  valueShort : value.length ≤ 255
  valueClean : ∀ b ∈ value, b ≠ '\n'.toUInt8 ∧ b ≠ 0
  valueHead : ∀ b ∈ value.head?, b ≠ ' '.toUInt8 ∧ b ≠ '\t'.toUInt8

/-- `key = value` -/
def Pair.line (pair : Pair) : List UInt8 :=
  pair.key ++ (' '.toUInt8 :: '='.toUInt8 :: ' '.toUInt8 :: (pair.value ++ ['\n'.toUInt8]))

structure NamedSection where
  name : List UInt8
  pairs : List Pair
  named : name ≠ []
  short : name.length ≤ 255
  clean : ∀ b ∈ name, b ≠ ']'.toUInt8 ∧ b ≠ '\n'.toUInt8 ∧ b ≠ 0

/-- `[name]` -/
def NamedSection.header (section_ : NamedSection) : List UInt8 :=
  '['.toUInt8 :: (section_.name ++ [']'.toUInt8, '\n'.toUInt8])

def NamedSection.text (section_ : NamedSection) : List UInt8 := section_.header ++ section_.pairs.flatMap Pair.line

/-- Global pairs and then sections; names and keys may repeat. -/
structure Document where
  globals : List Pair
  sections : List NamedSection

def Document.text (doc : Document) : List UInt8 :=
  doc.globals.flatMap Pair.line ++ doc.sections.flatMap NamedSection.text

/-- All pairs under a section name in their order, the global ones under none. -/
def Document.pairsUnder (doc : Document) : Option (List UInt8) → List Pair
  | none => doc.globals
  | some name => (doc.sections.filter fun section_ => section_.name = name).flatMap NamedSection.pairs

/-- The value of the first pair with a key. -/
def valueOf (pairs : List Pair) (key : List UInt8) : Option (List UInt8) :=
  (pairs.find? fun pair => pair.key = key).map Pair.value

end Vcmp.Ini
