import Vcmp.Websockets.Request

/-! Header fields as HTTP/1.1 has them. Nothing here is read off the parser. -/

namespace Vcmp.Websockets

def IsBlank (b : UInt8) : Prop := b = ' '.toUInt8 ∨ b = '\t'.toUInt8

/-- A field: any number of blanks, none included, stand in front of its value and behind it. -/
structure HttpField where
  name : List UInt8
  before : List UInt8
  value : List UInt8
  after : List UInt8
  named : name ≠ []
  nameShort : name.length ≤ 255
  nameClean : ∀ b ∈ name, b ≠ ':'.toUInt8 ∧ b ≠ '\r'.toUInt8 ∧ b ≠ '\n'.toUInt8 ∧ b ≠ 0
  beforeBlank : ∀ b ∈ before, IsBlank b
  afterBlank : ∀ b ∈ after, IsBlank b
  valueShort : value.length ≤ 255
  valueClean : ∀ b ∈ value, b ≠ '\r'.toUInt8 ∧ b ≠ '\n'.toUInt8 ∧ b ≠ 0
  trimmed : (∀ b ∈ value.head?, ¬IsBlank b) ∧ ∀ b ∈ value.getLast?, ¬IsBlank b

/-- All that stands between the colon and the end of the line. -/
def HttpField.raw (f : HttpField) : List UInt8 := f.before ++ f.value ++ f.after

theorem IsBlank.clean {b : UInt8} (h : IsBlank b) : b ≠ '\r'.toUInt8 ∧ b ≠ '\n'.toUInt8 ∧ b ≠ 0 := by
  rcases h with rfl | rfl <;> decide

def HttpField.field (f : HttpField) : Field where
  name := f.name
  value := f.raw
  named := f.named
  nameClean := f.nameClean
  valueClean := by
    intro b hb
    rcases List.mem_append.mp hb with hb | hb
    · rcases List.mem_append.mp hb with hb | hb
      · exact (f.beforeBlank b hb).clean
      · exact f.valueClean b hb
    · exact (f.afterBlank b hb).clean

/-- A start line and a block of fields. -/
structure HttpRequest where
  startLine : List UInt8
  fields : List HttpField
  startClean : '\n'.toUInt8 ∉ startLine

def HttpRequest.request (http : HttpRequest) : Request where
  startLine := http.startLine
  fields := http.fields.map HttpField.field
  startClean := http.startClean

/-- A letter of ASCII in lower case. -/
def lower (b : UInt8) : UInt8 := if 'A'.toUInt8 ≤ b ∧ b ≤ 'Z'.toUInt8 then b + 32 else b

/-- Names are compared without regard to the case of letters. -/
def SameName (a b : List UInt8) : Prop := a.map lower = b.map lower

end Vcmp.Websockets
