import Vcmp.IniText
import Vcmp.Lib.Lts

/-! Configurations read byte by byte: what a reader needs to know of the text in front of it, and what it has
    read. A zero is read like the end of a line. -/

namespace Vcmp.Ini
open ByteMem CString

/-- Where a reader is. It is between two bytes that belong together in the places from `comment` on; the names, keys
    and values it is in are kept as far as they were read. -/
inductive Place where
  | ready
  | hash
  | bracket
  | began (first : UInt8)
  | equals (key : List UInt8)
  | comment
  | name (token : List UInt8)
  | key (token : List UInt8)
  | gap (key : List UInt8)
  | lead (key : List UInt8)
  | value (key token : List UInt8)
  deriving DecidableEq

/-- What was read to its end. -/
inductive Entry where
  | header (name : List UInt8)
  | pair (key value : List UInt8)
  deriving DecidableEq

structure Reader where
  place : Place
  entries : List Entry
  deriving DecidableEq

namespace Reader
variable (r : Reader) (b : UInt8)

def goTo (place : Place) : Reader := { r with place }

def enter (entry : Entry) : Reader := ⟨.ready, r.entries ++ [entry]⟩

def stepReady : Reader :=
  if b = '#'.toUInt8 ∨ b = ';'.toUInt8 then r.goTo .hash
  else if b = '['.toUInt8 then r.goTo .bracket
  else if b ≠ '\n'.toUInt8 ∧ b ≠ ' '.toUInt8 then r.goTo (.began b)
  else r.goTo .ready

def stepComment : Reader :=
  if b = '\r'.toUInt8 ∨ b = '\n'.toUInt8 ∨ b = '\t'.toUInt8 ∨ b = 0 then r.goTo .ready else r.goTo .comment

def stepName (token : List UInt8) : Option Reader :=
  if b = ']'.toUInt8 ∨ token.length = 255 then some (r.enter (.header token))
  else if endsLine b then none
  else some (r.goTo (.name (token ++ [b])))

def stepGap (key : List UInt8) : Option Reader :=
  if b = '='.toUInt8 then some (r.goTo (.equals key))
  else if endsLine b then none
  else some (r.goTo (.gap key))

def stepKey (token : List UInt8) : Option Reader :=
  if (b = ' '.toUInt8 ∨ b = '\t'.toUInt8 ∨ b = '='.toUInt8) ∨ token.length = 256 then r.stepGap b token
  else if endsLine b then none
  else some (r.goTo (.key (token ++ [b])))

def stepValue (key token : List UInt8) : Reader :=
  if endsLine b then r.enter (.pair key token) else r.goTo (.value key (token ++ [b]))

def stepLead (key : List UInt8) : Reader :=
  if b = ' '.toUInt8 ∨ b = '\t'.toUInt8 then r.goTo (.lead key) else r.stepValue b key []

/-- The step in each place but the one that is left with two bytes. -/
def stepOne : Option Reader :=
  match r.place with
  | .ready => some (r.stepReady b)
  | .hash | .comment => some (r.stepComment b)
  | .bracket => r.stepName b []
  | .name token => r.stepName b token
  | .began _ => none
  | .key token => r.stepKey b token
  | .gap key => r.stepGap b key
  | .equals key | .lead key => some (r.stepLead b key)
  | .value key token => some (r.stepValue b key token)

/-- The reader after a byte, if the text is not refused there. -/
def step : Option Reader :=
  match r.place with
  | .began first => (r.stepKey first []).bind fun r => r.stepOne b
  | _ => r.stepOne b

section Steps
variable (entries : List Entry) (first : UInt8) (token key : List UInt8)

@[simp] theorem step_ready : step ⟨.ready, entries⟩ b = some (stepReady ⟨.ready, entries⟩ b) := rfl

@[simp] theorem step_hash : step ⟨.hash, entries⟩ b = some (stepComment ⟨.hash, entries⟩ b) := rfl

@[simp] theorem step_comment : step ⟨.comment, entries⟩ b = some (stepComment ⟨.comment, entries⟩ b) := rfl

@[simp] theorem step_bracket : step ⟨.bracket, entries⟩ b = stepName ⟨.bracket, entries⟩ b [] := rfl

@[simp] theorem step_name : step ⟨.name token, entries⟩ b = stepName ⟨.name token, entries⟩ b token := rfl

@[simp] theorem step_began : step ⟨.began first, entries⟩ b = (stepKey ⟨.began first, entries⟩ first []).bind fun r => r.stepOne b := rfl

@[simp] theorem step_key : step ⟨.key token, entries⟩ b = stepKey ⟨.key token, entries⟩ b token := rfl

@[simp] theorem step_gap : step ⟨.gap key, entries⟩ b = stepGap ⟨.gap key, entries⟩ b key := rfl

@[simp] theorem step_equals : step ⟨.equals key, entries⟩ b = some (stepLead ⟨.equals key, entries⟩ b key) := rfl

@[simp] theorem step_lead : step ⟨.lead key, entries⟩ b = some (stepLead ⟨.lead key, entries⟩ b key) := rfl

@[simp] theorem step_value : step ⟨.value key token, entries⟩ b = some (stepValue ⟨.value key token, entries⟩ b key token) := rfl

end Steps

end Reader

def start : Reader := ⟨.ready, []⟩

/-- The reader behind some bytes, if none of them is refused. -/
abbrev readAll (bytes : List UInt8) : Option Reader := Lts.run Reader.step start bytes

/-- The text can end here. -/
def Place.atTurn : Place → Bool
  | .ready | .hash | .bracket | .began _ | .equals _ => true
  | .comment | .name _ | .key _ | .gap _ | .lead _ | .value _ _ => false

/-- The text ends in a comment, in a section name that fills its array, or in a value. -/
def Place.runsOver : Place → Bool
  | .comment | .lead _ | .value _ _ => true
  | .name token => token.length = 255
  | .ready | .hash | .bracket | .began _ | .equals _ | .key _ | .gap _ => false

def Text.runsOver (text : Text) : Bool := (readAll text.bytes).any fun r => r.place.runsOver

/-! ### Configurations -/

/-- What a string is that was copied to an array of 256 bytes with the memory `behind` it. -/
def held (behind : Mem) (token : List UInt8) : List UInt8 :=
  if token.length < 256 then token else token.take 256 ++ cstr behind 0 (addressSpace - 256)

/-- The current section and the configuration after an entry. -/
def Entry.apply (stack : Stack) (s : Option (List UInt8) × IniConfig) : Entry → Option (List UInt8) × IniConfig
  | .header name => (if name = [] then none else some name, s.2)
  | .pair key value => (s.1, assignKeyval true true s.2 s.1 (held stack.currentKey key) (held stack.currentValue value))

def stored (stack : Stack) (entries : List Entry) : Option (List UInt8) × IniConfig :=
  entries.foldl (Entry.apply stack) (none, ⟨[], []⟩)

end Vcmp.Ini
