import Vcmp.Lib.CString

/-! `lib/ini.c`: configurations, and the parser for their text.

A linked list is the list of its nodes; a pointer to a section is its index. `strdup` and the `malloc` of a node
succeed or fail together. -/

namespace Vcmp.Ini
open ByteMem CString

/-! ### Configurations -/

/-- `struct ini_keyval` -/
structure IniKeyval where
  name : List UInt8
  value : List UInt8

/-- `struct ini_section` -/
structure IniSection where
  name : List UInt8
  keyvals : List IniKeyval

/-- `struct ini_config` -/
structure IniConfig where
  sections : List IniSection
  globalKeyvals : List IniKeyval

/-- Whether the allocations succeed: that of the configuration, and those of a section and of a pair for each offset
    of the parser. -/
structure Mallocs where
  config : Bool
  section_ : Nat → Bool
  keyval : Nat → Bool

def newSection (malloc : Bool) (name : List UInt8) : Option IniSection := if malloc then some ⟨name, []⟩ else none

/-- The list and the new section in it. -/
def addSection (malloc : Bool) (root : List IniSection) (name : List UInt8) : List IniSection × Option Nat :=
  match newSection malloc name with
  | none => (root, none)
  | some new => (root ++ [new], some root.length)

def findOrCreateSection (malloc : Bool) (cfg : IniConfig) (name : List UInt8) : IniConfig × Option Nat :=
  if name = [] then (cfg, none)
  else
    match cfg.sections.findIdx? fun section_ => section_.name = name with
    | some i => (cfg, some i)
    | none =>
      let r := addSection malloc cfg.sections name
      ({ cfg with sections := r.1 }, r.2)

def findSection (cfg : IniConfig) (name : List UInt8) : Option IniSection :=
  if name = [] then none else cfg.sections.find? fun section_ => section_.name = name

def newKeyval (malloc : Bool) (name value : List UInt8) : Option IniKeyval :=
  if malloc then some ⟨name, value⟩ else none

def addKeyval (malloc : Bool) (root : List IniKeyval) (name value : List UInt8) : List IniKeyval :=
  root ++ (newKeyval malloc name value).toList

def assignKeyvalToSection (malloc : Bool) (section_ : IniSection) (name value : List UInt8) : IniSection :=
  if name = [] then section_ else { section_ with keyvals := addKeyval malloc section_.keyvals name value }

def assignKeyvalToRoot (malloc : Bool) (cfg : IniConfig) (name value : List UInt8) : IniConfig :=
  if name = [] then cfg else { cfg with globalKeyvals := addKeyval malloc cfg.globalKeyvals name value }

/-- A section that is `NULL` is `none`. -/
def assignKeyval (mallocSection mallocKeyval : Bool) (cfg : IniConfig) (section_ : Option (List UInt8))
    (name value : List UInt8) : IniConfig :=
  if name = [] then cfg
  else
    match section_ with
    | none => assignKeyvalToRoot mallocKeyval cfg name value
    | some sectionName =>
      match findOrCreateSection mallocSection cfg sectionName with
      | (cfg, none) => cfg
      | (cfg, some i) =>
        { cfg with sections := cfg.sections.modify i fun sec => assignKeyvalToSection mallocKeyval sec name value }

def iniCreate (malloc : Bool) : Option IniConfig := if malloc then some ⟨[], []⟩ else none

def iniGetValue (cfg : IniConfig) (section_ : Option (List UInt8)) (key : List UInt8) : Option (List UInt8) :=
  if key = [] then none
  else do
    let keyvals ←
      match section_ with
      | none => some cfg.globalKeyvals
      | some sectionName => (findSection cfg sectionName).map IniSection.keyvals
    let keyval ← keyvals.find? fun keyval => keyval.name = key
    return keyval.value

/-! ### The parser -/

inductive ParserState where
  | readyForData
  | comment
  | sectionName
  | key
  | value
  deriving DecidableEq

/-- Why there is no configuration: `goto fail`, or the loops took more turns than allowed. -/
inductive Stop where
  | fail
  | fuel
  deriving DecidableEq

abbrev Parse := ExceptT Stop Prog

/-- The memory behind each of the arrays on the stack. Each array has its own: what is stored past the end of one changes no other
array, nor anything else. -/
structure Stack where
  tmp : Mem
  currentSection : Mem
  currentKey : Mem
  currentValue : Mem

/-- `char buf[256] = {0}` -/
def zeros (behind : Mem) : Mem := ofBytes (List.replicate 256 0) behind

/-- What the loop over the buffer keeps; `tmp` with the offsets that were written. -/
structure Parser where
  state : ParserState
  bufp : Nat
  tmp : State
  currentSection : Mem
  currentKey : Mem
  currentValue : Mem
  cfg : IniConfig

/-- `while (!stop(*bufp) && i != limit) { if (fails(*bufp)) goto fail; tmp[i++] = *bufp++; }` -/
def fill (stop : UInt8 → Bool) (limit : Option Nat) (fails : UInt8 → Bool) : Nat → Nat → Nat → State → Parse (Nat × State)
  | 0, _, _, _ => throw .fuel
  | fuel + 1, bufp, i, tmp => do
    let b ← load bufp
    if stop b ∨ limit = some i then return (bufp, tmp)
    else if fails b then throw .fail
    else fill stop limit fails fuel (bufp + 1) (i + 1) ((store i b).run tmp).2

/-- `while (!stop(*bufp)) { if (fails(*bufp)) goto fail; bufp++; }` -/
def skip (stop : UInt8 → Bool) (fails : UInt8 → Bool) : Nat → Nat → Parse Nat
  | 0, _ => throw .fuel
  | fuel + 1, bufp => do
    let b ← load bufp
    if stop b then return bufp
    else if fails b then throw .fail
    else skip stop fails fuel (bufp + 1)

def endsLine (b : UInt8) : Bool := b = 0 ∨ b = '\n'.toUInt8

/-- `memcpy(dest, tmp, 256 * sizeof(char))` -/
def copyTmp (tmp : State) (dest : Mem) : Mem := put dest 0 (slice tmp.mem 0 256)

/-- `memset(&tmp, 0, 256)` -/
def clearTmp (tmp : State) : State := ((storeBytes 0 (List.replicate 256 0)).run tmp).2

/-- `case READY_FOR_DATA` -/
def readyForData (p : Parser) : Parse Parser := do
  let b ← load p.bufp
  if b = '#'.toUInt8 ∨ b = ';'.toUInt8 then return { p with state := .comment }
  else if b = '['.toUInt8 then return { p with state := .sectionName }
  else if b ≠ '\n'.toUInt8 ∧ b ≠ ' '.toUInt8 then return { p with state := .key }
  else return p

/-- `case COMMENT` -/
def comment (fuel : Nat) (p : Parser) : Parse Parser := do
  let bufp ← skip (fun b => b = '\r'.toUInt8 ∨ b = '\n'.toUInt8 ∨ b = '\t'.toUInt8 ∨ b = 0) (fun _ => false) fuel p.bufp
  return { p with state := .readyForData, bufp }

/-- `case SECTION_NAME` -/
def sectionName (fuel : Nat) (p : Parser) : Parse Parser := do
  let (bufp, tmp) ← fill (· = ']'.toUInt8) (some 255) endsLine fuel p.bufp 0 p.tmp
  return { p with state := .readyForData, bufp, tmp := clearTmp tmp, currentSection := copyTmp tmp p.currentSection }

/-- `case KEY`: the last turn of the loop is taken back first. -/
def key (fuel : Nat) (p : Parser) : Parse Parser := do
  let (bufp, tmp) ← fill (fun b => b = ' '.toUInt8 ∨ b = '\t'.toUInt8 ∨ b = '='.toUInt8) (some 256) endsLine fuel
    (p.bufp - 1) 0 p.tmp
  let bufp ← skip (· = '='.toUInt8) endsLine fuel bufp
  return { p with state := .value, bufp, tmp := clearTmp tmp, currentKey := copyTmp tmp p.currentKey }

/-- `(current_section[0] == '\0') ? NULL : current_section` -/
def sectionArg (currentSection : Mem) : Option (List UInt8) :=
  if currentSection 0 = 0 then none else some (cstr currentSection 0 addressSpace)

/-- `case VALUE` -/
def value (mallocs : Mallocs) (fuel : Nat) (p : Parser) : Parse Parser := do
  let bufp ← skip (fun b => ¬(b = ' '.toUInt8 ∨ b = '\t'.toUInt8)) (fun _ => false) fuel p.bufp
  let (bufp, tmp) ← fill endsLine none (fun _ => false) fuel bufp 0 p.tmp
  let currentValue := copyTmp tmp p.currentValue
  let cfg := assignKeyval (mallocs.section_ p.bufp) (mallocs.keyval p.bufp) p.cfg (sectionArg p.currentSection)
    (cstr p.currentKey 0 addressSpace) (cstr currentValue 0 addressSpace)
  return { p with state := .readyForData, bufp, tmp := clearTmp tmp, currentValue, cfg }

/-- `switch (state)` -/
def parseCase (mallocs : Mallocs) (fuel : Nat) (p : Parser) : Parse Parser :=
  match p.state with
  | .readyForData => readyForData p
  | .comment => comment fuel p
  | .sectionName => sectionName fuel p
  | .key => key fuel p
  | .value => value mallocs fuel p

/-- `while (*bufp != '\0')` -/
def parseLoop (mallocs : Mallocs) : Nat → Parser → Parse IniConfig
  | 0, _ => throw .fuel
  | fuel + 1, p => do
    if (← load p.bufp) = 0 then return p.cfg
    else
      let p ← parseCase mallocs fuel p
      parseLoop mallocs fuel { p with bufp := p.bufp + 1 }

/-- `ini_parsebuf(buf)` for the buffer at the pointer; it returns `NULL` where it fails. -/
def iniParsebuf (stack : Stack) (mallocs : Mallocs) (fuel : Nat) : Parse IniConfig := do
  if (← load 0) = 0 then throw .fail
  else
    match iniCreate mallocs.config with
    | none => throw .fail
    | some cfg =>
      parseLoop mallocs fuel ⟨.readyForData, 0, ⟨zeros stack.tmp, []⟩, zeros stack.currentSection, zeros stack.currentKey,
        zeros stack.currentValue, cfg⟩

/-! ### Files -/

/-- `fread(buf, size, 1, file) == 1` for the size of the file; nothing is read of an empty one. -/
def fread (content : List UInt8) : Prog Bool := do
  storeBytes 0 content
  return content ≠ []

/-- `ini_parse(filepath)`: `fopen` gives the content of a file, and the memory is that at the block for it. -/
def iniParse (fopen : List UInt8 → Option (List UInt8)) (malloc : Bool) (stack : Stack) (mallocs : Mallocs) (fuel : Nat)
    (filepath : Option (List UInt8)) : Parse IniConfig :=
  match filepath with
  | none | some [] => throw .fail
  | some filepath =>
    match fopen filepath with
    | none => throw .fail
    | some content =>
      if ¬malloc then throw .fail
      else do
        if ← fread content then iniParsebuf stack mallocs fuel
        else throw .fail

/-! ### The dump -/

/-- `"%s = %s"` -/
def IniKeyval.message (keyval : IniKeyval) : List UInt8 :=
  keyval.name ++ (' '.toUInt8 :: '='.toUInt8 :: ' '.toUInt8 :: keyval.value)

/-- `"[%s]"`, and the pairs behind it. -/
def IniSection.messages (sec : IniSection) : List (List UInt8) :=
  ('['.toUInt8 :: (sec.name ++ [']'.toUInt8])) :: sec.keyvals.map IniKeyval.message

def dumpHeading : List UInt8 := "Dumping configuration:".toList.map Char.toUInt8

def dumpRule : List UInt8 := "======================".toList.map Char.toUInt8

def globalHeading : List UInt8 := "(Global)".toList.map Char.toUInt8

/-- The messages that `ini_dump_config(cfg)` logs. -/
def iniDumpConfig (cfg : Option IniConfig) : List (List UInt8) :=
  match cfg with
  | none => []
  | some cfg =>
    [dumpHeading, dumpRule] ++
      ((if cfg.globalKeyvals.isEmpty then [] else globalHeading :: cfg.globalKeyvals.map IniKeyval.message) ++
        cfg.sections.flatMap IniSection.messages)

end Vcmp.Ini
