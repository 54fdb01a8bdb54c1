import Vcmp.Ini
import Vcmp.Lib.Ledger

/-! The configurations of `lib/ini.c` as they lie in memory: strings, and linked lists of pairs and of sections. A string that is
passed to a function is its bytes; `NULL` is `none`. -/

namespace Vcmp.IniHeap
open Ledger

variable {P : Type}

/-- A block: a string, `struct ini_keyval`, `struct ini_section` or `struct ini_config`. -/
inductive Cell (P : Type) where
  | string (bytes : List UInt8)
  | keyval (name value next : Option P)
  | sec (name keyvals next : Option P)
  | config (sections globalKeyvals : Option P)
  deriving DecidableEq

/-! ### The fields that hold a list -/

/-- `&cfg->sections` -/
def sectionsSlot (cfg : P) : Slot P (Cell P) where
  block := cfg
  get
    | .config sections _ => some sections
    | _ => none
  set c q :=
    match c with
    | .config _ globalKeyvals => .config q globalKeyvals
    | c => c
  set_get c q h := by
    cases c <;> cases h
    rfl

/-- `&cfg->global_keyvals` -/
def globalKeyvalsSlot (cfg : P) : Slot P (Cell P) where
  block := cfg
  get
    | .config _ globalKeyvals => some globalKeyvals
    | _ => none
  set c q :=
    match c with
    | .config sections _ => .config sections q
    | c => c
  set_get c q h := by
    cases c <;> cases h
    rfl

/-- `&section->keyvals` -/
def keyvalsSlot (sec : P) : Slot P (Cell P) where
  block := sec
  get
    | .sec _ keyvals _ => some keyvals
    | _ => none
  set c q :=
    match c with
    | .sec name _ next => .sec name q next
    | c => c
  set_get c q h := by
    cases c <;> cases h
    rfl

/-- `&section->next` -/
def nextSectionSlot (sec : P) : Slot P (Cell P) where
  block := sec
  get
    | .sec _ _ next => some next
    | _ => none
  set c q :=
    match c with
    | .sec name keyvals _ => .sec name keyvals q
    | c => c
  set_get c q h := by
    cases c <;> cases h
    rfl

/-- `&keyval->next` -/
def nextKeyvalSlot (keyval : P) : Slot P (Cell P) where
  block := keyval
  get
    | .keyval _ _ next => some next
    | _ => none
  set c q :=
    match c with
    | .keyval name value _ => .keyval name value q
    | c => c
  set_get c q h := by
    cases c <;> cases h
    rfl

/-! ### Strings -/

def loadString (p : Option P) : HeapM P (Cell P) (List UInt8) := do
  match ← load p with
  | .string bytes => return bytes
  | _ => throw .dangling

/-- `strcmp(p, name) == 0` -/
def strcmpEq (p : Option P) (name : List UInt8) : HeapM P (Cell P) Bool := do return (← loadString p) = name

section Functions
variable [DecidableEq P] (A : Allocator P (Cell P)) (fuel : Nat)

def strdup (bytes : List UInt8) : HeapM P (Cell P) (Option P) := malloc A (.string bytes)

/-! ### Sections and pairs -/

def newSection (name : List UInt8) : HeapM P (Cell P) (Option P) := do
  match ← malloc A (.sec none none none) with
  | none => return none
  | some new =>
    store new (.sec (← strdup A name) none none)
    return some new

def addSection (root : Slot P (Cell P)) (name : List UInt8) : HeapM P (Cell P) (Option P) := do
  let curSection ← lastSlot nextSectionSlot fuel root
  let new ← newSection A name
  curSection.write new
  return new

/-- The loop over the sections: the first one of the name. -/
def sectionFrom : Nat → Option P → List UInt8 → HeapM P (Cell P) (Option P)
  | 0, _, _ => throw .fuel
  | fuel + 1, curSection, name =>
    match curSection with
    | none => return none
    | some p => do
      match ← load (some p) with
      | .sec curName _ next =>
        if ← strcmpEq curName name then return some p
        else sectionFrom fuel next name
      | _ => throw .dangling

def findOrCreateSection (cfg : Option P) (name : List UInt8) : HeapM P (Cell P) (Option P) :=
  match cfg with
  | none => return none
  | some cfg =>
    if name = [] then return none
    else do
      match ← sectionFrom fuel (← (sectionsSlot cfg).read) name with
      | some p => return some p
      | none => addSection A fuel (sectionsSlot cfg) name

def findSection (cfg : Option P) (name : List UInt8) : HeapM P (Cell P) (Option P) :=
  match cfg with
  | none => return none
  | some cfg =>
    if name = [] then return none
    else do sectionFrom fuel (← (sectionsSlot cfg).read) name

def newKeyval (name value : List UInt8) : HeapM P (Cell P) (Option P) := do
  match ← malloc A (.keyval none none none) with
  | none => return none
  | some new =>
    let newName ← strdup A name
    let newValue ← strdup A value
    store new (.keyval newName newValue none)
    return some new

def addKeyval (root : Slot P (Cell P)) (name value : List UInt8) : HeapM P (Cell P) Unit := do
  let curKeyval ← lastSlot nextKeyvalSlot fuel root
  curKeyval.write (← newKeyval A name value)

def assignKeyvalToSection (sec : Option P) (name value : List UInt8) : HeapM P (Cell P) Unit :=
  match sec with
  | none => return
  | some sec => if name = [] then return else addKeyval A fuel (keyvalsSlot sec) name value

def assignKeyvalToRoot (cfg : Option P) (name value : List UInt8) : HeapM P (Cell P) Unit :=
  match cfg with
  | none => return
  | some cfg => if name = [] then return else addKeyval A fuel (globalKeyvalsSlot cfg) name value

def assignKeyval (cfg : Option P) (sec : Option (List UInt8)) (name value : List UInt8) : HeapM P (Cell P) Unit :=
  if cfg.isNone then return
  else if name = [] then return
  else
    match sec with
    | none => assignKeyvalToRoot A fuel cfg name value
    | some sectionName => do
      match ← findOrCreateSection A fuel cfg sectionName with
      | none => return
      | some sec => assignKeyvalToSection A fuel (some sec) name value

/-! ### Configurations -/

def iniCreate : HeapM P (Cell P) (Option P) := malloc A (.config none none)

/-- The loop over the pairs of a list: the copy of the value of the first one of the name. -/
def valueFrom : Nat → Option P → List UInt8 → HeapM P (Cell P) (Option P)
  | 0, _, _ => throw .fuel
  | fuel + 1, curKeyval, key =>
    match curKeyval with
    | none => return none
    | some p => do
      match ← load (some p) with
      | .keyval name value next =>
        if ← strcmpEq name key then strdup A (← loadString value)
        else valueFrom fuel next key
      | _ => throw .dangling

def iniGetValue (cfg : Option P) (sec : Option (List UInt8)) (key : List UInt8) : HeapM P (Cell P) (Option P) :=
  match cfg with
  | none => return none
  | some cfg =>
    if key = [] then return none
    else
      match sec with
      | none => do valueFrom A fuel (← (globalKeyvalsSlot cfg).read) key
      | some name => do
        match ← findSection fuel (some cfg) name with
        | none => return none
        | some sec => valueFrom A fuel (← (keyvalsSlot sec).read) key

/-- The loop that frees the pairs of a list. -/
def freeKeyvals : Nat → Option P → HeapM P (Cell P) Unit
  | 0, _ => throw .fuel
  | fuel + 1, curKeyval =>
    match curKeyval with
    | none => return
    | some p => do
      match ← load (some p) with
      | .keyval name value nextKeyval =>
        free name
        free value
        free (some p)
        freeKeyvals fuel nextKeyval
      | _ => throw .dangling

/-- The loop that frees the sections. -/
def freeSections : Nat → Option P → HeapM P (Cell P) Unit
  | 0, _ => throw .fuel
  | turns + 1, curSection =>
    match curSection with
    | none => return
    | some p => do
      match ← load (some p) with
      | .sec name keyvals nextSection =>
        freeKeyvals fuel keyvals
        free name
        free (some p)
        freeSections turns nextSection
      | _ => throw .dangling

/-- `ini_free(&cfg)`; the caller's pointer is `NULL` behind it. -/
def iniFree (cfg : Option P) : HeapM P (Cell P) Unit :=
  match cfg with
  | none => return
  | some p => do
    freeKeyvals fuel (← (globalKeyvalsSlot p).read)
    freeSections fuel fuel (← (sectionsSlot p).read)
    free (some p)

/-! ### From `ini_create` to `ini_free` -/

/-- A call of `assign_keyval`. -/
structure Assignment where
  sec : Option (List UInt8)
  name : List UInt8
  value : List UInt8

/-- A call of `ini_get_value`. -/
structure Lookup where
  sec : Option (List UInt8)
  key : List UInt8

def assignAll (cfg : Option P) : List Assignment → HeapM P (Cell P) Unit
  | [] => return
  | call :: calls => do
    assignKeyval A fuel cfg call.sec call.name call.value
    assignAll cfg calls

def getAll (cfg : Option P) : List Lookup → HeapM P (Cell P) (List (Option P))
  | [] => return []
  | lookup :: lookups => do
    let value ← iniGetValue A fuel cfg lookup.sec lookup.key
    return value :: (← getAll cfg lookups)

/-- A configuration is made of assignments, looked up, and freed; there is no result where it could not be created. -/
def session (calls : List Assignment) (lookups : List Lookup) : HeapM P (Cell P) (Option (List (Option P))) := do
  match ← iniCreate A with
  | none => return none
  | some cfg =>
    assignAll A fuel (some cfg) calls
    let values ← getAll A fuel (some cfg) lookups
    iniFree fuel (some cfg)
    return some values

end Functions
end Vcmp.IniHeap
