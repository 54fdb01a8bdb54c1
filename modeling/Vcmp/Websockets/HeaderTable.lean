import Vcmp.Websockets.Handshake
import Vcmp.Websockets.Uthash

/-! `src/websockets/handshake.c` with the table of `uthash.h` in place of a list of entries.

The entry of a header line is named by the offset of the line feed that ends it. The handle of an entry holds the key as
`HASH_ADD_STR` found it. Handles are kept apart from the blocks, which have no end: a copy that does not fit into its field and a string
that runs into the handle at offset 512 are not as the code has them. -/

namespace Vcmp.Websockets
open ByteMem CInt CString Uthash

/-- The hash of the entries, and what their blocks hold. -/
structure HeaderTable where
  hash : Hash Nat
  entry : Nat → HeaderEntry

/-- What the loop over the request keeps. -/
structure TableScan where
  head : HeaderTable
  lineBegin : Nat
  lineLen : Nat

/-- `HASH_ADD_STR(head, key, entry)` -/
def HeaderTable.add (t : HeaderTable) (room : Alloc) (entry : HeaderEntry) (name : Nat) : Except Halt HeaderTable := do
  let hash ← hashAddKeyptr room t.hash entry.key name
  return ⟨hash, Function.update t.entry name entry⟩

/-- The loop over the `n` bytes from `i` on, as `scanHandshake` has it; `room i` is what the allocations of the hash find for the
line that ends at `i`. -/
def scanHeaders (malloc : Nat → Option Mem) (room : Nat → Alloc) (i : Nat) : Nat → TableScan → ExceptT Halt Prog HeaderTable
  | 0, st => return st.head
  | n + 1, st => do
    if (← load i) = '\n'.toUInt8 then
      -- the first line (GET ...) is skipped
      if st.lineBegin = 0 then
        scanHeaders malloc room (i + 1) n { st with lineBegin := i + 1, lineLen := 0 }
      else if st.lineLen = 1 then
        return st.head
      else
        match malloc i with
        | none => return { st.head with hash := { st.head.hash with head := none } }
        | some block =>
          let entry ← copyLine ⟨[], st.lineBegin, st.lineLen⟩ block
          let head ← st.head.add (room i) entry i
          scanHeaders malloc room (i + 1) n ⟨head, i + 1, 0⟩
    else
      scanHeaders malloc room (i + 1) n { st with lineLen := st.lineLen + 1 }

/-- `ws_parse_handshake`; the handles hold whatever lies in fresh memory. -/
def parseHeaders (malloc : Nat → Option Mem) (room : Nat → Alloc) (fresh : Handles Nat) (entry : Nat → HeaderEntry) (dataLen : Int) :
    ExceptT Halt Prog HeaderTable :=
  scanHeaders malloc room 0 dataLen.toNat ⟨⟨⟨fresh, none⟩, entry⟩, 0, 0⟩

/-- `ws_header_get` -/
def HeaderTable.get (t : HeaderTable) (key : List UInt8) : Except Halt (Option HeaderEntry) := do
  let out ← hashFind t.hash key
  return out.map t.entry

/-! ### `ws_free_handshake` -/

section Free
variable {P : Type} [DecidableEq P]

/-- The elements whose handles `HASH_DEL` reads or writes. -/
def delTouches (hash : Hash P) (entry : P) : List P :=
  let h := hash.handles
  entry :: ([hash.head.map Prod.fst, h.app.prev entry, h.app.next entry, h.chain.prev entry, h.chain.next entry].filterMap id)

/-- The turns of `HASH_ITER` from `entry` on, with `tmp` behind it; `freed` has the entries that were freed, in order. -/
def freeEntries (freed : List P) : Nat → Hash P → Option P → Option P → Except Halt (Hash P × List P)
  | _, hash, none, _ => return (hash, freed)
  | 0, _, some _, _ => throw .turns
  | n + 1, hash, some entry, tmp =>
    if ∃ p ∈ delTouches hash entry, p ∈ freed then throw .freed
    else do
      let hash ← hashDelete hash entry
      let freed := freed ++ [entry]
      match tmp with
      | none => freeEntries freed n hash none none
      | some next =>
        if next ∈ freed then throw .freed
        else freeEntries freed n hash (some next) (hash.handles.app.next next)

/-- `ws_free_handshake`: the hash that it leaves behind `head`, and what it freed. -/
def wsFreeHandshake (hash : Hash P) : Except Halt (Hash P × List P) :=
  match hash.head with
  | none => return (hash, [])
  | some (head, tbl) => freeEntries [] tbl.numItems.toNat hash (some head) (hash.handles.app.next head)

end Free

end Vcmp.Websockets
