import Vcmp.Lib.CInt
import Vcmp.Lib.CString

/-! `src/websockets/handshake.c`: the header lines of an upgrade request.

The table of `uthash.h` is the list of its entries, the latest first. What `HASH_ADD` allocates is left out, and so is the handle that
it writes behind the strings of an entry: the parser over the table itself is in `Vcmp.Websockets.HeaderTable`. -/

namespace Vcmp
open ByteMem CInt CString

/-- `struct header_entry`: the block that `malloc` returned with whatever lies behind it. The key is at its
    start, the value at `offsetValue`. -/
structure HeaderEntry where
  mem : Mem

def offsetValue : Nat := 256

def HeaderEntry.key (e : HeaderEntry) : List UInt8 := cstr e.mem 0 addressSpace

def HeaderEntry.value (e : HeaderEntry) : List UInt8 := cstr e.mem offsetValue addressSpace

/-- What the loop over the request keeps. -/
structure Scan where
  head : List HeaderEntry
  lineBegin : Nat
  lineLen : Nat

/-- The inner loop: the position of the first colon among the `n` bytes from `j` on, or 0. -/
def findDelim (lineBegin j : Nat) : Nat → Prog Nat
  | 0 => return 0
  | n + 1 => do
    if (← load (lineBegin + j)) = ':'.toUInt8 then return j
    else findDelim lineBegin (j + 1) n

/-- One header line, copied into the block. -/
def copyLine (st : Scan) (block : Mem) : Prog HeaderEntry := do
  let carrPos : Int := st.lineLen - 1
  let delimPos ← findDelim st.lineBegin 0 st.lineLen
  let keyBegin := st.lineBegin
  let keyLen : Int := delimPos
  let valBegin := keyBegin + delimPos + 2
  let valLen : Int := carrPos - delimPos - 2
  let key ← loadString keyBegin (toSize keyLen)
  let block := strncpy block 0 key (toSize keyLen)
  let value ← loadString valBegin (toSize valLen)
  let block := strncpy block offsetValue value (toSize valLen)
  return ⟨block⟩

/-- The loop over the `n` bytes from `i` on; `malloc i` is what the allocation for the line that ends at `i`
    returns. -/
def scanHandshake (malloc : Nat → Option Mem) (i : Nat) : Nat → Scan → Prog (List HeaderEntry)
  | 0, st => return st.head
  | n + 1, st => do
    if (← load i) = '\n'.toUInt8 then
      -- the first line (GET ...) is skipped
      if st.lineBegin = 0 then
        scanHandshake malloc (i + 1) n { st with lineBegin := i + 1, lineLen := 0 }
      else if st.lineLen = 1 then
        return st.head
      else
        match malloc i with
        | none => return []
        | some block =>
          let entry ← copyLine st block
          scanHandshake malloc (i + 1) n ⟨entry :: st.head, i + 1, 0⟩
    else
      scanHandshake malloc (i + 1) n { st with lineLen := st.lineLen + 1 }

/-- A `NULL` head is the empty table. -/
def wsParseHandshake (malloc : Nat → Option Mem) (dataLen : Int) : Prog (List HeaderEntry) :=
  scanHandshake malloc 0 dataLen.toNat ⟨[], 0, 0⟩

/-- The table gives the same entry where there are fewer than ten or their names differ. -/
def wsHeaderGet (head : List HeaderEntry) (key : List UInt8) : Option HeaderEntry :=
  head.find? fun e => e.key == key

end Vcmp
