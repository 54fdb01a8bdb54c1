import Mathlib.Data.List.Basic

/-! `lib/yyjson.c` and `lib/yyjson.h`: an object of strings, built in a document and written with no options. -/

namespace Vcmp.Yyjson

/-! ### The buffer -/

inductive WriteError where
  | invalidParameter
  | memoryAllocation
  | invalidString
  /-- The program read or wrote outside of its memory. -/
  | fault
deriving DecidableEq

/-- Whether the `n`-th call of the allocator succeeds. -/
abbrev Alc := Nat → Bool

/-- `hdr`, `cur` and `end` of a writer: the bytes up to `cur`, and how many there is room for. No container is in another one, so
`ctx` stays at `end`. -/
structure Buffer where
  calls : Nat
  text : List UInt8
  alcLen : Nat

/-- Stores `stored` bytes at `cur`, and moves it behind those of them that are `bytes`. -/
def Buffer.put (buf : Buffer) (bytes : List UInt8) (stored : Nat) : Except WriteError Buffer :=
  if buf.text.length + stored ≤ buf.alcLen then .ok { buf with text := buf.text ++ bytes } else .error .fault

def sizeAlignUp (size align : Nat) : Nat := (size + (align - 1)) / align * align

/-- `sizeof(yyjson_mut_write_ctx)` -/
def sizeofWriteCtx : Nat := 16

/-- `incr_len` -/
def Buffer.incrLen (alc : Alc) (buf : Buffer) (extLen : Nat) : Except WriteError Buffer :=
  if buf.alcLen ≤ buf.text.length + extLen then
    if alc buf.calls then
      .ok { buf with calls := buf.calls + 1, alcLen := buf.alcLen + sizeAlignUp (max (buf.alcLen / 2) extLen) sizeofWriteCtx }
    else .error .memoryAllocation
  else .ok buf

/-! ### Strings -/

def charEncCpy1 : Nat := 0
def charEncErr1 : Nat := 1
def charEncEscA : Nat := 2
def charEncEsc1 : Nat := 3
def charEncCpy2 : Nat := 4
def charEncCpy3 : Nat := 6
def charEncCpy4 : Nat := 8

def encTableCpy : List Nat := [
    3, 3, 3, 3, 3, 3, 3, 3, 2, 2, 2, 3, 2, 2, 3, 3,
    3, 3, 3, 3, 3, 3, 3, 3, 3, 3, 3, 3, 3, 3, 3, 3,
    0, 0, 2, 0, 0, 0, 0, 0, 0, 0, 0, 0, 0, 0, 0, 0,
    0, 0, 0, 0, 0, 0, 0, 0, 0, 0, 0, 0, 0, 0, 0, 0,
    0, 0, 0, 0, 0, 0, 0, 0, 0, 0, 0, 0, 0, 0, 0, 0,
    0, 0, 0, 0, 0, 0, 0, 0, 0, 0, 0, 0, 2, 0, 0, 0,
    0, 0, 0, 0, 0, 0, 0, 0, 0, 0, 0, 0, 0, 0, 0, 0,
    0, 0, 0, 0, 0, 0, 0, 0, 0, 0, 0, 0, 0, 0, 0, 0,
    1, 1, 1, 1, 1, 1, 1, 1, 1, 1, 1, 1, 1, 1, 1, 1,
    1, 1, 1, 1, 1, 1, 1, 1, 1, 1, 1, 1, 1, 1, 1, 1,
    1, 1, 1, 1, 1, 1, 1, 1, 1, 1, 1, 1, 1, 1, 1, 1,
    1, 1, 1, 1, 1, 1, 1, 1, 1, 1, 1, 1, 1, 1, 1, 1,
    4, 4, 4, 4, 4, 4, 4, 4, 4, 4, 4, 4, 4, 4, 4, 4,
    4, 4, 4, 4, 4, 4, 4, 4, 4, 4, 4, 4, 4, 4, 4, 4,
    6, 6, 6, 6, 6, 6, 6, 6, 6, 6, 6, 6, 6, 6, 6, 6,
    8, 8, 8, 8, 8, 8, 8, 8, 1, 1, 1, 1, 1, 1, 1, 1]

/-- `enc_table[c]` -/
def charEncType (c : UInt8) : Nat := encTableCpy.getD c.toNat 0

/-- `esc_single_char_table`, two bytes for each byte. -/
def escSingleChar (c : UInt8) : List UInt8 :=
  match c.toNat with
  | 8 => ['\\'.toUInt8, 'b'.toUInt8]
  | 9 => ['\\'.toUInt8, 't'.toUInt8]
  | 10 => ['\\'.toUInt8, 'n'.toUInt8]
  | 12 => ['\\'.toUInt8, 'f'.toUInt8]
  | 13 => ['\\'.toUInt8, 'r'.toUInt8]
  | 34 => ['\\'.toUInt8, '"'.toUInt8]
  | 47 => ['\\'.toUInt8, '/'.toUInt8]
  | 92 => ['\\'.toUInt8, '\\'.toUInt8]
  | _ => [' '.toUInt8, ' '.toUInt8]

def hexDigit (n : UInt8) : UInt8 := if n < 10 then '0'.toUInt8 + n else 'A'.toUInt8 + (n - 10)

/-- `esc_hex_char_table`, two bytes for each byte: `00` to `FF`. -/
def escHexChar (c : UInt8) : List UInt8 := [hexDigit (c / 16), hexDigit (c % 16)]

/-- Bytes loaded as one word, under a mask of as many bytes. -/
def masked (uni mask : List UInt8) : List UInt8 := List.zipWith (· &&& ·) uni mask

def isValidSeq2 (uni : List UInt8) : Bool :=
  masked uni [0xE0, 0xC0] = [0xC0, 0x80] && masked uni [0x1E, 0x00] ≠ [0, 0]

def isValidSeq3 (uni : List UInt8) : Bool :=
  masked uni [0xF0, 0xC0, 0xC0] = [0xE0, 0x80, 0x80] &&
    masked uni [0x0F, 0x20, 0x00] ≠ [0, 0, 0] && masked uni [0x0F, 0x20, 0x00] ≠ [0x0D, 0x20, 0x00]

def isValidSeq4 (uni : List UInt8) : Bool :=
  masked uni [0xF8, 0xC0, 0xC0, 0xC0] = [0xF0, 0x80, 0x80, 0x80] && masked uni [0x07, 0x30, 0x00, 0x00] ≠ [0, 0, 0, 0] &&
    (masked (masked uni [0x07, 0x30, 0x00, 0x00]) [0x04, 0x00, 0x00, 0x00] = [0, 0, 0, 0] ||
      masked (masked uni [0x07, 0x30, 0x00, 0x00]) [0x03, 0x30, 0x00, 0x00] = [0, 0, 0, 0])

/-- What is put for a character: its bytes, how many are stored at once, and what is left of the string. -/
structure Put where
  bytes : List UInt8
  stored : Nat
  rest : List UInt8

/-- `copy_utf8` with `c` at `src`. The labels `copy_ascii` and `copy_utf8` put a byte that is copied as it is alike. -/
def encodeChar (c : UInt8) (src : List UInt8) : Except WriteError Put :=
  if (c :: src).length < 4 ∧ (c :: src).length < charEncType c / 2 then .error .invalidString
  else if charEncType c = charEncCpy1 then .ok ⟨[c], 1, src⟩
  else if charEncType c = charEncCpy2 then
    match src with
    | c₁ :: src => if isValidSeq2 [c, c₁] then .ok ⟨[c, c₁], 2, src⟩ else .error .invalidString
    | [] => .error .fault
  else if charEncType c = charEncCpy3 then
    match src with
    -- the fourth byte of the copy is the next one of the string, or zero
    | c₁ :: c₂ :: src => if isValidSeq3 [c, c₁, c₂] then .ok ⟨[c, c₁, c₂], 4, src⟩ else .error .invalidString
    | _ => .error .fault
  else if charEncType c = charEncCpy4 then
    match src with
    | c₁ :: c₂ :: c₃ :: src => if isValidSeq4 [c, c₁, c₂, c₃] then .ok ⟨[c, c₁, c₂, c₃], 4, src⟩ else .error .invalidString
    | _ => .error .fault
  else if charEncType c = charEncEscA then .ok ⟨escSingleChar c, 2, src⟩
  else if charEncType c = charEncEsc1 then
    .ok ⟨['\\'.toUInt8, 'u'.toUInt8, '0'.toUInt8, '0'.toUInt8] ++ escHexChar c, 6, src⟩
  else .error .invalidString

/-- `write_string` between its quotes. -/
def writeChars : Nat → List UInt8 → Buffer → Except WriteError Buffer
  | _, [], buf => .ok buf
  | 0, _ :: _, _ => .error .fault
  | fuel + 1, c :: src, buf => do
    let put ← encodeChar c src
    let buf ← buf.put put.bytes put.stored
    writeChars fuel put.rest buf

def writeString (str : List UInt8) (buf : Buffer) : Except WriteError Buffer := do
  let buf ← buf.put ['"'.toUInt8] 1
  let buf ← writeChars str.length str buf
  buf.put ['"'.toUInt8] 1

/-- `write_string_noesc` -/
def writeStringNoesc (str : List UInt8) (buf : Buffer) : Except WriteError Buffer :=
  buf.put (['"'.toUInt8] ++ str ++ ['"'.toUInt8]) (str.length + 2)

/-- `unsafe_yyjson_is_str_noesc`; whether the compiler knows the length of the string is up to it. -/
def isStrNoesc (constantP : List UInt8 → Bool) (str : List UInt8) : Bool :=
  constantP str && str.length ≤ 32 &&
    str.all fun c => ¬(c < ' '.toUInt8 ∨ c > '~'.toUInt8 ∨ c = '"'.toUInt8 ∨ c = '\\'.toUInt8)

/-! ### The document -/

/-- `yyjson_mut_val` of a string. -/
structure MutVal where
  str : List UInt8
  noesc : Bool
  next : Nat
deriving Inhabited

/-- `yyjson_mut_doc` with its pool and its root, an object: the values of the object, the key that was added last (`obj->uni.ptr`)
and the number of members. Sizes of the pool are in values. -/
structure MutDoc where
  calls : Nat
  left : Nat
  chunks : List Nat
  chunkSize : Nat
  vals : List MutVal
  ptr : Nat
  len : Nat

def valPoolInitSize : Nat := 0x10
def valPoolMaxSize : Nat := 0x1000000

/-- `unsafe_yyjson_mut_val` and `unsafe_yyjson_val_pool_grow`: room for `count` values, or a request for it that failed. -/
def MutDoc.alloc (alc : Alc) (doc : MutDoc) (count : Nat) : MutDoc × Bool :=
  if doc.left < count then
    let size := max doc.chunkSize (count + 1)
    let asked := { doc with calls := doc.calls + 1 }
    if alc doc.calls then
      ({ asked with left := size - 1 - count, chunks := size :: doc.chunks,
                    chunkSize := min (doc.chunkSize * 2) valPoolMaxSize }, true)
    else (asked, false)
  else ({ doc with left := doc.left - count }, true)

/-- `yyjson_mut_doc_new`, `yyjson_mut_obj` and `yyjson_mut_doc_set_root` -/
def mutDocNew (alc : Alc) : Option MutDoc :=
  if alc 0 then
    let doc : MutDoc := { calls := 1, left := 0, chunks := [], chunkSize := valPoolInitSize, vals := [], ptr := 0, len := 0 }
    match doc.alloc alc 1 with
    | (doc, true) => some doc
    -- without a root nothing is added, and nothing is written
    | (_, false) => none
  else none

/-- `unsafe_yyjson_mut_obj_add`: the values are a ring, the last key of which is `ptr`. -/
def MutDoc.objAdd (doc : MutDoc) (key val : Nat) : MutDoc :=
  let vals :=
    if doc.len ≠ 0 then
      let prevVal := doc.vals[doc.ptr]!.next
      let nextKey := doc.vals[prevVal]!.next
      let vals := doc.vals.modify prevVal ({ · with next := key })
      vals.modify val ({ · with next := nextKey })
    else doc.vals.modify val ({ · with next := key })
  { doc with vals := vals.modify key ({ · with next := val }), ptr := key, len := doc.len + 1 }

/-- A C string ends at its first zero. -/
def strz (s : List UInt8) : List UInt8 := s.takeWhile (· ≠ 0)

/-- `yyjson_mut_obj_add_str`, which adds nothing if it fails. -/
def mutObjAddStr (alc : Alc) (constantP : List UInt8 → Bool) (doc : MutDoc) (key val : List UInt8) : MutDoc × Bool :=
  match doc.alloc alc 2 with
  | (doc, false) => (doc, false)
  | (doc, true) =>
    let vals := doc.vals ++ [⟨strz key, isStrNoesc constantP (strz key), 0⟩, ⟨strz val, isStrNoesc constantP (strz val), 0⟩]
    ({ doc with vals }.objAdd doc.vals.length (doc.vals.length + 1), true)

/-! ### The writer -/

/-- `yyjson_mut_doc_estimated_val_num` -/
def MutDoc.estimatedValNum (doc : MutDoc) : Nat := doc.chunks.foldl (fun sum size => sum + (size - 1)) 0 - doc.left

/-- `YYJSON_WRITER_ESTIMATED_MINIFY_RATIO` -/
def estimatedMinifyRatio : Nat := 18

/-- `val_begin` and `val_end` of `yyjson_mut_write_minify`, with `ctn_len` values to go and the next one at `val`. -/
def writeVals (alc : Alc) (vals : List MutVal) : Nat → Nat → Buffer → Except WriteError Buffer
  | 0, _, buf => .ok buf
  | ctnLen + 1, val, buf =>
    match vals[val]? with
    | none => .error .fault
    | some v => do
      let buf ← buf.incrLen alc (v.str.length * 6 + 16)
      let buf ← if v.noesc then writeStringNoesc v.str buf else writeString v.str buf
      let isKey : Bool := (ctnLen + 1) % 2 = 0
      let buf ← buf.put [if isKey then ':'.toUInt8 else ','.toUInt8] 1
      writeVals alc vals ctnLen v.next buf

/-- `yyjson_mut_write_minify` of the root, an object with members. -/
def mutWriteMinify (alc : Alc) (doc : MutDoc) : Except WriteError (List UInt8) := do
  let alcLen := sizeAlignUp (doc.estimatedValNum * estimatedMinifyRatio + 64) sizeofWriteCtx
  if ¬alc doc.calls then throw .memoryAllocation
  let buf : Buffer := ⟨doc.calls + 1, [], alcLen⟩
  let buf ← buf.put ['{'.toUInt8] 1
  let first := doc.vals[doc.vals[doc.ptr]!.next]!.next
  let buf ← writeVals alc doc.vals (doc.len * 2) first buf
  -- the comma behind the last value becomes the brace, and what is behind the brace ends the string
  let buf ← { buf with text := buf.text.dropLast }.put ['}'.toUInt8] 2
  return buf.text

/-- `yyjson_mut_write` without options -/
def mutWrite (alc : Alc) (doc : Option MutDoc) : Except WriteError (List UInt8) :=
  match doc with
  | none => .error .invalidParameter
  | some doc =>
    if doc.len = 0 then
      if alc doc.calls then .ok ['{'.toUInt8, '}'.toUInt8] else .error .memoryAllocation
    else mutWriteMinify alc doc

/-- A document with one string after another added to its root. -/
def addStrs (alc : Alc) (constantP : List UInt8 → Bool) (doc : MutDoc) (members : List (List UInt8 × List UInt8)) : MutDoc :=
  members.foldl (fun doc member => (mutObjAddStr alc constantP doc member.1 member.2).1) doc

/-- What `vcmp_api_event_user` does with a document: it is made, the members are added and it is written. -/
def writeMembers (alc : Alc) (constantP : List UInt8 → Bool) (members : List (List UInt8 × List UInt8)) :
    Except WriteError (List UInt8) :=
  mutWrite alc ((mutDocNew alc).map (addStrs alc constantP · members))

/-- The JSON writer as `vcmp_api_event_user` meets it. -/
def yyjsonMutWrite (alc : Alc) (constantP : List UInt8 → Bool) (members : List (String × List UInt8)) : Option (List UInt8) :=
  (writeMembers alc constantP (members.map fun member => (member.1.toUTF8.toList, member.2))).toOption

end Vcmp.Yyjson
