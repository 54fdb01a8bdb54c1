import Vcmp.Theorems.Frame

/-! How `ws_parse_frame` reads the frames that clients send: everything as RFC 6455 has it, except for the
    halves of a 64-bit length. -/

namespace Vcmp
open ByteOrder ByteMem Rfc6455

/-! ### The bytes of a client frame in memory -/

section Layout
variable (f : ClientFrame) {ext : List UInt8} (past : Mem)

/-- The frame with `ext` in the place of the extended length. -/
def withLength (f : ClientFrame) (ext : List UInt8) : List UInt8 :=
  (((if f.fin then 0x80 else 0) : UInt8) ||| f.opcode) :: UInt8.ofNat (0x80 + lengthCode f.payload.length) ::
    (ext ++ (List.ofFn f.key ++ mask f.key f.payload))

theorem bytes_eq : f.bytes = withLength f (extendedLength f.payload.length) := rfl

theorem fin_opcode_byte (fin : Bool) {opcode : UInt8} (h : opcode < 16) :
    ((((if fin then 0x80 else 0) : UInt8) ||| opcode) >>> 7 != 0) = fin ∧
      (((if fin then 0x80 else 0) : UInt8) ||| opcode) &&& 0xf = opcode := by
  obtain ⟨k, rfl⟩ : ∃ k : Fin 16, opcode = UInt8.ofNat k :=
    ⟨⟨opcode.toNat, UInt8.lt_iff_toNat_lt.mp h⟩, UInt8.ofNat_toNat.symm⟩
  clear h
  cases fin <;> revert k <;> decide

theorem withLength_zero : ofBytes (withLength f ext) past 0 = ((if f.fin then 0x80 else 0) : UInt8) ||| f.opcode := rfl

theorem withLength_one : ofBytes (withLength f ext) past 1 = UInt8.ofNat (0x80 + lengthCode f.payload.length) := rfl

theorem toNat_maskedCode (n : Nat) : (UInt8.ofNat (0x80 + lengthCode n)).toNat = 128 + lengthCode n := by
  have := lengthCode_lt n
  rw [UInt8.toNat_ofNat']
  omega

theorem maskedCode_mod (n : Nat) : (UInt8.ofNat (0x80 + lengthCode n)).toNat % 128 = lengthCode n := by
  have := lengthCode_lt n
  rw [toNat_maskedCode]
  omega

theorem withLength_masked : 0x80 ≤ ofBytes (withLength f ext) past 1 := by
  rw [UInt8.le_iff_toNat_le, withLength_one, toNat_maskedCode]
  exact Nat.le_add_right _ _

theorem declaredHeader_withLength : declaredHeader (withLength f ext) = f.headerLength := by
  rw [withLength, declaredHeader_cons (maskedCode_mod _), length_extendedLength, ClientFrame.headerLength]
  split
  · rfl
  · split <;> rfl

theorem declaredLength_bytes : declaredLength f.bytes = f.payload.length := by
  have hlt := f.payload_lt
  rw [bytes_eq, withLength, declaredLength_cons (maskedCode_mod _) (by omega)]

section Extended
variable (hext : ext.length = (extendedLength f.payload.length).length)
include hext

theorem length_withLength_head : (ext ++ List.ofFn f.key).length + 2 = f.headerLength := by
  have hhead := f.length_head
  simp only [ClientFrame.head, List.length_cons] at hhead
  rw [List.length_append, List.length_ofFn, hext]
  omega

theorem length_withLength : (withLength f ext).length = f.headerLength + f.payload.length := by
  have := length_withLength_head f hext
  rw [withLength, ← List.append_assoc, List.length_cons, List.length_cons, List.length_append, length_mask]
  omega

theorem slice_payload : slice (ofBytes (withLength f ext) past) f.headerLength f.payload.length = mask f.key f.payload := by
  have hlen := length_withLength_head f hext
  have hmask := slice_ofBytes_append (((if f.fin then 0x80 else 0) ||| f.opcode) ::
    UInt8.ofNat (0x80 + lengthCode f.payload.length) :: (ext ++ List.ofFn f.key)) (mask f.key f.payload) [] past
  rwa [List.append_nil, List.length_cons, List.length_cons, hlen, length_mask, List.cons_append, List.cons_append,
    List.append_assoc] at hmask

theorem key_bytes (k : Fin 4) : ofBytes (withLength f ext) past (f.headerLength - 4 + k) = f.key k := by
  have hlen := length_withLength_head f hext
  have hk : (k : Nat) < (List.ofFn f.key).length := by simp
  rw [List.length_append, List.length_ofFn] at hlen
  have hhead : f.headerLength - 4 = (((if f.fin then 0x80 else 0) ||| f.opcode) ::
      UInt8.ofNat (0x80 + lengthCode f.payload.length) :: ext).length := by
    rw [List.length_cons, List.length_cons]
    omega
  rw [hhead, withLength, ← List.cons_append, ← List.cons_append, ofBytes_shift, ofBytes_append, ofBytes_of_lt hk,
    List.getElem_ofFn]

end Extended
end Layout

/-! ### Parsing -/

section Decode
variable {f : ClientFrame} {past : Mem} {frameOut : WsFrame}

theorem slice_unmask (m : Mem) (payload n key : Nat) :
    slice (unmask m payload n key) payload n = mask (fun k => m (key + k)) (slice m payload n) := by
  refine List.ext_getElem? fun j => ?_
  rw [getElem?_mask]
  rcases Nat.lt_or_ge j n with hj | hj
  · have hin : payload ≤ payload + j ∧ payload + j < payload + n := by omega
    rw [getElem?_slice hj, getElem?_slice hj, unmask, if_pos hin, Nat.add_sub_cancel_left]
    rfl
  · rw [List.getElem?_eq_none (by simpa using hj), List.getElem?_eq_none (by simpa using hj)]
    rfl

theorem slice_unmask_past {m : Mem} {payload n key i k : Nat} (h : payload + n ≤ i) :
    slice (unmask m payload n key) i k = slice m i k :=
  slice_congr fun j hj _ => if_neg (by omega)

theorem exchangeHalves_eq_iff {n : Nat} : exchangeHalves n = n ↔ n / 2 ^ 32 = n % 2 ^ 32 := by
  unfold exchangeHalves
  omega

/-- Whatever lies behind it, the byte string is taken for the frame: its header, its length, its opcode and,
    once unmasked, its payload. -/
structure ReadAs (e : List UInt8) (f : ClientFrame) : Prop where
  masked (past : Mem) : 0x80 ≤ ofBytes e past 1
  opcode (past : Mem) : ofBytes e past 0 &&& 0xf = f.opcode
  header (past : Mem) : parsedHeader (ofBytes e past) = f.headerLength
  length (past : Mem) : (parsedLength (ofBytes e past)).toNat = f.payload.length
  size : e.length = f.headerLength + f.payload.length
  payload (past : Mem) :
    slice (unmask (ofBytes e past) f.headerLength f.payload.length (f.headerLength - 4)) f.headerLength f.payload.length =
      f.payload

theorem ReadAs.two_le {e : List UInt8} (h : ReadAs e f) (rest : List UInt8) : 2 ≤ (e ++ rest).length := by
  have := f.headerLength_le
  rw [List.length_append, h.size]
  omega

section Extended
variable {ext : List UInt8} (hext : ext.length = (extendedLength f.payload.length).length)
include hext

theorem parsedHeader_withLength : parsedHeader (ofBytes (withLength f ext) past) = f.headerLength := by
  have hlen := length_withLength f hext
  have := f.headerLength_le
  rw [parsedHeader_ofBytes (by omega), declaredHeader_withLength]

theorem parsedLength_withLength : (parsedLength (ofBytes (withLength f ext) past)).toNat =
    if f.payload.length ≤ 65535 then declaredLength (withLength f ext)
    else exchangeHalves (declaredLength (withLength f ext)) := by
  have hheader : declaredHeader (withLength f ext) ≤ (withLength f ext).length := by
    rw [declaredHeader_withLength, length_withLength f hext]
    exact Nat.le_add_right _ _
  rw [parsedLength_ofBytes (Nat.le_add_right_of_le hheader), declaredHeader_withLength, ClientFrame.headerLength]
  by_cases h7 : f.payload.length ≤ 125
  · rw [if_pos h7, if_neg (by decide), if_pos (by omega)]
  · by_cases h16 : f.payload.length ≤ 65535 <;> simp [h7, h16]

theorem slice_unmask_withLength :
    slice (unmask (ofBytes (withLength f ext) past) f.headerLength f.payload.length (f.headerLength - 4))
      f.headerLength f.payload.length = f.payload := by
  have hkey : (fun k : Fin 4 => ofBytes (withLength f ext) past (f.headerLength - 4 + k)) = f.key :=
    funext (key_bytes f past hext)
  rw [slice_unmask, hkey, slice_payload f past hext, mask_mask]

theorem readAs_withLength
    (hlength : ∀ past, (parsedLength (ofBytes (withLength f ext) past)).toNat = f.payload.length) :
    ReadAs (withLength f ext) f where
  masked := withLength_masked f
  opcode _ := (fin_opcode_byte f.fin f.opcode_lt).2
  header _ := parsedHeader_withLength hext
  length := hlength
  size := length_withLength f hext
  payload _ := slice_unmask_withLength hext

end Extended

theorem parsedLength_bytes : (parsedLength (ofBytes f.bytes past)).toNat =
    if f.payload.length ≤ 65535 then f.payload.length else exchangeHalves f.payload.length := by
  have hread : (parsedLength (ofBytes (withLength f (extendedLength f.payload.length)) past)).toNat = _ :=
    parsedLength_withLength rfl
  rwa [← bytes_eq, declaredLength_bytes] at hread

theorem readAs_bytes (h : f.payload.length ≤ 65535) : ReadAs f.bytes f :=
  readAs_withLength rfl fun _ => parsedLength_bytes.trans (if_pos h)

/-- Parsing a client frame: every field but the length is the frame's, and as many bytes are unmasked as
    the code's length says. -/
theorem wsParseFrame_bytes (f : ClientFrame) (past : Mem) (bufLen : UInt64) (frameOut : WsFrame) :
    ∃ t : State, (wsParseFrame bufLen frameOut).run { mem := ofBytes f.bytes past } =
        (((f.headerLength : Int), ⟨f.fin, f.opcode, parsedLength (ofBytes f.bytes past), f.headerLength⟩), t) ∧
      t.mem = unmask (ofBytes f.bytes past) f.headerLength (parsedLength (ofBytes f.bytes past)).toNat
        (f.headerLength - 4) := by
  have hheader : parsedHeader (ofBytes f.bytes past) = f.headerLength := parsedHeader_withLength rfl
  obtain ⟨t, hrun, hmem, -, -⟩ := wsParseFrame_masked bufLen frameOut (withLength_masked f past)
  rw [← bytes_eq] at hrun hmem
  have hzero := fin_opcode_byte f.fin f.opcode_lt
  rw [← withLength_zero f past, ← bytes_eq] at hzero
  refine ⟨t, ?_, ?_⟩
  · rw [hrun, parsed, hzero.1, hzero.2, hheader]
  · rw [hmem, hheader]

/-- `ws_parse_frame` run on the bytes of the frame, `past` lying behind them, gives the frame's fields and
    unmasks its payload in place. -/
def ParsedAs (f : ClientFrame) (past : Mem) (frameOut : WsFrame) : Prop :=
  let r := (wsParseFrame (UInt64.ofNat f.bytes.length) frameOut).run { mem := ofBytes f.bytes past }
  r.1.1 = f.headerLength ∧ r.1.2.fin = f.fin ∧ r.1.2.opcode = f.opcode ∧ r.1.2.len.toNat = f.payload.length ∧
    slice r.2.mem r.1.2.start f.payload.length = f.payload

/-- A client frame is read as RFC 6455 has it exactly when its length has no 64-bit form or equal halves. -/
theorem parsedAs_iff : ParsedAs f past frameOut ↔
    f.payload.length ≤ 65535 ∨ f.payload.length / 2 ^ 32 = f.payload.length % 2 ^ 32 := by
  have hlength : (parsedLength (ofBytes f.bytes past)).toNat = f.payload.length ↔
      f.payload.length ≤ 65535 ∨ f.payload.length / 2 ^ 32 = f.payload.length % 2 ^ 32 := by
    rw [parsedLength_bytes]
    by_cases h16 : f.payload.length ≤ 65535
    · simp [h16]
    · rw [if_neg h16, exchangeHalves_eq_iff]
      simp [h16]
  obtain ⟨t, hrun, hmem⟩ := wsParseFrame_bytes f past (UInt64.ofNat f.bytes.length) frameOut
  rw [← hlength]
  simp only [ParsedAs, hrun]
  constructor
  · exact fun h => h.2.2.2.1
  · intro h
    refine ⟨trivial, trivial, trivial, h, ?_⟩
    rw [hmem, h]
    exact slice_unmask_withLength rfl

/-- A final binary frame of 65536 zero bytes, the least length that takes the 64-bit form. -/
def longFrame : ClientFrame where
  fin := true
  opcode := wsOpcodeBinary
  key := fun _ => 0
  payload := List.replicate 65536 0
  opcode_lt := by decide
  payload_lt := by rw [List.length_replicate]; decide

theorem not_parsedAs : ¬∀ f past frameOut, ParsedAs f past frameOut := by
  intro h
  have hread := h longFrame (fun _ => 0) ⟨false, 0, 0, 0⟩
  obtain ⟨t, hrun, -⟩ := wsParseFrame_bytes longFrame (fun _ => 0) (UInt64.ofNat longFrame.bytes.length) ⟨false, 0, 0, 0⟩
  simp only [ParsedAs, hrun] at hread
  have hlen := hread.2.2.2.1
  rw [parsedLength_bytes, show longFrame.payload.length = 65536 from List.length_replicate] at hlen
  revert hlen
  decide

end Decode
end Vcmp
