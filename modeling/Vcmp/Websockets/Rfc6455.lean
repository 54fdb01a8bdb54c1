import Vcmp.Lib.Framing
import Vcmp.Lib.Memory

/-! The WebSocket protocol that the code is meant to implement, in its own terms: client frames and their bytes, what
    the header of a byte string declares, and the answer to an upgrade. Nothing here is read off the code. -/

namespace Vcmp.Rfc6455
open ByteOrder ByteMem

/-- The length field of the second byte of a header for a payload of `n` bytes. -/
def lengthCode (n : Nat) : Nat := if n ≤ 125 then n else if n ≤ 65535 then 126 else 127

def extendedLength (n : Nat) : List UInt8 := if n ≤ 125 then [] else if n ≤ 65535 then toBE 2 n else toBE 8 n

/-- The payload under a masking key; masking twice gives the payload back. -/
def mask (key : Fin 4 → UInt8) (payload : List UInt8) : List UInt8 :=
  payload.mapIdx fun i b => b ^^^ key (Fin.ofNat 4 i)

/-- A frame as a client sends it: final or not, any of the sixteen opcodes, masked. -/
structure ClientFrame where
  fin : Bool
  opcode : UInt8
  key : Fin 4 → UInt8
  payload : List UInt8
  opcode_lt : opcode < 16
  payload_lt : payload.length < 2 ^ 63

namespace ClientFrame

def head (f : ClientFrame) : List UInt8 :=
  (((if f.fin then 0x80 else 0) : UInt8) ||| f.opcode) :: UInt8.ofNat (0x80 + lengthCode f.payload.length) ::
    extendedLength f.payload.length

/-- The frame on the wire. -/
def bytes (f : ClientFrame) : List UInt8 := f.head ++ (List.ofFn f.key ++ mask f.key f.payload)

/-- The bytes before the payload: 6, 8 or 14. -/
def headerLength (f : ClientFrame) : Nat :=
  if f.payload.length ≤ 125 then 6 else if f.payload.length ≤ 65535 then 8 else 14

end ClientFrame

/-! ### What a byte string declares -/

def masked (bytes : List UInt8) : Bool := 0x80 ≤ bytes.getD 1 0

/-- The length of the header, masking key included, that the second byte announces. -/
def declaredHeader (bytes : List UInt8) : Nat :=
  let code := (bytes.getD 1 0).toNat % 128
  if code = 126 then 8 else if code = 127 then 14 else 6

def declaredLength (bytes : List UInt8) : Nat :=
  let code := (bytes.getD 1 0).toNat % 128
  if code = 126 then ofBE ((bytes.drop 2).take 2)
  else if code = 127 then ofBE ((bytes.drop 2).take 8)
  else code

/-- The masked frame at the start of a byte string lies wholly inside it. -/
def Whole (bytes : List UInt8) : Prop := declaredHeader bytes + declaredLength bytes ≤ bytes.length

instance (bytes : List UInt8) : Decidable (Whole bytes) := inferInstanceAs (Decidable (_ ≤ _))

/-! ### Frames of a server -/

/-- A final frame without a key, its length in the shortest form and in network byte order. -/
def serverFrame (opcode : UInt8) (payload : List UInt8) : List UInt8 :=
  (0x80 ||| opcode) :: UInt8.ofNat (lengthCode payload.length) :: (extendedLength payload.length ++ payload)

/-- The length of the header of a frame without a key. -/
def serverHeader (bytes : List UInt8) : Nat := declaredHeader bytes - 4

/-- The size that the server's frame at the start of a byte string declares, once its header is there. -/
def frameSize? (bytes : List UInt8) : Option Nat :=
  if masked bytes = false ∧ serverHeader bytes ≤ bytes.length then some (serverHeader bytes + declaredLength bytes)
  else none

/-- What a client makes of a byte string: the opcode and the payload of the final frame at its start, and the
    bytes behind it. -/
def decode (bytes : List UInt8) : Option (UInt8 × List UInt8 × List UInt8) :=
  (frameSize? bytes).bind fun n =>
    if 0x80 ≤ bytes.getD 0 0 ∧ n ≤ bytes.length then
      some (bytes.getD 0 0 &&& 0xf, (bytes.take n).drop (serverHeader bytes), bytes.drop n)
    else none

/-! ### The upgrade -/

/-- What a server appends to the key before it hashes it. -/
def guid : List UInt8 := "258EAFA5-E914-47DA-95CA-C5AB0DC85B11".toUTF8.toList

def fieldLine (name : String) (value : List UInt8) : List UInt8 :=
  name.toUTF8.toList ++ ": ".toUTF8.toList ++ value ++ "\r\n".toUTF8.toList

/-- The answer to an upgrade request: the status line, the three fields and the empty line. -/
def switchingProtocols (accept : List UInt8) : List UInt8 :=
  "HTTP/1.1 101 Switching Protocols\r\n".toUTF8.toList ++ fieldLine "Upgrade" "websocket".toUTF8.toList ++
    fieldLine "Connection" "Upgrade".toUTF8.toList ++ fieldLine "Sec-WebSocket-Accept" accept ++ "\r\n".toUTF8.toList

/-! ### Lemmas -/

@[simp] theorem length_mask (key : Fin 4 → UInt8) (payload : List UInt8) :
    (mask key payload).length = payload.length := by simp [mask]

theorem getElem?_mask {key : Fin 4 → UInt8} {payload : List UInt8} (i : Nat) :
    (mask key payload)[i]? = payload[i]?.map (· ^^^ key (Fin.ofNat 4 i)) := by simp [mask]

theorem mask_mask (key : Fin 4 → UInt8) (payload : List UInt8) : mask key (mask key payload) = payload := by
  refine List.ext_getElem? fun i => ?_
  rw [getElem?_mask, getElem?_mask, Option.map_map]
  cases payload[i]? with
  | none => rfl
  | some b =>
    rw [Option.map_some, Function.comp_apply, UInt8.xor_assoc, UInt8.xor_self, UInt8.xor_zero]

theorem lengthCode_lt (n : Nat) : lengthCode n < 128 := by
  unfold lengthCode
  split
  · omega
  · split <;> omega

theorem length_extendedLength (n : Nat) :
    (extendedLength n).length = if n ≤ 125 then 0 else if n ≤ 65535 then 2 else 8 := by
  unfold extendedLength
  split
  · rfl
  · split <;> simp

section Declared
variable {a b : UInt8} {n : Nat} {rest : List UInt8}

theorem declaredHeader_cons (h : b.toNat % 128 = lengthCode n) :
    declaredHeader (a :: b :: rest) = (extendedLength n).length + 6 := by
  have hone : (a :: b :: rest).getD 1 0 = b := rfl
  rw [length_extendedLength]
  simp only [declaredHeader, hone, h, lengthCode]
  by_cases h7 : n ≤ 125
  · simp only [h7, if_true]
    rw [if_neg (by omega), if_neg (by omega)]
  · by_cases h16 : n ≤ 65535 <;> simp [h7, h16]

theorem declaredLength_long (h : b.toNat % 128 = 127) (hn : n < 2 ^ 64) :
    declaredLength (a :: b :: (toBE 8 n ++ rest)) = n := by
  have hone : (a :: b :: (toBE 8 n ++ rest)).getD 1 0 = b := rfl
  have htwo : (a :: b :: (toBE 8 n ++ rest)).drop 2 = toBE 8 n ++ rest := rfl
  simp only [declaredLength, hone, htwo, h, Nat.reduceEqDiff, if_true, if_false]
  rw [List.take_left' (length_toBE 8 _), ofBE_toBE]
  omega

theorem declaredLength_cons (h : b.toNat % 128 = lengthCode n) (hn : n < 2 ^ 64) :
    declaredLength (a :: b :: (extendedLength n ++ rest)) = n := by
  have hone : (a :: b :: (extendedLength n ++ rest)).getD 1 0 = b := rfl
  have htwo : (a :: b :: (extendedLength n ++ rest)).drop 2 = extendedLength n ++ rest := rfl
  by_cases h7 : n ≤ 125
  · rw [lengthCode, if_pos h7] at h
    simp only [declaredLength, hone, h]
    rw [if_neg (by omega), if_neg (by omega)]
  · by_cases h16 : n ≤ 65535
    · rw [lengthCode, if_neg h7, if_pos h16] at h
      rw [extendedLength, if_neg h7, if_pos h16] at hone htwo ⊢
      simp only [declaredLength, hone, htwo, h, if_true]
      rw [List.take_left' (length_toBE 2 _), ofBE_toBE]
      omega
    · rw [lengthCode, if_neg h7, if_neg h16] at h
      rw [extendedLength, if_neg h7, if_neg h16]
      exact declaredLength_long h hn

end Declared

section ServerFrame
variable (opcode : UInt8) (payload : List UInt8)

theorem toNat_lengthCode (n : Nat) : (UInt8.ofNat (lengthCode n)).toNat = lengthCode n := by
  have := lengthCode_lt n
  rw [UInt8.toNat_ofNat']
  omega

theorem lengthCode_mod (n : Nat) : (UInt8.ofNat (lengthCode n)).toNat % 128 = lengthCode n := by
  rw [toNat_lengthCode, Nat.mod_eq_of_lt (lengthCode_lt n)]

theorem length_serverFrame :
    (serverFrame opcode payload).length = (extendedLength payload.length).length + 2 + payload.length := by
  simp only [serverFrame, List.length_cons, List.length_append]
  omega

theorem serverHeader_serverFrame (rest : List UInt8) :
    serverHeader (serverFrame opcode payload ++ rest) = (extendedLength payload.length).length + 2 := by
  rw [serverHeader, serverFrame, List.cons_append, List.cons_append, declaredHeader_cons (lengthCode_mod _)]
  omega

theorem frameSize?_serverFrame (rest : List UInt8) (h : payload.length < 2 ^ 64) :
    frameSize? (serverFrame opcode payload ++ rest) = some (serverFrame opcode payload).length := by
  have hmask : masked (serverFrame opcode payload ++ rest) = false := by
    rw [masked, decide_eq_false_iff_not, UInt8.not_le, UInt8.lt_iff_toNat_lt]
    exact (toNat_lengthCode payload.length).trans_lt (lengthCode_lt _)
  have hheader := serverHeader_serverFrame opcode payload rest
  have hlength : declaredLength (serverFrame opcode payload ++ rest) = payload.length := by
    rw [serverFrame, List.cons_append, List.cons_append, List.append_assoc, declaredLength_cons (lengthCode_mod _) h]
  have hlong : (extendedLength payload.length).length + 2 ≤ (serverFrame opcode payload ++ rest).length := by
    rw [List.length_append, length_serverFrame]
    omega
  rw [frameSize?, hheader, hlength, if_pos ⟨hmask, hlong⟩, length_serverFrame]

theorem two_le_serverHeader (bytes : List UInt8) : 2 ≤ serverHeader bytes := by
  simp only [serverHeader, declaredHeader]
  split
  · omega
  · split <;> omega

/-- The size is read from the header alone. -/
theorem frameSize?_stable : Framing.Stable frameSize? where
  append {xs ys n} h := by
    rw [frameSize?, Option.ite_none_right_eq_some] at h
    obtain ⟨⟨hmask, hheader⟩, hn⟩ := h
    have htwo := two_le_serverHeader xs
    have hone : (xs ++ ys).getD 1 0 = xs.getD 1 0 := by
      rw [List.getD_eq_getElem?_getD, List.getD_eq_getElem?_getD, List.getElem?_append_left (by omega)]
    have hdeclared : declaredHeader (xs ++ ys) = declaredHeader xs := by simp only [declaredHeader, hone]
    have hlength : declaredLength (xs ++ ys) = declaredLength xs := by
      simp only [serverHeader, declaredHeader] at hheader
      simp only [declaredLength, hone]
      split
      next h126 =>
        rw [if_pos h126] at hheader
        rw [List.drop_append_of_le_length (by omega), List.take_append_of_le_length (by rw [List.length_drop]; omega)]
      next h126 =>
        split
        next h127 =>
          rw [if_neg h126, if_pos h127] at hheader
          rw [List.drop_append_of_le_length (by omega), List.take_append_of_le_length (by rw [List.length_drop]; omega)]
        · rfl
    have hall : serverHeader xs ≤ (xs ++ ys).length := Nat.le_trans hheader (List.sublist_append_left _ _).length_le
    rw [frameSize?, masked, hone, ← masked, serverHeader, hdeclared, ← serverHeader, hlength, if_pos ⟨hmask, hall⟩, hn]
  pos {xs n} h := by
    rw [frameSize?, Option.ite_none_right_eq_some] at h
    have htwo := two_le_serverHeader xs
    have := Option.some.inj h.2
    omega

theorem final_opcode {opcode : UInt8} (h : opcode < 16) :
    0x80 ≤ (0x80 : UInt8) ||| opcode ∧ ((0x80 : UInt8) ||| opcode) &&& 0xf = opcode := by
  obtain ⟨k, rfl⟩ : ∃ k : Fin 16, opcode = UInt8.ofNat k :=
    ⟨⟨opcode.toNat, UInt8.lt_iff_toNat_lt.mp h⟩, UInt8.ofNat_toNat.symm⟩
  clear h
  revert k
  decide

/-- A client that conforms reads back what the frame was made of. -/
theorem decode_serverFrame (rest : List UInt8) (hop : opcode < 16) (h : payload.length < 2 ^ 64) :
    decode (serverFrame opcode payload ++ rest) = some (opcode, payload, rest) := by
  obtain ⟨hfinal, hopcode⟩ := final_opcode hop
  have hlong : (serverFrame opcode payload).length ≤ (serverFrame opcode payload ++ rest).length :=
    (List.sublist_append_left _ _).length_le
  have hzero : (serverFrame opcode payload ++ rest).getD 0 0 = 0x80 ||| opcode := rfl
  have hpayload : (serverFrame opcode payload).drop ((extendedLength payload.length).length + 2) = payload := by
    rw [Nat.add_comm, ← List.drop_drop]
    exact List.drop_left
  rw [decode, frameSize?_serverFrame opcode payload rest h, Option.bind_some, hzero, hopcode, if_pos ⟨hfinal, hlong⟩,
    serverHeader_serverFrame, List.take_left, List.drop_left, hpayload]

end ServerFrame

namespace ClientFrame
variable (f : ClientFrame)

theorem length_head : f.head.length + 4 = f.headerLength := by
  simp only [head, headerLength, List.length_cons, length_extendedLength]
  split
  · rfl
  · split <;> rfl

theorem length_bytes : f.bytes.length = f.headerLength + f.payload.length := by
  rw [bytes, List.length_append, List.length_append, List.length_ofFn, length_mask, ← length_head]
  omega

theorem headerLength_le : 6 ≤ f.headerLength := by
  unfold headerLength
  split
  · exact Nat.le_refl _
  · split <;> omega

theorem headerLength_le_fourteen : f.headerLength ≤ 14 := by
  unfold headerLength
  split
  · omega
  · split <;> omega

end ClientFrame
end Vcmp.Rfc6455
