import Vcmp.Listener

/-! The packets of `docs/PROTOCOL.md` as byte strings, and what the code reads from a buffer that holds one
    of them. -/

namespace Vcmp
open ByteOrder ByteMem Listener

/-! ### The wire format -/

def packetHeader (type : UInt8) : List UInt8 := vcmpMagic ++ [vcmpVersion, type]

def verifyPacket : List UInt8 := packetHeader vcmpTypeVerify

def handshakePacket (type : UInt8) (key : List UInt8) : List UInt8 := packetHeader type ++ (toLE 4 key.length ++ key)

/-- A data packet; `stamp` is the message identifier followed by the timestamp. -/
def dataPacket (stamp payload : List UInt8) : List UInt8 :=
  packetHeader vcmpTypeData ++ (stamp ++ (toLE 4 payload.length ++ payload))

/-! ### Headers -/

section Reading
variable {bytes rest : List UInt8} {type : UInt8} {past : Mem}

theorem read_packetHeader : VcmpHeader.read (ofBytes (packetHeader type ++ rest) past) = vcmpGenHeader type := rfl

theorem slice_header (h : sizeofHeader ≤ bytes.length) :
    bytes.take 7 = (VcmpHeader.read (ofBytes bytes past)).bytes := by
  have split : slice (ofBytes bytes past) 0 7 = (VcmpHeader.read (ofBytes bytes past)).bytes := rfl
  rw [← split, slice_ofBytes (by exact h), List.drop_zero]

theorem vcmpValidate_eq_zero {h : VcmpHeader} : vcmpValidate h = 0 ↔ h = vcmpGenHeader h.type := by
  unfold vcmpValidate
  obtain ⟨magic, version, type⟩ := h
  simp only [vcmpGenHeader, VcmpHeader.mk.injEq, and_true]
  by_cases hm : magic = vcmpMagic
  · by_cases hv : version = vcmpVersion <;> simp [hm, hv]
  · simp [hm]

/-- A buffer with a valid header begins with the header of its type. -/
theorem take_valid (h : sizeofHeader ≤ bytes.length) (valid : vcmpValidate (VcmpHeader.read (ofBytes bytes past)) = 0) :
    bytes.take 7 = packetHeader (VcmpHeader.read (ofBytes bytes past)).type := by
  rw [slice_header h, vcmpValidate_eq_zero.mp valid]
  rfl

/-! ### A number and the bytes it counts -/

theorem ofLE_slice_toLE (front : List UInt8) {n : Nat} (h : n < 2 ^ 32) :
    (UInt32.ofNat (ofLE (slice (ofBytes (front ++ (toLE 4 n ++ rest)) past) front.length 4))).toNat = n := by
  have := slice_ofBytes_append front (toLE 4 n) rest past
  rw [length_toLE] at this
  rw [this, ofLE_toLE, UInt32.toNat_ofNat']
  omega

/-- A buffer that is as long as the 32-bit number at `k` says holds that number's bytes there and then as
    many bytes as it counts. -/
theorem eq_counted {k : Nat}
    (h : bytes.length = k + 4 + (UInt32.ofNat (ofLE (slice (ofBytes bytes past) k 4))).toNat) :
    bytes = bytes.take k ++ (toLE 4 (bytes.drop (k + 4)).length ++ bytes.drop (k + 4)) ∧
      (bytes.drop (k + 4)).length < 2 ^ 32 := by
  have take : ((bytes.drop k).take 4).length = 4 := by rw [List.length_take, List.length_drop]; omega
  have hlt := ofLE_lt ((bytes.drop k).take 4)
  have back := toLE_ofLE ((bytes.drop k).take 4)
  rw [take] at hlt back
  rw [slice_ofBytes (by omega), UInt32.toNat_ofNat'] at h
  have count : (bytes.drop (k + 4)).length = ofLE ((bytes.drop k).take 4) := by
    rw [List.length_drop]
    omega
  rw [count, back, ← List.drop_drop, List.take_append_drop, List.take_append_drop]
  exact ⟨rfl, hlt⟩

/-! ### Handshake packets -/

theorem readKeylen_handshakePacket {key : List UInt8} (h : key.length < 2 ^ 32) :
    (readKeylen (ofBytes (handshakePacket type key) past)).toNat = key.length :=
  ofLE_slice_toLE (packetHeader type) h

theorem slice_handshakePacket {key : List UInt8} :
    slice (ofBytes (handshakePacket type key) past) sizeofHandshake key.length = key := by
  have := slice_ofBytes_append (packetHeader type ++ toLE 4 key.length) key [] past
  rw [List.append_nil, List.append_assoc] at this
  exact this

/-- A buffer that passes the length and header checks is a handshake packet of its type. -/
theorem eq_handshakePacket (hlen : bytes.length = sizeofHandshake + (readKeylen (ofBytes bytes past)).toNat)
    (valid : vcmpValidate (VcmpHeader.read (ofBytes bytes past)) = 0) :
    bytes = handshakePacket (VcmpHeader.read (ofBytes bytes past)).type (bytes.drop sizeofHandshake) ∧
      (bytes.drop sizeofHandshake).length < 2 ^ 32 := by
  have hbound : sizeofHeader ≤ bytes.length := by rw [hlen]; exact Nat.le_add_right_of_le (by decide)
  obtain ⟨hsplit, hlt⟩ := eq_counted (k := 7) hlen
  rw [take_valid hbound valid] at hsplit
  exact ⟨hsplit, hlt⟩

/-! ### Data packets -/

section Data
variable {stamp payload : List UInt8}

theorem readLen_dataPacket (hs : stamp.length = 24) (h : payload.length < 2 ^ 32) :
    (readLen (ofBytes (dataPacket stamp payload) past)).toNat = payload.length := by
  have hfront : (packetHeader vcmpTypeData ++ stamp).length = 31 := by rw [List.length_append, hs]; rfl
  rw [dataPacket, ← List.append_assoc, readLen, ← hfront]
  exact ofLE_slice_toLE _ h

theorem slice_dataPacket (hs : stamp.length = 24) :
    slice (ofBytes (dataPacket stamp payload) past) sizeofData payload.length = payload := by
  have hfront : (packetHeader vcmpTypeData ++ (stamp ++ toLE 4 payload.length)).length = sizeofData := by
    rw [List.length_append, List.length_append, length_toLE, hs]
    rfl
  have := slice_ofBytes_append (packetHeader vcmpTypeData ++ (stamp ++ toLE 4 payload.length)) payload [] past
  rwa [List.append_nil, hfront, List.append_assoc, List.append_assoc] at this

theorem eq_dataPacket (hlen : bytes.length = sizeofData + (readLen (ofBytes bytes past)).toNat)
    (valid : vcmpValidate (VcmpHeader.read (ofBytes bytes past)) = 0)
    (type : (VcmpHeader.read (ofBytes bytes past)).type = vcmpTypeData) :
    ∃ stamp, stamp.length = 24 ∧ bytes = dataPacket stamp (bytes.drop sizeofData) ∧
      (bytes.drop sizeofData).length < 2 ^ 32 := by
  have hbound : sizeofHeader ≤ bytes.length := by rw [hlen]; exact Nat.le_add_right_of_le (by decide)
  obtain ⟨hsplit, hlt⟩ := eq_counted (k := 31) hlen
  have hstamp : bytes.take 31 = packetHeader vcmpTypeData ++ (bytes.drop 7).take 24 := by
    rw [← type, ← take_valid hbound valid, ← List.take_add]
  rw [hstamp, List.append_assoc] at hsplit
  refine ⟨(bytes.drop 7).take 24, ?_, hsplit, hlt⟩
  rw [List.length_take, List.length_drop, hlen, sizeofData]
  omega

end Data
end Reading
end Vcmp
