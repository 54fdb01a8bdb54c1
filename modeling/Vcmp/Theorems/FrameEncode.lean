import Vcmp.Theorems.FrameDecode
import Vcmp.Websockets.Server

/-! How the server encodes frames: the header that `ws_make_frame` writes, and what `ws_client_send` makes of a
    payload. -/

namespace Vcmp
open ByteOrder ByteMem Rfc6455

/-! ### The header -/

/-- The extended length that `ws_make_frame` stores behind its second byte. -/
def madeLength (n : Nat) : List UInt8 := if n ≤ 65535 then extendedLength n else toBE 8 (exchangeHalves n)

def madeHeader (fin : Bool) (opcode : UInt8) (n : Nat) : List UInt8 :=
  ((if fin then 0x80 else 0) ||| opcode) :: UInt8.ofNat (lengthCode n) :: madeLength n

theorem length_madeLength (n : Nat) : (madeLength n).length = (extendedLength n).length := by
  unfold madeLength
  split
  · rfl
  · rw [length_toBE, length_extendedLength, if_neg (by omega), if_neg (by omega)]

theorem length_madeHeader (fin : Bool) (opcode : UInt8) (n : Nat) :
    (madeHeader fin opcode n).length = (extendedLength n).length + 2 := by
  rw [madeHeader, List.length_cons, List.length_cons, length_madeLength]

theorem length_madeHeader_le (fin : Bool) (opcode : UInt8) (n : Nat) : (madeHeader fin opcode n).length ≤ 10 := by
  rw [length_madeHeader, length_extendedLength]
  split
  · omega
  · split <;> omega

theorem fin_shift (fin : Bool) : ((if fin then 1 else 0) : UInt8) <<< 7 = if fin then 0x80 else 0 := by
  cases fin <;> rfl

section Make
variable (fin : Bool) (opcode : UInt8) (len bufLen : UInt64) (m : Mem)

/-- The header is written over what the buffer held, and its length is returned. -/
theorem run_wsMakeFrame (h : 2 ≤ bufLen) :
    ((wsMakeFrame fin opcode len bufLen).run { mem := m }).1 = (madeHeader fin opcode len.toNat).length ∧
      ((wsMakeFrame fin opcode len bufLen).run { mem := m }).2.mem = put m 0 (madeHeader fin opcode len.toNat) := by
  have room : ¬bufLen < 2 := UInt64.not_lt.mpr h
  have hfirst (b : UInt8) (rest : List UInt8) (a : UInt8) :
      put (Function.update (Function.update m 0 a) 1 b) 2 rest = put m 0 (a :: b :: rest) := by
    rw [put_cons, put_cons]
  by_cases h7 : len ≤ 125
  · have hn : len.toNat ≤ 125 := UInt64.le_iff_toNat_le.mp h7
    have hcode : len.toUInt8 = UInt8.ofNat (lengthCode len.toNat) := by
      rw [lengthCode, if_pos hn]
      rfl
    have hlength : madeLength len.toNat = [] := by rw [madeLength, if_pos (by omega), extendedLength, if_pos hn]
    rw [madeHeader, hlength, ← hcode, ← fin_shift, ← hfirst, put_nil]
    simp only [wsMakeFrame, room, h7, if_true, if_false, Prog.run_bind, run_store]
    exact ⟨rfl, rfl⟩
  · have hn : ¬len.toNat ≤ 125 := fun hle => h7 (UInt64.le_iff_toNat_le.mpr hle)
    by_cases h16 : len ≤ 65535
    · have hn' : len.toNat ≤ 65535 := UInt64.le_iff_toNat_le.mp h16
      have hcode : lengthCode len.toNat = 126 := by rw [lengthCode, if_neg hn, if_pos hn']
      have hlength : madeLength len.toNat = toLE 2 (htons len.toUInt16).toNat := by
        have hshort : len.toUInt16.toNat = len.toNat := by
          rw [UInt64.toNat_toUInt16]
          omega
        rw [madeLength, if_pos hn', extendedLength, if_neg hn, if_pos hn', toLE_htons, hshort]
      rw [madeHeader, hlength, hcode, ← fin_shift, ← hfirst]
      simp only [wsMakeFrame, room, h7, h16, if_true, if_false, Prog.run_bind, Prog.run_pure, run_store, run_storeBytes]
      exact ⟨rfl, rfl⟩
    · have hn' : ¬len.toNat ≤ 65535 := fun hle => h16 (UInt64.le_iff_toNat_le.mpr hle)
      have hcode : lengthCode len.toNat = 127 := by rw [lengthCode, if_neg hn, if_neg hn']
      have hlength : madeLength len.toNat = toLE 8 (htonll len).toNat := by rw [madeLength, if_neg hn', toLE_htonll]
      rw [madeHeader, hlength, hcode, ← fin_shift, ← hfirst]
      simp only [wsMakeFrame, room, h7, h16, if_false, Prog.run_bind, Prog.run_pure, run_store, run_storeBytes]
      exact ⟨rfl, rfl⟩

theorem wsCalcFrameSize_eq : wsCalcFrameSize len = (madeHeader fin opcode len.toNat).length := by
  rw [length_madeHeader, length_extendedLength, wsCalcFrameSize]
  have h7 : len ≤ 125 ↔ len.toNat ≤ 125 := UInt64.le_iff_toNat_le
  have h16 : len ≤ 65535 ↔ len.toNat ≤ 65535 := UInt64.le_iff_toNat_le
  simp only [h7, h16]
  split
  · rfl
  · split <;> rfl

end Make

/-- The header is the one of RFC 6455 exactly where the length has no 64-bit form or equal halves. -/
theorem madeHeader_eq_iff (opcode : UInt8) {payload : List UInt8} (h : payload.length < 2 ^ 63) :
    madeHeader true opcode payload.length ++ payload = serverFrame opcode payload ↔
      payload.length ≤ 65535 ∨ payload.length / 2 ^ 32 = payload.length % 2 ^ 32 := by
  have hlength : madeHeader true opcode payload.length ++ payload = serverFrame opcode payload ↔
      madeLength payload.length = extendedLength payload.length := by
    simp only [madeHeader, serverFrame, List.cons_append, List.cons.injEq, true_and, List.append_cancel_right_eq]
    simp
  rw [hlength, madeLength]
  by_cases h16 : payload.length ≤ 65535
  · simp [h16]
  · have hswap : exchangeHalves payload.length < 256 ^ 8 := by
      unfold exchangeHalves
      omega
    rw [if_neg h16, extendedLength, if_neg (by omega), if_neg h16, toBE_inj hswap (by omega), exchangeHalves_eq_iff]
    simp [h16]

theorem madeHeader_short (opcode : UInt8) {payload : List UInt8} (h : payload.length ≤ 65535) :
    madeHeader true opcode payload.length ++ payload = serverFrame opcode payload :=
  (madeHeader_eq_iff opcode (by omega)).mpr (Or.inl h)

/-- The length that the header declares is exchanged where it has the 64-bit form. -/
theorem declaredLength_madeHeader (opcode : UInt8) {n : Nat} (h : n < 2 ^ 64) :
    declaredLength (madeHeader true opcode n) = if n ≤ 65535 then n else exchangeHalves n := by
  rw [madeHeader, madeLength]
  by_cases h16 : n ≤ 65535
  · have hread : declaredLength (((if true then 0x80 else 0) ||| opcode) :: UInt8.ofNat (lengthCode n) ::
        (extendedLength n ++ [])) = n := declaredLength_cons (lengthCode_mod n) h
    rw [List.append_nil] at hread
    rw [if_pos h16, if_pos h16, hread]
  · have hswap : exchangeHalves n < 2 ^ 64 := by
      unfold exchangeHalves
      omega
    have hlong : (UInt8.ofNat (lengthCode n)).toNat % 128 = 127 := by
      rw [lengthCode_mod, lengthCode, if_neg (by omega), if_neg h16]
    have hread : declaredLength (((if true then 0x80 else 0) ||| opcode) :: UInt8.ofNat (lengthCode n) ::
        (toBE 8 (exchangeHalves n) ++ [])) = exchangeHalves n := declaredLength_long hlong hswap
    rw [List.append_nil] at hread
    rw [if_neg h16, if_neg h16, hread]

theorem frameSize?_madeHeader (opcode : UInt8) {n : Nat} (h : n < 2 ^ 64) : frameSize? (madeHeader true opcode n) =
    some ((madeHeader true opcode n).length + if n ≤ 65535 then n else exchangeHalves n) := by
  have hmask : masked (madeHeader true opcode n) = false := by
    rw [masked, decide_eq_false_iff_not, UInt8.not_le, UInt8.lt_iff_toNat_lt]
    exact (toNat_lengthCode n).trans_lt (lengthCode_lt n)
  have hheader : serverHeader (madeHeader true opcode n) = (madeHeader true opcode n).length := by
    rw [length_madeHeader, serverHeader, madeHeader, declaredHeader_cons (lengthCode_mod n)]
    omega
  rw [frameSize?, hheader, declaredLength_madeHeader opcode h, if_pos ⟨hmask, Nat.le_refl _⟩]

/-- A header by itself is a whole frame only where it announces no payload. -/
theorem complete_madeHeader (opcode : UInt8) {n : Nat} (h : n < 2 ^ 64) :
    Framing.Complete frameSize? (madeHeader true opcode n) ↔ n = 0 := by
  have hsize := frameSize?_madeHeader opcode h
  constructor
  · intro hc
    by_contra hn
    have hlength : (if n ≤ 65535 then n else exchangeHalves n) ≠ 0 := by
      split
      · exact hn
      · unfold exchangeHalves
        omega
    exact frameSize?_stable.not_complete hsize (by omega) (List.cons_ne_nil _ _) hc
  · rintro rfl
    exact .single hsize

/-! ### Frames made by the encoder -/

/-- A client frame whose header `ws_make_frame` has written, the mask bit set in its second byte. -/
def encoded (f : ClientFrame) : List UInt8 :=
  let r := (wsMakeFrame f.fin f.opcode (UInt64.ofNat f.payload.length) 14).run { mem := fun _ => 0 }
  let header := slice r.2.mem 0 (CInt.toSize r.1)
  header.modify 1 (· ||| 0x80) ++ (List.ofFn f.key ++ mask f.key f.payload)

theorem lengthCode_mask (n : Nat) : UInt8.ofNat (lengthCode n) ||| 0x80 = UInt8.ofNat (0x80 + lengthCode n) := by
  obtain ⟨k, hk⟩ : ∃ k : Fin 128, lengthCode n = k := ⟨⟨lengthCode n, lengthCode_lt n⟩, rfl⟩
  rw [hk]
  clear hk
  revert k
  decide

theorem encoded_eq (f : ClientFrame) : encoded f = withLength f (madeLength f.payload.length) := by
  have hlen : (UInt64.ofNat f.payload.length).toNat = f.payload.length := by
    have := f.payload_lt
    rw [UInt64.toNat_ofNat']
    omega
  obtain ⟨hret, hmem⟩ :=
    run_wsMakeFrame f.fin f.opcode (UInt64.ofNat f.payload.length) 14 (fun _ => 0) (by decide)
  have hten := length_madeHeader_le f.fin f.opcode f.payload.length
  rw [hlen] at hret hmem
  simp only [encoded, hret, hmem]
  rw [CInt.toSize_natCast (by omega), slice_put, madeHeader, List.modify_succ_cons, List.modify_zero_cons, lengthCode_mask]
  simp only [withLength, List.cons_append]

/-- The encoder and the decoder agree on every length: both exchange the halves of a 64-bit one. -/
theorem readAs_encoded (f : ClientFrame) : ReadAs (encoded f) f := by
  have hlt := f.payload_lt
  rw [encoded_eq]
  by_cases h16 : f.payload.length ≤ 65535
  · rw [madeLength, if_pos h16]
    exact readAs_bytes h16
  · refine readAs_withLength (length_madeLength _) fun past => ?_
    have hswap : exchangeHalves f.payload.length < 2 ^ 64 := by
      unfold exchangeHalves
      omega
    have hcode : (UInt8.ofNat (0x80 + lengthCode f.payload.length)).toNat % 128 = 127 := by
      rw [maskedCode_mod, lengthCode, if_neg (by omega), if_neg h16]
    rw [parsedLength_withLength (length_madeLength _), if_neg h16, withLength, madeLength, if_neg h16,
      declaredLength_long hcode hswap, exchangeHalves_exchangeHalves (by omega)]

namespace Websockets

/-! ### Sending -/

variable {block : Mem} {s : Conn} {opcode : UInt8} {data : List UInt8}

theorem wsClientSend_sent (block : Mem) (s : Conn) (opcode : UInt8) (h : data.length < 2 ^ 63) :
    wsClientSend (some block) true s opcode data = (0, s.write (madeHeader true opcode data.length ++ data)) := by
  have hlen : (UInt64.ofNat data.length).toNat = data.length := by
    rw [UInt64.toNat_ofNat']
    omega
  have hten := length_madeHeader_le true opcode data.length
  have htwo : 2 ≤ (madeHeader true opcode data.length).length := by
    rw [length_madeHeader]
    exact Nat.le_add_left _ _
  have hframe : wsCalcFrameSize (UInt64.ofNat data.length) = (madeHeader true opcode data.length).length := by
    rw [wsCalcFrameSize_eq true opcode, hlen]
  have hsize : ((madeHeader true opcode data.length).length + data.length) % 2 ^ 64 =
      (madeHeader true opcode data.length ++ data).length := by
    rw [List.length_append, Nat.mod_eq_of_lt (by omega)]
  have hroom : 2 ≤ UInt64.ofNat (madeHeader true opcode data.length ++ data).length := by
    rw [UInt64.le_iff_toNat_le, UInt64.toNat_ofNat', List.length_append, Nat.mod_eq_of_lt (by omega)]
    exact Nat.le_add_right_of_le htwo
  obtain ⟨hret, hmem⟩ := run_wsMakeFrame true opcode (UInt64.ofNat data.length) _ block hroom
  rw [hlen] at hret hmem
  have hbuf : (fun i => if (madeHeader true opcode data.length).length ≤ i then
        data.getD (i - (madeHeader true opcode data.length).length) (put block 0 (madeHeader true opcode data.length) i)
      else put block 0 (madeHeader true opcode data.length) i) =
      put block 0 (madeHeader true opcode data.length ++ data) := by
    rw [← put_append, Nat.zero_add]
    rfl
  simp only [wsClientSend, hframe, CInt.toSize_natCast (show (madeHeader true opcode data.length).length < 2 ^ 31 by omega),
    hlen, hsize, hret, hmem, ne_eq, not_true, if_false, Bool.not_true, Bool.false_eq_true, hbuf, slice_put]

/-- Sending writes one frame of RFC 6455 with the payload, which a client reads back. -/
def SendsFrame (block : Mem) (s : Conn) (opcode : UInt8) (data : List UInt8) : Prop :=
  let r := wsClientSend (some block) true s opcode data
  r.1 = 0 ∧ ∃ bytes, r.2 = s.write bytes ∧ bytes = serverFrame opcode data ∧ decode bytes = some (opcode, data, [])

/-- A payload below 2^63 bytes is sent as RFC 6455 has it exactly when its length has no 64-bit form or equal
    halves. -/
theorem sendsFrame_iff (hop : opcode < 16) (h : data.length < 2 ^ 63) : SendsFrame block s opcode data ↔
    data.length ≤ 65535 ∨ data.length / 2 ^ 32 = data.length % 2 ^ 32 := by
  rw [← madeHeader_eq_iff opcode h, SendsFrame, wsClientSend_sent block s opcode h]
  constructor
  · rintro ⟨-, bytes, hwrite, hbytes, -⟩
    have hwritten := congrArg Conn.written hwrite
    simp only [Conn.write, List.append_cancel_left_eq, List.cons.injEq, and_true] at hwritten
    exact hwritten.trans hbytes
  · intro heq
    have hread := decode_serverFrame opcode data [] hop (by omega)
    rw [List.append_nil] at hread
    exact ⟨rfl, serverFrame opcode data, by rw [heq], rfl, hread⟩

theorem sendsFrame_iff_text : SendsFrame (fun _ => 0) ⟨⟨true, false, .null⟩, [], [], false, []⟩ 1 [0x68, 0x69] ↔
    [0x68, 0x69].length ≤ 65535 ∨ [0x68, 0x69].length / 2 ^ 32 = [0x68, 0x69].length % 2 ^ 32 :=
  sendsFrame_iff (by decide) (by decide)

/-- The least payload that takes the 64-bit form goes out with the length 281474976710656. -/
theorem not_sendsFrame : ¬∀ block s opcode (data : List UInt8), opcode < 16 → data.length < 2 ^ 63 →
    SendsFrame block s opcode data := by
  intro h
  have hlen : (List.replicate 65536 (0 : UInt8)).length = 65536 := List.length_replicate
  obtain ⟨-, bytes, hwrite, hbytes, -⟩ := h (fun _ => 0) ⟨⟨true, false, .null⟩, [], [], false, []⟩ wsOpcodeBinary
    (List.replicate 65536 0) (by decide) (by rw [hlen]; decide)
  rw [wsClientSend_sent _ _ _ (by rw [hlen]; decide)] at hwrite
  have hwritten := congrArg Conn.written hwrite
  simp only [Conn.write, List.nil_append, List.cons.injEq, and_true] at hwritten
  have heq := (madeHeader_eq_iff _ (by rw [hlen]; decide)).mp (hwritten.trans hbytes)
  rw [hlen] at heq
  revert heq
  decide

end Websockets
end Vcmp
