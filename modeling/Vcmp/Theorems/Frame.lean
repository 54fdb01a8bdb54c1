import Vcmp.Websockets.Frame
import Vcmp.Websockets.Rfc6455

/-! What `ws_parse_frame` computes and which bytes it touches, for every memory it is given. -/

namespace Vcmp
open ByteOrder ByteMem

/-! ### The length field -/

/-- A number of two 32-bit halves with its halves exchanged. -/
def exchangeHalves (n : Nat) : Nat := n % 2 ^ 32 * 2 ^ 32 + n / 2 ^ 32

theorem toNat_ntohs (bytes : List UInt8) (h : bytes.length = 2) :
    (ntohs (UInt16.ofNat (ofLE bytes))).toNat = ofBE bytes := by
  have hlt := ofLE_lt bytes
  have hsw := swap_lt 2 (ofLE bytes)
  rw [h] at hlt
  have hnet : (UInt16.ofNat (ofLE bytes)).toNat = ofLE bytes := by
    rw [UInt16.toNat_ofNat']
    omega
  rw [ntohs, hnet, UInt16.toNat_ofNat', Nat.mod_eq_of_lt (by omega), ← swap_ofLE, h]

theorem toLE_htons (host : UInt16) : toLE 2 (htons host).toNat = toBE 2 host.toNat := by
  have hsw := swap_lt 2 host.toNat
  rw [htons, UInt16.toNat_ofNat', Nat.mod_eq_of_lt (by omega), toLE_swap]

theorem toNat_ntohl (net : UInt32) : (ntohl net).toNat = swap 4 net.toNat := by
  have hsw := swap_lt 4 net.toNat
  rw [ntohl, UInt32.toNat_ofNat', Nat.mod_eq_of_lt (by omega)]

/-- The two 32-bit swaps of `ntohll` leave each half in its place. -/
theorem toNat_ntohll_halves (net : UInt64) :
    (ntohll net).toNat = swap 4 (net.toNat / 2 ^ 32) * 2 ^ 32 + swap 4 (net.toNat % 2 ^ 32) := by
  have hnet := net.toNat_lt
  have hlow := swap_lt 4 (net.toNat % 2 ^ 32)
  have hhigh := swap_lt 4 (net.toNat / 2 ^ 32)
  have high : (net >>> 32).toUInt32.toNat = net.toNat / 2 ^ 32 := by
    rw [UInt64.toNat_toUInt32, UInt64.toNat_shiftRight]
    simp only [UInt64.reduceToNat, Nat.reduceMod, Nat.shiftRight_eq_div_pow]
    omega
  have low : (net &&& 0xFFFFFFFF).toUInt32.toNat = net.toNat % 2 ^ 32 := by
    rw [UInt64.toNat_toUInt32, UInt64.toNat_and]
    rw [show (0xFFFFFFFF : UInt64).toNat = 2 ^ 32 - 1 from rfl, Nat.and_two_pow_sub_one_eq_mod]
    omega
  rw [ntohll, UInt64.toNat_or, UInt64.toNat_shiftLeft, UInt32.toNat_toUInt64, UInt32.toNat_toUInt64, toNat_ntohl,
    toNat_ntohl, high, low]
  rw [show (32 : UInt64).toNat % 64 = 32 from rfl, Nat.mod_eq_of_lt (by rw [Nat.shiftLeft_eq]; omega),
    ← Nat.shiftLeft_add_eq_or_of_lt (by omega), Nat.shiftLeft_eq]

/-- What comes out is the network number with its halves exchanged. -/
theorem toNat_ntohll (bytes : List UInt8) (h : bytes.length = 8) :
    (ntohll (UInt64.ofNat (ofLE bytes))).toNat = exchangeHalves (ofBE bytes) := by
  obtain ⟨first, last, rfl, hfirst, hlast⟩ : ∃ first last, bytes = first ++ last ∧ first.length = 4 ∧ last.length = 4 :=
    ⟨bytes.take 4, bytes.drop 4, (List.take_append_drop 4 bytes).symm, by simp [h], by simp [h]⟩
  have hf := ofLE_lt first
  have hl := ofLE_lt last
  have hbf := ofBE_lt first
  have hbl := ofBE_lt last
  rw [hfirst] at hf hbf
  rw [hlast] at hl hbl
  have hnet : (UInt64.ofNat (ofLE (first ++ last))).toNat = ofLE first + 2 ^ 32 * ofLE last := by
    rw [UInt64.toNat_ofNat', ofLE_append, hfirst]
    omega
  have high : swap 4 ((ofLE first + 2 ^ 32 * ofLE last) / 2 ^ 32) = ofBE last := by
    rw [show (ofLE first + 2 ^ 32 * ofLE last) / 2 ^ 32 = ofLE last by omega, ← swap_ofLE last, hlast]
  have low : swap 4 ((ofLE first + 2 ^ 32 * ofLE last) % 2 ^ 32) = ofBE first := by
    rw [show (ofLE first + 2 ^ 32 * ofLE last) % 2 ^ 32 = ofLE first by omega, ← swap_ofLE first, hfirst]
  rw [toNat_ntohll_halves, hnet, high, low, ofBE_append, hlast, exchangeHalves]
  omega

/-- The two conversions are one function, and it is its own inverse. -/
theorem ntohll_htonll (host : UInt64) : ntohll (htonll host) = host := by
  have hhost := host.toNat_lt
  have hlow := swap_lt 4 (host.toNat % 2 ^ 32)
  have hhigh := swap_lt 4 (host.toNat / 2 ^ 32)
  have hnet : (htonll host).toNat = swap 4 (host.toNat / 2 ^ 32) * 2 ^ 32 + swap 4 (host.toNat % 2 ^ 32) :=
    toNat_ntohll_halves host
  have high : (htonll host).toNat / 2 ^ 32 = swap 4 (host.toNat / 2 ^ 32) := by omega
  have low : (htonll host).toNat % 2 ^ 32 = swap 4 (host.toNat % 2 ^ 32) := by omega
  rw [← UInt64.toNat_inj, toNat_ntohll_halves, high, low, swap_swap, swap_swap]
  omega

theorem exchangeHalves_exchangeHalves {n : Nat} (h : n < 2 ^ 64) : exchangeHalves (exchangeHalves n) = n := by
  unfold exchangeHalves
  omega

/-- `htonll` stores a length with its halves exchanged. -/
theorem toLE_htonll (host : UInt64) : toLE 8 (htonll host).toNat = toBE 8 (exchangeHalves host.toNat) := by
  have hlen := length_toLE 8 (htonll host).toNat
  have back : UInt64.ofNat (ofLE (toLE 8 (htonll host).toNat)) = htonll host := by
    have := (htonll host).toNat_lt
    rw [ofLE_toLE, Nat.mod_eq_of_lt (by omega), UInt64.ofNat_toNat]
  have hhost := toNat_ntohll _ hlen
  have hbe := ofBE_lt (toLE 8 (htonll host).toNat)
  rw [hlen] at hbe
  rw [back, ntohll_htonll] at hhost
  rw [hhost, exchangeHalves_exchangeHalves (by omega)]
  have bytes := toLE_ofLE (toLE 8 (htonll host).toNat).reverse
  rw [List.length_reverse, hlen] at bytes
  rw [toBE, ofBE, bytes, List.reverse_reverse]

/-! ### One parse -/

section Parse
variable {s : State}

/-- The header length that `wsParseFrame` finds: the two first bytes, the extended length and the key. -/
def parsedHeader (m : Mem) : Nat :=
  if (m 1 &&& 0x7f).toUInt64 = 126 then 8 else if (m 1 &&& 0x7f).toUInt64 = 127 then 14 else 6

/-- The payload length that `wsParseFrame` finds. -/
def parsedLength (m : Mem) : UInt64 :=
  if (m 1 &&& 0x7f).toUInt64 = 126 then (ntohs (UInt16.ofNat (ofLE (slice m 2 2)))).toUInt64
  else if (m 1 &&& 0x7f).toUInt64 = 127 then ntohll (UInt64.ofNat (ofLE (slice m 2 8)))
  else (m 1 &&& 0x7f).toUInt64

/-- A memory with the `n` bytes from `payload` on unmasked by the key at `key`. -/
def unmask (m : Mem) (payload n key : Nat) : Mem := fun i =>
  if payload ≤ i ∧ i < payload + n then m i ^^^ m (key + (i - payload) % 4) else m i

theorem unmask_zero (m : Mem) (payload key : Nat) : unmask m payload 0 key = m := by
  funext i
  simp [unmask]

/-- The state of the unmasking loop after `j` turns: `j` bytes are unmasked, and nothing was touched but
    the key and these bytes. -/
structure Unmasked (s : State) (payload key j : Nat) (t : State) : Prop where
  mem : t.mem = unmask s.mem payload j key
  kept : ∀ i ∈ s.touched, i ∈ t.touched
  touched : ∀ i ∈ t.touched, i ∈ s.touched ∨ i < payload + j

theorem Unmasked.turn {t : State} {payload key j : Nat} (hkey : key + 4 ≤ payload)
    (h : Unmasked s payload key j t) : Unmasked s payload key (j + 1)
      ⟨Function.update t.mem (payload + j) (t.mem (payload + j) ^^^ t.mem (key + j % 4)),
        (payload + j) :: (payload + j) :: (key + j % 4) :: t.touched⟩ where
  mem := by
    have hj : j % 4 < 4 := Nat.mod_lt j (by omega)
    funext i
    rw [h.mem]
    by_cases hi : i = payload + j
    · subst hi
      simp only [Function.update_self, unmask]
      rw [if_neg (by omega), if_neg (by omega), if_pos (by omega), Nat.add_sub_cancel_left]
    · simp only [Function.update_of_ne hi, unmask]
      refine if_congr ?_ rfl rfl
      omega
  kept i hi := by simp [h.kept i hi]
  touched i hi := by
    have hj : j % 4 < 4 := Nat.mod_lt j (by omega)
    simp only [List.mem_cons] at hi
    rcases hi with rfl | rfl | rfl | hi
    · exact Or.inr (by omega)
    · exact Or.inr (by omega)
    · exact Or.inr (by omega)
    · exact (h.touched i hi).imp_right fun h => by omega

theorem run_wsPayloadUnmask (s : State) {payload key : Nat} (len : UInt64) (hkey : key + 4 ≤ payload) :
    Unmasked s payload key len.toNat ((wsPayloadUnmask payload len key).run s).2 := by
  have start : Unmasked s payload key 0 s := ⟨(unmask_zero _ _ _).symm, fun _ h => h, fun _ h => Or.inl h⟩
  have loop : Unmasked s payload key (0 + len.toNat) ((wsPayloadUnmask payload len key).run s).2 :=
    forRange_inv (Unmasked s payload key) start fun j t _ _ h => h.turn hkey
  rwa [Nat.zero_add] at loop

theorem shiftRight_seven (b : UInt8) : (b >>> 7 != 0) = decide (0x80 ≤ b) := by
  have hb : (b >>> 7).toNat = b.toNat / 128 := by
    rw [UInt8.toNat_shiftRight]
    exact Nat.shiftRight_eq_div_pow _ _
  rw [Bool.eq_iff_iff, bne_iff_ne, decide_eq_true_iff, ne_eq, ← UInt8.toNat_inj, hb, UInt8.le_iff_toNat_le]
  show ¬b.toNat / 128 = 0 ↔ 128 ≤ b.toNat
  omega

theorem wsParseFrame_unmasked (bufLen : UInt64) (frameOut : WsFrame) {m : Mem} (h : m 1 < 0x80) :
    (wsParseFrame bufLen frameOut).run { mem := m } =
      ((-1, { frameOut with opcode := m 0 &&& 0xf, fin := m 0 >>> 7 != 0 }), { mem := m, touched := [1, 1, 0, 0] }) := by
  have hmask : (m 1 >>> 7 != 0) = false := by
    rw [shiftRight_seven, decide_eq_false_iff_not, UInt8.not_le]
    exact h
  simp only [wsParseFrame, Prog.run_bind, run_load, hmask]
  rfl

theorem parsedHeader_le (m : Mem) : 6 ≤ parsedHeader m := by
  unfold parsedHeader
  split
  · omega
  · split <;> omega

theorem parsedHeader_le_fourteen (m : Mem) : parsedHeader m ≤ 14 := by
  unfold parsedHeader
  split
  · omega
  · split <;> omega

def parsed (m : Mem) : Int × WsFrame :=
  (parsedHeader m, ⟨m 0 >>> 7 != 0, m 0 &&& 0xf, parsedLength m, parsedHeader m⟩)

/-- Reading the header of a masked frame leaves the unmasking to be done, with nothing touched but header
    bytes before the key, the last of them included. -/
theorem wsParseFrame_header (bufLen : UInt64) (frameOut : WsFrame) {m : Mem} (h : 0x80 ≤ m 1) :
    ∃ t : State, t.mem = m ∧ 1 ∈ t.touched ∧ parsedHeader m - 5 ∈ t.touched ∧ (∀ i ∈ t.touched, i < parsedHeader m - 4) ∧
      (wsParseFrame bufLen frameOut).run { mem := m } =
        (parsed m, ((wsPayloadUnmask (parsedHeader m) (parsedLength m) (parsedHeader m - 4)).run t).2) := by
  have hmask : (m 1 >>> 7 != 0) = true := by
    rw [shiftRight_seven, decide_eq_true_iff]
    exact h
  simp only [wsParseFrame, Prog.run_bind, run_load, hmask, Bool.not_true, Bool.false_eq_true, if_false, parsed,
    parsedHeader, parsedLength]
  by_cases h126 : (m 1 &&& 0x7f).toUInt64 = 126
  · simp only [h126, if_true, Prog.run_bind, run_loadBytes]
    refine ⟨_, ?_, ?_, ?_, ?_, rfl⟩ <;> simp
    omega
  · simp only [h126, if_false]
    by_cases h127 : (m 1 &&& 0x7f).toUInt64 = 127
    · simp only [h127, if_true, Prog.run_bind, run_loadBytes]
      refine ⟨_, ?_, ?_, ?_, ?_, rfl⟩ <;> simp
      omega
    · simp only [h127, if_false]
      refine ⟨_, ?_, ?_, ?_, ?_, rfl⟩ <;> simp

/-- What a masked frame gives: the header it announces, the length read from it, the bytes at the payload
    unmasked, and nothing touched past their end. -/
theorem wsParseFrame_masked (bufLen : UInt64) (frameOut : WsFrame) {m : Mem} (h : 0x80 ≤ m 1) :
    ∃ t, (wsParseFrame bufLen frameOut).run { mem := m } = (parsed m, t) ∧
      t.mem = unmask m (parsedHeader m) (parsedLength m).toNat (parsedHeader m - 4) ∧
      1 ∈ t.touched ∧ Within (parsedHeader m + (parsedLength m).toNat) t := by
  obtain ⟨t, hmem, hone, -, htouched, hrun⟩ := wsParseFrame_header bufLen frameOut h
  have hsix := parsedHeader_le m
  have loop := run_wsPayloadUnmask t (parsedLength m) (show parsedHeader m - 4 + 4 ≤ parsedHeader m by omega)
  refine ⟨_, hrun, ?_, loop.kept 1 hone, fun i hi => ?_⟩
  · rw [loop.mem, hmem]
  · rcases loop.touched i hi with hi | hi
    · have := htouched i hi
      omega
    · exact hi

end Parse

/-! ### The header of a byte string -/

section Header
variable {bytes : List UInt8} {past : Mem}

theorem lengthBits_toNat (b : UInt8) : (b &&& 0x7f).toUInt64.toNat = b.toNat % 128 := by
  rw [UInt8.toNat_toUInt64, UInt8.toNat_and, show (0x7f : UInt8).toNat = 2 ^ 7 - 1 from rfl,
    Nat.and_two_pow_sub_one_eq_mod]

theorem lengthBits_eq {b : UInt8} {k : UInt64} : (b &&& 0x7f).toUInt64 = k ↔ b.toNat % 128 = k.toNat := by
  rw [← UInt64.toNat_inj, lengthBits_toNat]

theorem ofBytes_one (h : 2 ≤ bytes.length) : ofBytes bytes past 1 = bytes.getD 1 0 := by
  rw [ofBytes_of_lt h, List.getD_eq_getElem?_getD, List.getElem?_eq_getElem h, Option.getD_some]

theorem parsedHeader_ofBytes (h : 2 ≤ bytes.length) :
    parsedHeader (ofBytes bytes past) = Rfc6455.declaredHeader bytes := by
  simp only [parsedHeader, Rfc6455.declaredHeader, ofBytes_one h, lengthBits_eq]
  rfl

/-- The code finds the declared length where it is written in 7 or 16 bits, and the declared length with
    its halves exchanged where it is written in 64. -/
theorem parsedLength_ofBytes (h : Rfc6455.declaredHeader bytes ≤ bytes.length + 4) :
    (parsedLength (ofBytes bytes past)).toNat =
      if Rfc6455.declaredHeader bytes = 14 then exchangeHalves (Rfc6455.declaredLength bytes)
      else Rfc6455.declaredLength bytes := by
  have two : 2 ≤ bytes.length := by
    unfold Rfc6455.declaredHeader at h
    dsimp only at h
    split at h
    · omega
    · split at h <;> omega
  simp only [parsedLength, Rfc6455.declaredHeader, Rfc6455.declaredLength, ofBytes_one two, lengthBits_eq,
    show (126 : UInt64).toNat = 126 from rfl, show (127 : UInt64).toNat = 127 from rfl] at h ⊢
  by_cases h126 : (bytes.getD 1 0).toNat % 128 = 126
  · simp only [h126, if_true] at h ⊢
    have len : ((bytes.drop 2).take 2).length = 2 := by rw [List.length_take, List.length_drop]; omega
    rw [slice_ofBytes (by omega), UInt16.toNat_toUInt64, toNat_ntohs _ len, if_neg (by omega)]
  · simp only [h126, if_false] at h ⊢
    by_cases h127 : (bytes.getD 1 0).toNat % 128 = 127
    · simp only [h127, if_true] at h ⊢
      have len : ((bytes.drop 2).take 8).length = 8 := by rw [List.length_take, List.length_drop]; omega
      rw [slice_ofBytes (by omega), toNat_ntohll _ len]
    · simp only [h127, if_false, lengthBits_toNat]
      rfl

end Header

end Vcmp
