import Vcmp.Lib.ByteOrder

/-! The CONNECT request of SOCKS5 in its own terms: where it leads to, and its bytes. Nothing here is read off the
    code. -/

namespace Vcmp.Rfc1928
open ByteOrder

/-- A destination as a program gives it; a name is a string, so no byte of it is zero. -/
inductive Destination where
  | hostname (name : List UInt8) (clean : 0 ∉ name)
  | ipv4 (addr : Vector UInt8 4)

/-- The length of a name has to fit into a byte. -/
def Destination.Representable : Destination → Prop
  | .hostname name _ => name.length ≤ 255
  | .ipv4 _ => True

/-- `DST.ADDR` behind its type. -/
def Destination.bytes : Destination → List UInt8
  | .hostname name _ => 3 :: UInt8.ofNat name.length :: name
  | .ipv4 addr => 1 :: addr.toList

def connectRequest (dest : Destination) (port : UInt16) : List UInt8 :=
  [5, 1, 0] ++ dest.bytes ++ toBE 2 port.toNat

/-- The address and what follows it, as many bytes as its type or its length byte says. -/
def decodeAddress : List UInt8 → Option (Destination × List UInt8)
  | 1 :: a :: b :: c :: d :: rest => some (.ipv4 #v[a, b, c, d], rest)
  | 3 :: n :: rest =>
    if h : n.toNat ≤ rest.length ∧ 0 ∉ rest.take n.toNat then some (.hostname _ h.2, rest.drop n.toNat) else none
  | _ => none

def decodeRequest : List UInt8 → Option (Destination × UInt16)
  | 5 :: 1 :: 0 :: rest => do
    let (dest, port) ← decodeAddress rest
    if port.length = 2 then some (dest, UInt16.ofNat (ofBE port)) else none
  | _ => none

variable {dest : Destination} {port : UInt16} {rest : List UInt8}

theorem decodeAddress_bytes (h : dest.Representable) : decodeAddress (dest.bytes ++ rest) = some (dest, rest) := by
  cases dest with
  | ipv4 addr =>
    obtain ⟨⟨l⟩, hsize⟩ := addr
    match l, hsize with
    | [a, b, c, d], _ => rfl
  | hostname name clean =>
    have hn : (UInt8.ofNat name.length).toNat = name.length := by
      rw [UInt8.toNat_ofNat']
      exact Nat.mod_eq_of_lt (Nat.lt_succ_of_le h)
    have hcond : name.length ≤ (name ++ rest).length ∧ 0 ∉ (name ++ rest).take name.length := by
      rw [List.take_left, List.length_append]
      exact ⟨Nat.le_add_right _ _, clean⟩
    simp only [Destination.bytes, List.cons_append, decodeAddress, hn]
    rw [dif_pos hcond]
    simp only [List.take_left, List.drop_left]

/-- Decoding the request of a destination that fits gives back where it leads to. -/
theorem decodeRequest_connectRequest (h : dest.Representable) :
    decodeRequest (connectRequest dest port) = some (dest, port) := by
  have hlt := port.toNat_lt
  have hport : UInt16.ofNat (ofBE (toBE 2 port.toNat)) = port := by
    rw [ofBE_toBE, Nat.mod_eq_of_lt (by omega), UInt16.ofNat_toNat]
  simp only [connectRequest, List.cons_append, List.nil_append, decodeRequest, decodeAddress_bytes h]
  simp [hport]

end Vcmp.Rfc1928
