import Vcmp.Rfc1928
import Vcmp.Theorems.Frame
import Vcmp.Theorems.Socks5

/-! The request that `socks5_send_req` makes for a new context: for which destinations it is the one of RFC 1928. -/

namespace Vcmp.Socks5
open ByteOrder ByteMem CInt CString Rfc1928

variable {dest : Destination} {port : UInt16} {ctx : Ctx} {name : List UInt8} {buf block : Mem}

/-! ### New contexts -/

/-- The context for a destination; the arguments behind the port are what the allocations return. -/
def newCtx (dest : Destination) (port : UInt16) (malloc : Option Block) (mallocAddr : Option Mem) : Option Ctx :=
  match dest with
  | .hostname name _ => socks5CtxNewHostname name port malloc mallocAddr
  | .ipv4 addr => socks5CtxNewIpv4 (some addr) port malloc mallocAddr.isSome

def zeroBlock : Block := ⟨none, none, 0, 0⟩

/-- The hostname of a context that was made for `name`. -/
def storedName (block : Mem) (name : List UInt8) : Hostname :=
  ⟨(snprintf block 256 name).1, (snprintf block 256 name).2⟩

theorem target_ipv4 {addr : Vector UInt8 4} (h : ctx.ipv4Addr = some addr) : ctx.target = .inl addr := by
  obtain ⟨⟨hostname, ipv4Addr, dstPort, stage⟩, addressed⟩ := ctx
  subst h
  rfl

theorem target_hostname {hostname : Hostname} (hi : ctx.ipv4Addr = none) (hn : ctx.hostname = some hostname) :
    ctx.target = .inr hostname := by
  obtain ⟨⟨_, ipv4Addr, dstPort, stage⟩, addressed⟩ := ctx
  subst hi hn
  rfl

/-- How many bytes of the stored hostname are copied into the request. -/
def Ctx.copied (ctx : Ctx) : Nat :=
  match ctx.target with
  | .inl _ => 0
  | .inr hostname => toSize hostname.len

/-- How many bytes the stored hostname has. -/
def Ctx.stored (ctx : Ctx) : Nat :=
  match ctx.hostname with
  | none => 0
  | some hostname => (cstr hostname.hostname 0 256).length

/-! ### The bytes of a request -/

theorem put_chain {l₀ l₁ l₂ l₃ : List UInt8} {i₂ i₃ : Nat} (h₁ : l₀.length = 3) (h₂ : i₂ = 3 + l₁.length)
    (h₃ : i₃ = i₂ + l₂.length) :
    put (put (put (put buf 3 l₁) i₂ l₂) i₃ l₃) 0 l₀ = put buf 0 (l₀ ++ (l₁ ++ l₂ ++ l₃)) := by
  have htwo : put (put buf 3 l₁) i₂ l₂ = put buf 3 (l₁ ++ l₂) := h₂ ▸ put_append
  have hthree : put (put buf 3 (l₁ ++ l₂)) i₃ l₃ = put buf 3 (l₁ ++ l₂ ++ l₃) := by
    rw [h₃, h₂, Nat.add_assoc, ← List.length_append, put_append]
  have hfour : put (put buf (0 + l₀.length) (l₁ ++ l₂ ++ l₃)) 0 l₀ = put buf 0 (l₀ ++ (l₁ ++ l₂ ++ l₃)) := put_put
  rw [htwo, hthree, ← hfour, Nat.zero_add, h₁]

/-- What is sent where the allocation and the write succeed, and nothing otherwise. -/
def sends (malloc : Option Mem) (write : Bool) (bytes : List UInt8) : Int × Option (List UInt8) :=
  if malloc.isSome && write then (0, some bytes) else (1, none)

theorem sends_slice {bytes : List UInt8} {n : Int} (write : Bool) (hn : toSize n = bytes.length) :
    (if write then (0, some (slice (put buf 0 bytes) 0 (toSize n))) else (1, none)) = sends (some buf) write bytes := by
  rw [hn, slice_put]
  rfl

theorem sendReq_ipv4 {addr : Vector UInt8 4} (malloc : Option Mem) (write : Bool) (h : ctx.target = .inl addr) :
    socks5SendReq malloc write ctx = sends malloc write ([5, 1, 0] ++ (1 :: addr.toList) ++ toBE 2 ctx.dstPort.toNat) := by
  cases malloc with
  | none => rfl
  | some buf =>
    have hchain : put (put (put (put buf 3 [socks5AtypIpv4]) 4 addr.toList) 8 (toBE 2 ctx.dstPort.toNat)) 0
        [socks5Version, socks5CmdConnect, socks5Reserved] =
          put buf 0 ([5, 1, 0] ++ (1 :: addr.toList ++ toBE 2 ctx.dstPort.toNat)) :=
      put_chain rfl rfl (by rw [Vector.length_toList])
    simp only [socks5SendReq, h, toLE_htons]
    rw [hchain, ← List.append_assoc]
    exact sends_slice write (by simp [toSize])

theorem sendReq_hostname (malloc : Option Mem) (write : Bool) (short : name.length ≤ 255)
    (h : ctx.target = .inr (storedName block name)) :
    socks5SendReq malloc write ctx =
      sends malloc write ([5, 1, 0] ++ (3 :: UInt8.ofNat name.length :: name) ++ toBE 2 ctx.dstPort.toNat) := by
  cases malloc with
  | none => rfl
  | some buf =>
    have hlen : (storedName block name).len = name.length := if_pos (by omega)
    have hname : slice (storedName block name).hostname 0 name.length = name := by
      have htake : (storedName block name).hostname = put block 0 (name ++ [0]) :=
        congrArg (fun l => put block 0 (l ++ [0])) (List.take_of_length_le short)
      rw [htake, put_zero]
      exact slice_ofBytes_append [] name [0] _
    have hend : toSize ((storedName block name).len + 5) = 5 + name.length := by
      rw [hlen]
      exact (toSize_natCast (show name.length + 5 < 2 ^ 31 by omega)).trans (Nat.add_comm _ _)
    have htype : put (put buf 3 [socks5AtypDomainname]) 4 [UInt8.ofNat name.length] =
        put buf 3 [3, UInt8.ofNat name.length] := put_append
    have hchain : put (put (put (put buf 3 [3, UInt8.ofNat name.length]) 5 name) (5 + name.length)
        (toBE 2 ctx.dstPort.toNat)) 0 [socks5Version, socks5CmdConnect, socks5Reserved] =
          put buf 0 ([5, 1, 0] ++ (3 :: UInt8.ofNat name.length :: name ++ toBE 2 ctx.dstPort.toNat)) :=
      put_chain rfl rfl rfl
    have hsize : toSize ((storedName block name).len + 7) =
        ([5, 1, 0] ++ (3 :: UInt8.ofNat name.length :: name) ++ toBE 2 ctx.dstPort.toNat).length := by
      rw [hlen]
      refine (toSize_natCast (show name.length + 7 < 2 ^ 31 by omega)).trans ?_
      simp
    simp only [socks5SendReq, h, toLE_htons, hend]
    rw [hlen, toSize_natCast (by omega), hname, htype, hchain, ← List.append_assoc, ← hlen]
    exact sends_slice write hsize

/-! ### Every destination -/

/-- The context sends the request of RFC 1928 for its destination, or nothing if there is none, and copies no byte
    from behind the stored hostname. -/
structure Exact (dest : Destination) (port : UInt16) (ctx : Ctx) : Prop where
  encodes : dest.Representable → ∀ malloc write,
    socks5SendReq malloc write ctx = sends malloc write (connectRequest dest port)
  decodes : ∀ malloc write bytes, (socks5SendReq malloc write ctx).2 = some bytes → decodeRequest bytes = some (dest, port)
  refuses : ¬dest.Representable → ∀ malloc write,
    (socks5SendReq malloc write ctx).1 ≠ 0 ∧ (socks5SendReq malloc write ctx).2 = none
  inside : ctx.copied ≤ ctx.stored

theorem sendReq_sent (ctx : Ctx) (buf : Mem) : (socks5SendReq (some buf) true ctx).1 = 0 := rfl

theorem stored_storedName (clean : 0 ∉ name) (short : name.length ≤ 255) :
    cstr (storedName block name).hostname 0 256 = name := by
  have htake : (storedName block name).hostname = put block 0 (name ++ [0]) :=
    congrArg (fun l => put block 0 (l ++ [0])) (List.take_of_length_le short)
  have hslice := slice_put (m := block) (l := name ++ [0])
  rw [List.length_append] at hslice
  rw [htake, cstr_eq_iff clean (Nat.lt_succ_of_le short)]
  exact hslice

theorem Exact.of_sends (inside : ctx.copied ≤ ctx.stored) (fits : dest.Representable)
    (h : ∀ malloc write, socks5SendReq malloc write ctx = sends malloc write (connectRequest dest port)) :
    Exact dest port ctx := by
  refine ⟨fun _ => h, fun malloc write bytes hbytes => ?_, absurd fits, inside⟩
  rw [h, sends] at hbytes
  split at hbytes
  · obtain rfl := Option.some.inj hbytes
    exact decodeRequest_connectRequest fits
  · cases hbytes

/-- The request of a new context is exact if and only if a name is short enough for its length byte. -/
theorem exact_iff (made : newCtx dest port (some zeroBlock) (some fun _ => 0) = some ctx) :
    Exact dest port ctx ↔ dest.Representable := by
  refine ⟨fun exact => ?_, fun fits => ?_⟩
  · by_contra hlong
    exact (exact.refuses hlong (some fun _ => 0) true).1 (sendReq_sent ctx _)
  · cases dest with
    | ipv4 addr =>
      obtain rfl := Option.some.inj made
      exact .of_sends (Nat.zero_le _) fits fun malloc write => sendReq_ipv4 malloc write (target_ipv4 rfl)
    | hostname name clean =>
      have hname : ctx.hostname = some (storedName (fun _ => 0) name) ∧ ctx.ipv4Addr = none := by
        rw [← Option.some.inj made]
        exact ⟨rfl, rfl⟩
      have hport : ctx.dstPort = port := by rw [← Option.some.inj made]
      have htarget := target_hostname hname.2 hname.1
      have short : name.length ≤ 255 := fits
      have hlen : (storedName (fun _ => 0) name).len = name.length := if_pos (by omega)
      refine .of_sends ?_ fits fun malloc write => ?_
      · simp only [Ctx.copied, Ctx.stored, htarget, hname.1, stored_storedName clean short]
        rw [hlen, toSize_natCast (by omega)]
      · rw [sendReq_hostname malloc write short htarget, hport]
        rfl

/-- Port 80 of the address 127.0.0.1. -/
theorem exact_iff_sample : Exact (.ipv4 #v[127, 0, 0, 1]) 80
    ⟨⟨none, some #v[127, 0, 0, 1], 80, 0⟩, Or.inl rfl⟩ ↔ (Destination.ipv4 #v[127, 0, 0, 1]).Representable :=
  exact_iff rfl

theorem clean_replicate (n : Nat) : 0 ∉ List.replicate n (97 : UInt8) := fun h =>
  absurd (List.eq_of_mem_replicate h) (by decide)

/-- The request for a name of 256 bytes is sent, with the length byte 0. -/
theorem long_not_exact : ∃ ctx,
    newCtx (.hostname (List.replicate 256 97) (clean_replicate 256)) 80 (some zeroBlock) (some fun _ => 0) = some ctx ∧
    (socks5SendReq (some fun _ => 0) true ctx).2.map (List.take 6) = some [5, 1, 0, 3, 0, 97] ∧
    ¬Exact (.hostname (List.replicate 256 97) (clean_replicate 256)) 80 ctx := by
  refine ⟨_, rfl, by decide +kernel, fun exact => ?_⟩
  have hlong : ¬(Destination.hostname (List.replicate 256 97) (clean_replicate 256)).Representable := by
    show ¬(List.replicate 256 (97 : UInt8)).length ≤ 255
    rw [List.length_replicate]
    decide
  exact (exact.refuses hlong (some fun _ => 0) true).1 (sendReq_sent _ _)

end Vcmp.Socks5
