import Vcmp.Lib.Memory

/-! `include/protocol.h` and `src/protocol.c`: the packets and their headers. The structures are packed and
    their numbers are in host order, which is little-endian here. -/

namespace Vcmp
open ByteOrder ByteMem

def vcmpMagic : List UInt8 := [0x56, 0x43, 0x4d, 0x50, 0]
def vcmpVersion : UInt8 := 1

def vcmpTypeVerify : UInt8 := 1
def vcmpTypeHsInit : UInt8 := 2
def vcmpTypeHsAck : UInt8 := 3
def vcmpTypeData : UInt8 := 4

/-- `vcmp_header_t` -/
structure VcmpHeader where
  magic : List UInt8
  version : UInt8
  type : UInt8
  deriving DecidableEq

/-- `vcmp_handshake_t` with the bytes of its flexible array. -/
structure VcmpHandshake where
  header : VcmpHeader
  keylen : UInt32
  pubkey : List UInt8
  deriving DecidableEq

/-- `vcmp_data_t` with the bytes of its flexible array. -/
structure VcmpData where
  header : VcmpHeader
  messageUuid : List UInt8
  timestamp : UInt64
  len : UInt32
  payload : List UInt8
  deriving DecidableEq

def sizeofHeader : Nat := 7
def sizeofHandshake : Nat := 11
def sizeofData : Nat := 35

/-! ### Packets in memory -/

def VcmpHeader.bytes (h : VcmpHeader) : List UInt8 := h.magic ++ [h.version, h.type]

def VcmpHandshake.bytes (h : VcmpHandshake) : List UInt8 := h.header.bytes ++ toLE 4 h.keylen.toNat ++ h.pubkey

def VcmpData.bytes (d : VcmpData) : List UInt8 :=
  d.header.bytes ++ d.messageUuid ++ toLE 8 d.timestamp.toNat ++ toLE 4 d.len.toNat ++ d.payload

/-- The header behind a pointer. -/
def VcmpHeader.read (m : Mem) : VcmpHeader := ⟨slice m 0 5, m 5, m 6⟩

def readKeylen (m : Mem) : UInt32 := UInt32.ofNat (ofLE (slice m 7 4))

def readLen (m : Mem) : UInt32 := UInt32.ofNat (ofLE (slice m 31 4))

/-! ### Generation -/

def vcmpGenHeader (type : UInt8) : VcmpHeader := ⟨vcmpMagic, vcmpVersion, type⟩

/-- `malloc` tells whether the allocation succeeds. The header's type is `VCMP_TYPE_HS_INIT` whatever
    `type` is. -/
def vcmpGenHsHeader (malloc : Bool) (_type : UInt8) (keylen : UInt32) (pubkey : List UInt8) : Option VcmpHandshake :=
  if malloc then
    some { header := vcmpGenHeader vcmpTypeHsInit, keylen, pubkey := pubkey.take keylen.toNat }
  else none

/-- Fills the header of a data packet whose payload the caller copies in; `uuid` and `time` are what
    `uuid_generate` and `time` give. -/
def vcmpGenDataHeader (uuid : Vector UInt8 16) (time : UInt64) (payloadSize : UInt32) (payload : List UInt8) :
    VcmpData :=
  { header := vcmpGenHeader vcmpTypeData, messageUuid := uuid.toList, timestamp := time, len := payloadSize, payload }

end Vcmp
