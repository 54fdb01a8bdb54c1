import Vcmp.Lib.Memory

/-! `src/websockets/frame.c`, built for a little-endian host other than macOS. -/

namespace Vcmp
open ByteOrder ByteMem

/-! ### Byte order

`arpa/inet.h` on a little-endian host swaps the bytes of a word; the 64-bit versions are the file's own. -/

def ntohs (net : UInt16) : UInt16 := UInt16.ofNat (swap 2 net.toNat)

def ntohl (net : UInt32) : UInt32 := UInt32.ofNat (swap 4 net.toNat)

def htons (host : UInt16) : UInt16 := UInt16.ofNat (swap 2 host.toNat)

def htonl (host : UInt32) : UInt32 := UInt32.ofNat (swap 4 host.toNat)

def ntohll (net : UInt64) : UInt64 :=
  let high := ntohl (net >>> 32).toUInt32
  let low := ntohl (net &&& 0xFFFFFFFF).toUInt32
  (high.toUInt64 <<< 32) ||| low.toUInt64

def htonll (host : UInt64) : UInt64 :=
  let high := htonl (host >>> 32).toUInt32
  let low := htonl (host &&& 0xFFFFFFFF).toUInt32
  (high.toUInt64 <<< 32) ||| low.toUInt64

/-! ### Frames -/

def wsOpcodeText : UInt8 := 1
def wsOpcodeBinary : UInt8 := 2
def wsOpcodeClose : UInt8 := 8

/-- `ws_frame_t`; `start` is the offset of `begin` in the parsed buffer. -/
structure WsFrame where
  fin : Bool
  opcode : UInt8
  len : UInt64
  start : Nat
  deriving DecidableEq

def wsPayloadUnmask (payload : Nat) (payloadLen : UInt64) (maskingKey : Nat) : Prog Unit :=
  forRange (fun i => do
    let k ← load (maskingKey + i % 4)
    let b ← load (payload + i)
    store (payload + i) (b ^^^ k)) 0 payloadLen.toNat

/-- Parses the frame at the start of the memory, as `ws_parse_frame(buf, buf_len, frame_out)` does. The
    source reads `*frame_out` nowhere and `buf_len` nowhere. -/
def wsParseFrame (_bufLen : UInt64) (frameOut : WsFrame) : Prog (Int × WsFrame) := do
  let opcode := (← load 0) &&& 0xf
  let fin := (← load 0) >>> 7 != 0
  let frameOut := { frameOut with opcode, fin }
  let payloadLen := ((← load 1) &&& 0x7f).toUInt64
  let masked := (← load 1) >>> 7 != 0
  if !masked then
    return (-1, frameOut)
  let payloadBegin := 2
  let (payloadLen, payloadBegin) ←
    if payloadLen = 126 then do
      let net := UInt16.ofNat (ofLE (← loadBytes payloadBegin 2))
      pure ((ntohs net).toUInt64, payloadBegin + 2)
    else if payloadLen = 127 then do
      let net := UInt64.ofNat (ofLE (← loadBytes payloadBegin 8))
      pure (ntohll net, payloadBegin + 8)
    else pure (payloadLen, payloadBegin)
  let maskingKey := payloadBegin
  let payloadBegin := payloadBegin + 4
  wsPayloadUnmask payloadBegin payloadLen maskingKey
  return (payloadBegin, { frameOut with start := payloadBegin, len := payloadLen })

def wsCalcFrameSize (payloadLen : UInt64) : Int :=
  let r := 2
  if payloadLen ≤ 125 then r
  else r + (if payloadLen ≤ 65535 then 2 else 8)

/-- Writes a frame header at the start of the memory, as `ws_make_frame` does where `buf_out` is not
    `NULL`; every caller passes a buffer. -/
def wsMakeFrame (fin : Bool) (opcode : UInt8) (payloadLen bufLen : UInt64) : Prog Int := do
  if bufLen < 2 then
    return -1
  store 0 (((if fin then 1 else 0) : UInt8) <<< 7 ||| opcode)
  if payloadLen ≤ 125 then
    store 1 payloadLen.toUInt8
    return 2
  else if payloadLen ≤ 65535 then
    store 1 126
    storeBytes 2 (toLE 2 (htons payloadLen.toUInt16).toNat)
    return 4
  else
    store 1 127
    storeBytes 2 (toLE 8 (htonll payloadLen).toNat)
    return 10

end Vcmp
