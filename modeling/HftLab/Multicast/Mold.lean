/-
  HftLab.Multicast.Mold — MoldUDP64 datagrams (multicast.hpp): a header of 20 bytes and blocks of a length and a message.

  The writers change a buffer from an offset on. The readers get the `len` bytes of a datagram; none of them looks beyond.
-/

import HftLab.Lib.Layout
import HftLab.Multicast.Feed

namespace HftLab.Multicast

open Lib

/-! ## Big-endian numbers -/

def writeU16Be (val : Nat) : List UInt8 := [UInt8.ofNat (val >>> 8), UInt8.ofNat val]

def writeU32Be (val : Nat) : List UInt8 :=
  [UInt8.ofNat (val >>> 24), UInt8.ofNat (val >>> 16), UInt8.ofNat (val >>> 8), UInt8.ofNat val]

def writeU64Be (val : Nat) : List UInt8 :=
  [UInt8.ofNat (val >>> 56), UInt8.ofNat (val >>> 48), UInt8.ofNat (val >>> 40), UInt8.ofNat (val >>> 32),
    UInt8.ofNat (val >>> 24), UInt8.ofNat (val >>> 16), UInt8.ofNat (val >>> 8), UInt8.ofNat val]

/-- The byte at an index. -/
def byteAt (buf : List UInt8) (i : Nat) : Nat := (buf.getD i 0).toNat

def readU16Be (buf : List UInt8) : Nat := byteAt buf 0 <<< 8 ||| byteAt buf 1

def readU32Be (buf : List UInt8) : Nat := byteAt buf 0 <<< 24 ||| byteAt buf 1 <<< 16 ||| byteAt buf 2 <<< 8 ||| byteAt buf 3

def readU64Be (buf : List UInt8) : Nat :=
  byteAt buf 0 <<< 56 ||| byteAt buf 1 <<< 48 ||| byteAt buf 2 <<< 40 ||| byteAt buf 3 <<< 32 ||| byteAt buf 4 <<< 24 |||
    byteAt buf 5 <<< 16 ||| byteAt buf 6 <<< 8 ||| byteAt buf 7

/-- `memcpy` of `n` bytes at an offset. -/
def readBytes (buf : List UInt8) (off n : Nat) : Vector UInt8 n := Vector.ofFn fun i => buf.getD (off + i.1) 0

/-! ## Messages -/

def mcMsgSize : Nat := 40

structure MarketDataMessage where
  sequence : UInt64
  timestampNs : UInt64
  symbol : Vector UInt8 8
  price : Int64
  quantity : UInt32
  side : UInt8
  msgType : UInt8
  deriving DecidableEq

/-- The fields of a message at their offsets; the two bytes of padding are zero. -/
def MarketDataMessage.fields (msg : MarketDataMessage) (off : Nat) : List (Nat × List UInt8) :=
  [(off + 0, writeU64Be msg.sequence.toNat), (off + 8, writeU64Be msg.timestampNs.toNat), (off + 16, msg.symbol.toList),
    (off + 24, writeU64Be msg.price.toUInt64.toNat), (off + 32, writeU32Be msg.quantity.toNat), (off + 36, [msg.side]),
    (off + 37, [msg.msgType]), (off + 38, [0]), (off + 39, [0])]

/-- The message is written at `off`. -/
def serialize (msg : MarketDataMessage) (buf : List UInt8) (off : Nat) : List UInt8 := putAll buf (msg.fields off)

/-- The message at the front of `buf`, of `len` bytes. -/
def deserialize (buf : List UInt8) (len : Nat) : Option MarketDataMessage :=
  if len < mcMsgSize then none
  else
    some
      { sequence := UInt64.ofNat (readU64Be (buf.drop 0))
        timestampNs := UInt64.ofNat (readU64Be (buf.drop 8))
        symbol := readBytes buf 16 8
        price := (UInt64.ofNat (readU64Be (buf.drop 24))).toInt64
        quantity := UInt32.ofNat (readU32Be (buf.drop 32))
        side := buf.getD 36 0
        msgType := buf.getD 37 0 }

/-! ## Datagrams -/

def moldHeaderSize : Nat := 20

def moldSessionLen : Nat := 10

def moldHeartbeat : UInt16 := 0

def moldEndOfSession : UInt16 := 0xFFFF

structure MoldUDP64Header where
  session : Vector UInt8 10
  sequence : UInt64
  messageCount : UInt16
  deriving DecidableEq

/-- The session is padded with spaces. -/
def headerFields (session : List UInt8) (seq : UInt64) (count : UInt16) : List (Nat × List UInt8) :=
  [(0, pad 32 moldSessionLen (cString session)), (10, writeU64Be seq.toNat), (18, writeU16Be count.toNat)]

def moldWriteHeader (buf session : List UInt8) (seq : UInt64) (count : UInt16) : List UInt8 :=
  putAll buf (headerFields session seq count)

def moldReadHeader (buf : List UInt8) : Option MoldUDP64Header :=
  if buf.length < moldHeaderSize then none
  else
    some
      { session := readBytes buf 0 10
        sequence := UInt64.ofNat (readU64Be (buf.drop 10))
        messageCount := UInt16.ofNat (readU16Be (buf.drop 18)) }

/-- One turn of the loop of `mold_serialize_packet`, at the offset reached. -/
def writeBlock (x : Nat × List UInt8) (msg : MarketDataMessage) : Nat × List UInt8 :=
  let buf := put x.2 x.1 (writeU16Be mcMsgSize)
  let off := x.1 + 2
  (off + mcMsgSize, serialize msg buf off)

/-- The size of the packet, 0 when the buffer is too small, and the buffer after it. -/
def moldSerializePacket (buf : List UInt8) (cap : Nat) (session : List UInt8) (firstSeq : UInt64) (msgs : List MarketDataMessage)
    (count : UInt16) : Nat × List UInt8 :=
  if cap < moldHeaderSize + count.toNat * (2 + mcMsgSize) then (0, buf)
  else (msgs.take count.toNat).foldl writeBlock (moldHeaderSize, moldWriteHeader buf session firstSeq count)

/-- The loop of `mold_parse_packet` with `n` blocks to go: whether all of them were there, and the messages delivered. -/
def parseBlocks (buf : List UInt8) : Nat → Nat → Bool × List MarketDataMessage
  | 0, _ => (true, [])
  | n + 1, off =>
    if buf.length < off + 2 then (false, [])
    else
      let mlen := readU16Be (buf.drop off)
      let off := off + 2
      if buf.length < off + mlen then (false, [])
      else
        let msg := if mcMsgSize ≤ mlen then deserialize (buf.drop off) mlen else none
        let rest := parseBlocks buf n (off + mlen)
        (rest.1, msg.toList ++ rest.2)

/-- Heartbeat or end of session. -/
def MoldUDP64Header.IsControl (h : MoldUDP64Header) : Prop := h.messageCount = moldHeartbeat ∨ h.messageCount = moldEndOfSession

instance (h : MoldUDP64Header) : Decidable h.IsControl := inferInstanceAs (Decidable (_ ∨ _))

/-- The messages that the packet takes the place of. -/
def MoldUDP64Header.count (h : MoldUDP64Header) : Nat := if h.IsControl then 0 else h.messageCount.toNat

structure Parsed where
  ret : Int
  header : Option MoldUDP64Header
  tracker : Option SequenceTracker
  delivered : List MarketDataMessage

def moldParsePacket (buf : List UInt8) (tracker : Option SequenceTracker) : Parsed :=
  match moldReadHeader buf with
  | none => { ret := -1, header := none, tracker, delivered := [] }
  | some h =>
    let tracker := tracker.map fun t => (t.observePacket h.sequence.toNat h.count).2
    if h.IsControl then { ret := 0, header := some h, tracker, delivered := [] }
    else
      let r := parseBlocks buf h.messageCount.toNat moldHeaderSize
      { ret := if r.1 then h.messageCount.toNat else -1, header := some h, tracker, delivered := r.2 }

end HftLab.Multicast
