/-
  HftLab.Ouch.SoupBin — the SoupBinTCP transport (soupbin.hpp) and the client of a session (soupbin_session.hpp).

  A packet is the length of its rest in two bytes, a type and a payload. `pack_*` write packets, `parse_packet` takes one off
  the front of a buffer, `consume` hands all of them to the client.
-/

import HftLab.Ouch.Protocol

namespace HftLab.Ouch

open Lib

/-- The cast of a byte may give a value outside of the enumeration. -/
inductive PacketType where
  | sequencedData
  | serverHeartbeat
  | loginAccepted
  | loginRejected
  | endOfSession
  | debug
  | unsequencedData
  | clientHeartbeat
  | loginRequest
  | logoutRequest
  | other (code : UInt8)
  deriving DecidableEq, Repr

def PacketType.ofByte (b : UInt8) : PacketType :=
  match Char.ofNat b.toNat with
  | 'S' => .sequencedData
  | 'H' => .serverHeartbeat
  | 'A' => .loginAccepted
  | 'J' => .loginRejected
  | 'Z' => .endOfSession
  | '+' => .debug
  | 'U' => .unsequencedData
  | 'R' => .clientHeartbeat
  | 'L' => .loginRequest
  | 'O' => .logoutRequest
  | _ => .other b

def PacketType.toByte : PacketType → UInt8
  | sequencedData => 'S'.toUInt8
  | serverHeartbeat => 'H'.toUInt8
  | loginAccepted => 'A'.toUInt8
  | loginRejected => 'J'.toUInt8
  | endOfSession => 'Z'.toUInt8
  | debug => '+'.toUInt8
  | unsequencedData => 'U'.toUInt8
  | clientHeartbeat => 'R'.toUInt8
  | loginRequest => 'L'.toUInt8
  | logoutRequest => 'O'.toUInt8
  | other code => code

def headerSize : Nat := 3

def writeU16Be (val : Nat) : List UInt8 := [UInt8.ofNat (val >>> 8), UInt8.ofNat val]

def readU16Be (src : List UInt8) : Nat := (src.getD 0 0).toNat <<< 8 ||| (src.getD 1 0).toNat

/-! ## Writing -/

def uint16 (x : Nat) : Nat := x % 65536

def packHeader (type : PacketType) (payloadLen : Nat) : Encoded where
  fields := [(0, writeU16Be (uint16 (1 + payloadLen))), (2, [type.toByte])]
  length := headerSize

def packHeartbeat (clientSide : Bool) : Encoded := packHeader (if clientSide then .clientHeartbeat else .serverHeartbeat) 0

/-- Nothing is written, and 0 returned. -/
def refused : Encoded := { fields := [], length := 0 }

def packData (cap : Nat) (payload : List UInt8) (clientSide : Bool) : Encoded :=
  if cap < headerSize + payload.length then refused
  else
    { fields := (packHeader (if clientSide then .unsequencedData else .sequencedData) payload.length).fields ++ [(headerSize, payload)]
      length := headerSize + payload.length }

def packLoginRequest (cap : Nat) (username password session sequence : List UInt8) : Encoded :=
  if cap < headerSize + 46 then refused
  else
    { fields :=
        (packHeader .loginRequest 46).fields ++
          [(headerSize, writePadded username 6), (headerSize + 6, writePadded password 10), (headerSize + 16, writePadded session 10),
            (headerSize + 26, writePadded sequence 20)]
      length := headerSize + 46 }

def packLogoutRequest : Encoded := packHeader .logoutRequest 0

def packEnterOrder (cap : Nat) (token : List UInt8) (side : UInt8) (shares : Int) (stock : List UInt8) (price : Nat)
    (tif : UInt8) : Encoded :=
  packData cap ((enterOrder token side shares stock price tif).message []) true

def packCancelOrder (cap : Nat) (token : List UInt8) (shares : Int) : Encoded :=
  packData cap ((cancelOrder token shares).message []) true

def packReplaceOrder (cap : Nat) (existingToken newToken : List UInt8) (shares : Int) (price : Nat) : Encoded :=
  packData cap ((replaceOrder existingToken newToken shares price).message []) true

/-! ## Reading -/

structure ParsedPacket where
  type : PacketType := .debug
  payload : List UInt8 := []
  valid : Bool := false
  deriving DecidableEq, Repr

/-- The packet at the front of the buffer, and `out_consumed`. -/
def parsePacket (buf : List UInt8) : ParsedPacket × Nat :=
  let len := buf.length
  if len < headerSize then ({}, 0)
  else
    let restLen := readU16Be buf
    if restLen < 1 then ({}, 0)
    else
      let total := 2 + restLen
      if len < total then ({}, 0)
      else ({ type := .ofByte (buf.getD 2 0), payload := slice buf headerSize (restLen - 1), valid := true }, total)

structure SequenceTracker where
  expected : Nat := 1
  received : Nat := 0
  gaps : Nat := 0
  deriving DecidableEq, Repr

def SequenceTracker.observeSequenced (t : SequenceTracker) : SequenceTracker :=
  { t with expected := uint64 (t.expected + 1), received := uint64 (t.received + 1) }

def SequenceTracker.resetTo (startingSeq : Nat) : SequenceTracker := { expected := startingSeq, received := 0, gaps := 0 }

/-- The digits of the field; every other character is passed over. -/
def parseSeqnum (p : List UInt8) : Nat :=
  p.foldl (fun v c => if '0'.toUInt8 ≤ c ∧ c ≤ '9'.toUInt8 then uint64 (v * 10 + (c.toNat - '0'.toNat)) else v) 0

structure OuchSessionClient where
  loggedIn : Bool := false
  sessionEnded : Bool := false
  loginRejectReason : UInt8 := 0
  seq : SequenceTracker := {}
  accepts : Nat := 0
  executes : Nat := 0
  cancels : Nat := 0
  rejects : Nat := 0
  replaces : Nat := 0
  heartbeats : Nat := 0
  errors : Nat := 0
  others : Nat := 0
  deriving DecidableEq, Repr

namespace OuchSessionClient

def onPacket (c : OuchSessionClient) (p : ParsedPacket) : OuchSessionClient :=
  if !p.valid then { c with errors := uint64 (c.errors + 1) }
  else
    match p.type with
    | .loginAccepted =>
      let s := parseSeqnum (slice p.payload 10 20)
      { c with
        loggedIn := true
        seq := if 30 ≤ p.payload.length then .resetTo (if s = 0 then 1 else s) else c.seq }
    | .loginRejected =>
      { c with
        loggedIn := false
        errors := uint64 (c.errors + 1)
        loginRejectReason := if 1 ≤ p.payload.length then p.payload.getD 0 0 else c.loginRejectReason }
    | .sequencedData =>
      let c := { c with seq := c.seq.observeSequenced }
      match (parseResponse p.payload).type with
      | .accepted => { c with accepts := uint64 (c.accepts + 1) }
      | .executed => { c with executes := uint64 (c.executes + 1) }
      | .cancelled => { c with cancels := uint64 (c.cancels + 1) }
      | .rejected => { c with rejects := uint64 (c.rejects + 1) }
      | .replaced => { c with replaces := uint64 (c.replaces + 1) }
      | .error | .unknown => { c with errors := uint64 (c.errors + 1) }
      | _ => { c with others := uint64 (c.others + 1) }
    | .serverHeartbeat => { c with heartbeats := uint64 (c.heartbeats + 1) }
    | .endOfSession => { c with sessionEnded := true }
    | .debug => c
    | _ => { c with errors := uint64 (c.errors + 1) }

end OuchSessionClient

/-- The loop of `consume` from `off` on, for any handler of packets; its turns are fewer than the bytes. -/
def consumeLoop {σ : Type} (onPacket : σ → ParsedPacket → σ) (buf : List UInt8) : Nat → Nat → σ → σ × Nat
  | 0, off, s => (s, off)
  | fuel + 1, off, s =>
    if off < buf.length then
      let (p, used) := parsePacket (buf.drop off)
      if !p.valid then (s, off) else consumeLoop onPacket buf fuel (off + used) (onPacket s p)
    else (s, off)

def consumeWith {σ : Type} (onPacket : σ → ParsedPacket → σ) (s : σ) (buf : List UInt8) : σ × Nat :=
  consumeLoop onPacket buf buf.length 0 s

def OuchSessionClient.consume (c : OuchSessionClient) (buf : List UInt8) : OuchSessionClient × Nat :=
  consumeWith OuchSessionClient.onPacket c buf

end HftLab.Ouch
