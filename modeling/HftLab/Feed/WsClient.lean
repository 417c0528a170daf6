/-
  HftLab.Feed.WsClient — WebSocket frames (ws_client.hpp): `send_frame`, `recv_all` and `recv_text` of a connected client.

  The bytes to come are cut into the segments that `recv` meets: it gives what is wanted of the first one, and the rest of it the next
  time; after the last one the peer has closed. `send` takes everything. `random_bytes` gives the mask keys.

  What `recv_text` returns is its value and the bytes that it stands for in `out`; what else it leaves there is left out. A length is
  64-bit in the source, which eight bytes fit.
-/

import HftLab.Lib.Int32

namespace HftLab.Feed

open Lib

abbrev MaskKey := Vector UInt8 4

inductive WsOpcode where
  | continuation
  | text
  | binary
  | close
  | ping
  | pong
  deriving DecidableEq, Repr

def WsOpcode.toByte : WsOpcode → UInt8
  | .continuation => 0x0
  | .text => 0x1
  | .binary => 0x2
  | .close => 0x8
  | .ping => 0x9
  | .pong => 0xA

structure WsClient where
  inbound : List (List UInt8)
  randoms : Nat → MaskKey
  asked : Nat := 0
  sent : List UInt8 := []

/-! ## Sending -/

/-- `mask_key[i & 3]`. -/
def maskAt (key : List UInt8) (i : Nat) : UInt8 := key.getD (i &&& 3) 0

/-- The first bytes of a frame, up to the mask key. -/
def frameHeader (opcode : WsOpcode) (len : Nat) : List UInt8 :=
  (0x80 ||| opcode.toByte) ::
    if len < 126 then [0x80 ||| UInt8.ofNat len]
    else if len ≤ 0xFFFF then [0x80 ||| 126, UInt8.ofNat (len >>> 8 &&& 0xFF), UInt8.ofNat (len &&& 0xFF)]
    else (0x80 ||| 127) :: (List.range 8).map fun i => UInt8.ofNat (len >>> (8 * (7 - i)) &&& 0xFF)

def CHUNK : Nat := 1024

/-- The chunks from `sent` on. -/
def sendChunks (key payload : List UInt8) : Nat → Nat → List UInt8
  | 0, _ => []
  | turns + 1, sent =>
    if sent < payload.length then
      let n := min (payload.length - sent) CHUNK
      ((List.range n).map fun i => payload.getD (sent + i) 0 ^^^ maskAt key (sent + i)) ++ sendChunks key payload turns (sent + n)
    else []

/-- The bytes of a frame. -/
def frameBytes (opcode : WsOpcode) (key : MaskKey) (payload : List UInt8) : List UInt8 :=
  frameHeader opcode payload.length ++ (key.toList ++ sendChunks key.toList payload payload.length 0)

namespace WsClient

def sendFrame (c : WsClient) (opcode : WsOpcode) (payload : List UInt8) : WsClient :=
  { c with sent := c.sent ++ frameBytes opcode (c.randoms c.asked) payload, asked := c.asked + 1 }

end WsClient

/-! ## Receiving -/

/-- `recv` of at most `n` bytes, none when the peer has closed, and what is still to come. -/
def recv (n : Nat) : List (List UInt8) → List UInt8 × List (List UInt8)
  | [] => ([], [])
  | seg :: segs => (seg.take n, if seg.drop n = [] then segs else seg.drop n :: segs)

/-- The loop of `recv_all` with `n` bytes missing; each turn takes one at least. -/
def recvLoop : Nat → Nat → List (List UInt8) → Option (List UInt8) × List (List UInt8)
  | _, 0, inbound => (some [], inbound)
  | 0, _ + 1, inbound => (none, inbound)
  | turns + 1, n + 1, inbound =>
    let r := recv (n + 1) inbound
    if r.1 = [] then (none, r.2)
    else
      let rest := recvLoop turns (n + 1 - r.1.length) r.2
      (rest.1.map (r.1 ++ ·), rest.2)

def recvAll (n : Nat) (inbound : List (List UInt8)) : Option (List UInt8) × List (List UInt8) := recvLoop n n inbound

/-- The length of the payload, from the seven bits of the second byte on. -/
def recvLen (len : Nat) (inbound : List (List UInt8)) : Option Nat × List (List UInt8) :=
  if len = 126 then
    let r := recvAll 2 inbound
    (r.1.map fun ext => (ext.getD 0 0).toNat <<< 8 ||| (ext.getD 1 0).toNat, r.2)
  else if len = 127 then
    let r := recvAll 8 inbound
    (r.1.map fun ext => ext.foldl (fun len b => len <<< 8 ||| b.toNat) 0, r.2)
  else (some len, inbound)

def unmask (key out : List UInt8) : List UInt8 := out.mapIdx fun i b => b ^^^ maskAt key i

/-- One turn of `recv_text` up to the `switch`: the opcode and the payload. -/
def recvFrame (maxLen : Nat) (inbound : List (List UInt8)) : Option (UInt8 × List UInt8) × List (List UInt8) :=
  match recvAll 2 inbound with
  | (none, inbound) => (none, inbound)
  | (some h, inbound) =>
    let opcode := h.getD 0 0 &&& 0x0F
    let masked : Bool := h.getD 1 0 &&& 0x80 ≠ 0
    match recvLen (h.getD 1 0 &&& 0x7F).toNat inbound with
    | (none, inbound) => (none, inbound)
    | (some len, inbound) =>
      match if masked then recvAll 4 inbound else (some [0, 0, 0, 0], inbound) with
      | (none, inbound) => (none, inbound)
      | (some key, inbound) =>
        if maxLen < len then (none, inbound)
        else
          match recvAll len inbound with
          | (none, inbound) => (none, inbound)
          | (some out, inbound) => (some (opcode, if masked then unmask key out else out), inbound)

namespace WsClient

/-- The loop of `recv_text`; each turn takes a byte at least. -/
def recvTextLoop (maxLen : Nat) : Nat → WsClient → (Int × List UInt8) × WsClient
  | 0, c => ((-1, []), c)
  | turns + 1, c =>
    match recvFrame maxLen c.inbound with
    | (none, inbound) => ((-1, []), { c with inbound })
    | (some (opcode, out), inbound) =>
      let c := { c with inbound }
      if opcode = WsOpcode.text.toByte ∨ opcode = WsOpcode.binary.toByte then ((i32 out.length, out), c)
      else if opcode = WsOpcode.ping.toByte then recvTextLoop maxLen turns (c.sendFrame .pong out)
      else if opcode = WsOpcode.pong.toByte then recvTextLoop maxLen turns c
      else if opcode = WsOpcode.close.toByte then ((0, []), c.sendFrame .close out)
      else recvTextLoop maxLen turns c

def recvText (maxLen : Nat) (c : WsClient) : (Int × List UInt8) × WsClient := c.recvTextLoop maxLen (c.inbound.flatten.length + 1)

/-- `n` calls, one after the other. -/
def recvTexts (maxLen : Nat) : Nat → WsClient → List (Int × List UInt8) × WsClient
  | 0, c => ([], c)
  | n + 1, c =>
    let rest := recvTexts maxLen n (c.recvText maxLen).2
    ((c.recvText maxLen).1 :: rest.1, rest.2)

end WsClient

end HftLab.Feed
