/-
  HftLab.Ouch.Protocol — the OUCH 4.2 messages (ouch_protocol.hpp): what the client and the exchange write, and what
  `parse_response` and `parse_order` read.

  A call that writes is a `Layout`: its fields at their offsets of the caller's buffer, and the length it returns. A price is
  its wire value, a count of 1/10000. A `char` array is the text it holds.
-/

import HftLab.Lib.Int32
import HftLab.Lib.Layout

namespace HftLab.Ouch

open Lib

/-! ## Numbers and texts -/

def writeU32Be (val : Nat) : List UInt8 :=
  [UInt8.ofNat (val >>> 24), UInt8.ofNat (val >>> 16), UInt8.ofNat (val >>> 8), UInt8.ofNat val]

def readU32Be (src : List UInt8) : Nat :=
  (src.getD 0 0).toNat <<< 24 ||| (src.getD 1 0).toNat <<< 16 ||| (src.getD 2 0).toNat <<< 8 ||| (src.getD 3 0).toNat

def writeU64Be (val : Nat) : List UInt8 := (List.range 8).map fun i => UInt8.ofNat (val >>> ((7 - i) * 8))

def readU64Be (src : List UInt8) : Nat := (List.range 8).foldl (fun val i => val <<< 8 ||| (src.getD i 0).toNat) 0

/-- An `int64_t` as the `uint64_t` it is passed on as. -/
def uint64Of (x : Int) : Nat := (x % 18446744073709551616).toNat

def space : UInt8 := 32

def writePadded (src : List UInt8) (len : Nat) : List UInt8 := pad space len (cString src)

/-- The text of a field, without the spaces that fill it up. -/
def stripPadding (src : List UInt8) (len : Nat) : List UInt8 := cString (unpad space (src.take len))

def charAt (data : List UInt8) (i : Nat) : Char := Char.ofNat (data.getD i 0).toNat

/-! ## Client to exchange -/

abbrev Encoded := Layout UInt8

def enterOrder (token : List UInt8) (side : UInt8) (shares : Int) (stock : List UInt8) (price : Nat) (tif : UInt8) : Encoded where
  fields :=
    [(0, ['O'.toUInt8]), (1, writePadded token 14), (15, [side]), (16, writeU32Be (uint32Of shares)), (20, writePadded stock 8),
      (28, writeU32Be price), (32, [tif])]
  length := 33

def cancelOrder (token : List UInt8) (shares : Int) : Encoded where
  fields := [(0, ['X'.toUInt8]), (1, writePadded token 14), (15, writeU32Be (uint32Of shares))]
  length := 19

def replaceOrder (existingToken newToken : List UInt8) (shares : Int) (price : Nat) : Encoded where
  fields :=
    [(0, ['U'.toUInt8]), (1, writePadded existingToken 14), (15, writePadded newToken 14), (29, writeU32Be (uint32Of shares)),
      (33, writeU32Be price)]
  length := 37

def modifyOrder (token : List UInt8) (newShares : Int) : Encoded where
  fields := [(0, ['M'.toUInt8]), (1, writePadded token 14), (15, writeU32Be (uint32Of newShares))]
  length := 19

/-! ## Exchange to client -/

def encodeAccepted (token : List UInt8) (side : UInt8) (shares : Int) (stock : List UInt8) (price : Nat) (orderRef : Int)
    (tif : UInt8) : Encoded where
  fields :=
    [(0, ['A'.toUInt8]), (1, writePadded token 14), (15, [side]), (16, writeU32Be (uint32Of shares)), (20, writePadded stock 8),
      (28, writeU32Be price), (32, [tif]), (33, writeU64Be (uint64Of orderRef))]
  length := 41

def encodeExecuted (token : List UInt8) (shares : Int) (price : Nat) (matchNumber : Int) : Encoded where
  fields :=
    [(0, ['E'.toUInt8]), (1, writePadded token 14), (15, writeU32Be (uint32Of shares)), (19, writeU32Be price),
      (23, writeU64Be (uint64Of matchNumber))]
  length := 31

def encodeCancelled (token : List UInt8) (shares : Int) (reason : UInt8) : Encoded where
  fields := [(0, ['C'.toUInt8]), (1, writePadded token 14), (15, writeU32Be (uint32Of shares)), (19, [reason])]
  length := 20

def encodeRejected (token : List UInt8) (reason : UInt8) : Encoded where
  fields := [(0, ['J'.toUInt8]), (1, writePadded token 14), (15, [reason])]
  length := 16

def encodeCancelReject (token : List UInt8) (reason : UInt8) : Encoded where
  fields := [(0, ['I'.toUInt8]), (1, writePadded token 14), (15, [reason])]
  length := 16

def encodeCancelPending (token : List UInt8) : Encoded where
  fields := [(0, ['P'.toUInt8]), (1, writePadded token 14)]
  length := 15

def encodeAiqCanceled (token : List UInt8) (decrementShares : Int) (reason : UInt8) : Encoded where
  fields := [(0, ['D'.toUInt8]), (1, writePadded token 14), (15, writeU32Be (uint32Of decrementShares)), (19, [reason])]
  length := 20

def encodeSystemEvent (timestamp : Int) (eventCode : UInt8) : Encoded where
  fields := [(0, ['S'.toUInt8]), (1, writeU64Be (uint64Of timestamp)), (9, [eventCode])]
  length := 10

def encodeRestated (token : List UInt8) (shares : Int) (price : Nat) (reason : UInt8) : Encoded where
  fields :=
    [(0, ['R'.toUInt8]), (1, writePadded token 14), (15, writeU32Be (uint32Of shares)), (19, writeU32Be price), (23, [reason])]
  length := 24

def encodeReplaced (replToken prevToken : List UInt8) (shares : Int) (price : Nat) (orderRef : Int) : Encoded where
  fields :=
    [(0, ['U'.toUInt8]), (1, writePadded replToken 14), (15, writePadded prevToken 14), (29, writeU32Be (uint32Of shares)),
      (33, writeU32Be price), (37, writeU64Be (uint64Of orderRef))]
  length := 45

def encodeBrokenTrade (token : List UInt8) (shares matchNumber : Int) (reason : UInt8) : Encoded where
  fields :=
    [(0, ['B'.toUInt8]), (1, writePadded token 14), (15, writeU32Be (uint32Of shares)), (19, writeU64Be (uint64Of matchNumber)),
      (27, [reason])]
  length := 28

/-- The length of an exchange message by its type, 0 when the type is unknown. -/
def expectedLength : Char → Nat
  | 'A' => 41
  | 'C' => 20
  | 'E' => 31
  | 'J' => 16
  | 'U' => 45
  | 'B' => 28
  | 'I' => 16
  | 'P' => 15
  | 'D' => 20
  | 'S' => 10
  | 'R' => 24
  | _ => 0

/-! ## Reading -/

inductive ResponseType where
  | accepted
  | cancelled
  | executed
  | broken
  | rejected
  | cxlReject
  | cxlPend
  | aiqCxl
  | sysEvent
  | restated
  | replaced
  | error
  | unknown
  deriving DecidableEq, Repr

inductive Side where
  | buy
  | sell
  deriving DecidableEq, Repr

structure OUCHResponse where
  type : ResponseType
  token : List UInt8 := []
  side : Option Side := none
  shares : Int := 0
  stock : List UInt8 := []
  price : Nat := 0
  orderRef : Int := 0
  matchNumber : Int := 0
  reason : UInt8 := 0
  errorMsg : String := ""
  prevToken : List UInt8 := []
  deriving DecidableEq, Repr

def tooShort (name : String) (len need : Nat) : OUCHResponse where
  type := .error
  errorMsg := name ++ " too short: " ++ toString len ++ " < " ++ toString need ++ " bytes"

def parseResponse (data : List UInt8) : OUCHResponse :=
  let len := data.length
  if len < 1 then { type := .error, errorMsg := "empty response" }
  else
    match charAt data 0 with
    | 'A' =>
      if len < 41 then tooShort "ACCEPTED" len 41
      else
        { type := .accepted
          token := stripPadding (data.drop 1) 14
          side := some (if charAt data 15 = 'B' then .buy else .sell)
          shares := i32 (readU32Be (data.drop 16))
          stock := stripPadding (data.drop 20) 8
          price := readU32Be (data.drop 28)
          orderRef := i64 (readU64Be (data.drop 33)) }
    | 'C' =>
      if len < 20 then tooShort "CANCELLED" len 20
      else
        { type := .cancelled
          token := stripPadding (data.drop 1) 14
          shares := i32 (readU32Be (data.drop 15))
          reason := data.getD 19 0 }
    | 'E' =>
      if len < 31 then tooShort "EXECUTED" len 31
      else
        { type := .executed
          token := stripPadding (data.drop 1) 14
          shares := i32 (readU32Be (data.drop 15))
          price := readU32Be (data.drop 19)
          matchNumber := i64 (readU64Be (data.drop 23)) }
    | 'B' =>
      if len < 28 then tooShort "BROKEN" len 28
      else
        { type := .broken
          token := stripPadding (data.drop 1) 14
          shares := i32 (readU32Be (data.drop 15))
          matchNumber := i64 (readU64Be (data.drop 19))
          reason := data.getD 27 0 }
    | 'J' =>
      if len < 16 then tooShort "REJECTED" len 16
      else { type := .rejected, token := stripPadding (data.drop 1) 14, reason := data.getD 15 0 }
    | 'I' =>
      if len < 16 then tooShort "CANCEL_REJECT" len 16
      else { type := .cxlReject, token := stripPadding (data.drop 1) 14, reason := data.getD 15 0 }
    | 'P' =>
      if len < 15 then tooShort "CANCEL_PENDING" len 15
      else { type := .cxlPend, token := stripPadding (data.drop 1) 14 }
    | 'D' =>
      if len < 20 then tooShort "AIQ_CANCEL" len 20
      else
        { type := .aiqCxl
          token := stripPadding (data.drop 1) 14
          shares := i32 (readU32Be (data.drop 15))
          reason := data.getD 19 0 }
    | 'S' =>
      if len < 10 then tooShort "SYS_EVENT" len 10
      else { type := .sysEvent, matchNumber := i64 (readU64Be (data.drop 1)), reason := data.getD 9 0 }
    | 'R' =>
      if len < 24 then tooShort "RESTATED" len 24
      else
        { type := .restated
          token := stripPadding (data.drop 1) 14
          shares := i32 (readU32Be (data.drop 15))
          price := readU32Be (data.drop 19)
          reason := data.getD 23 0 }
    | 'U' =>
      if len < 45 then tooShort "REPLACED" len 45
      else
        { type := .replaced
          token := stripPadding (data.drop 1) 14
          prevToken := stripPadding (data.drop 15) 14
          shares := i32 (readU32Be (data.drop 29))
          price := readU32Be (data.drop 33)
          orderRef := i64 (readU64Be (data.drop 37)) }
    | _ => { type := .unknown }

/-- The loop of `parse_stream` from `off` on. Each turn takes at least one byte, so the length of the data is fuel enough. -/
def parseStreamLoop {σ : Type} (onMsg : σ → OUCHResponse → σ) (data : List UInt8) : Nat → Nat → σ → σ × Nat
  | 0, off, s => (s, off)
  | fuel + 1, off, s =>
    if off < data.length then
      let mlen := expectedLength (charAt data off)
      if mlen = 0 then (s, off)
      else if data.length < off + mlen then (s, off)
      else parseStreamLoop onMsg data fuel (off + mlen) (onMsg s (parseResponse (slice data off mlen)))
    else (s, off)

/-- What `on_msg` makes of the messages, and how many bytes were consumed. -/
def parseStream {σ : Type} (onMsg : σ → OUCHResponse → σ) (s : σ) (data : List UInt8) : σ × Nat :=
  parseStreamLoop onMsg data data.length 0 s

structure OUCHOrder where
  type : Char := 'E'
  token : List UInt8 := []
  newToken : List UInt8 := []
  side : UInt8 := space
  shares : Int := 0
  stock : List UInt8 := []
  price : Nat := 0
  tif : UInt8 := space
  valid : Bool := false
  deriving DecidableEq, Repr

def parseOrder (data : List UInt8) : OUCHOrder :=
  let len := data.length
  if len < 1 then {}
  else
    match charAt data 0 with
    | 'O' =>
      if len < 33 then {}
      else
        { type := 'O'
          token := stripPadding (data.drop 1) 14
          side := data.getD 15 0
          shares := i32 (readU32Be (data.drop 16))
          stock := stripPadding (data.drop 20) 8
          price := readU32Be (data.drop 28)
          tif := data.getD 32 0
          valid := true }
    | 'X' =>
      if len < 19 then {}
      else
        { type := 'X'
          token := stripPadding (data.drop 1) 14
          shares := i32 (readU32Be (data.drop 15))
          valid := true }
    | 'U' =>
      if len < 37 then {}
      else
        { type := 'U'
          token := stripPadding (data.drop 1) 14
          newToken := stripPadding (data.drop 15) 14
          shares := i32 (readU32Be (data.drop 29))
          price := readU32Be (data.drop 33)
          valid := true }
    | 'M' =>
      if len < 19 then {}
      else
        { type := 'M'
          token := stripPadding (data.drop 1) 14
          shares := i32 (readU32Be (data.drop 15))
          valid := true }
    | _ => {}

end HftLab.Ouch
