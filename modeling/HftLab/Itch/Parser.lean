/-
  HftLab.Itch.Parser — `ITCHParser::parse` (itch_parser.hpp): what the bytes of one message say.

  A text is the bytes of its field, padding included. A price is the number on the wire, which `ofRaw` divides by 10000.0. The
  counts of `Stats` are left out. `Message.forBook` is what the order book looks at.
-/

import HftLab.Itch.Book
import HftLab.Lib.Layout

namespace HftLab.Itch

open Lib

def readBe64 (p : List UInt8) : Int := i64 (beNat (p.take 8))

def readBe32 (p : List UInt8) : Nat := beNat (p.take 4)

def charAt (d : List UInt8) (i : Nat) : Char := Char.ofNat (d.getD i 0).toNat

inductive Message (D : Type) where
  | addOrder (timestampNs orderRef : Int) (side : Char) (shares : Nat) (stock : List UInt8) (price : D)
  | addOrderMpid (timestampNs orderRef : Int) (side : Char) (shares : Nat) (stock : List UInt8) (price : D) (mpid : List UInt8)
  | deleteOrder (timestampNs orderRef : Int)
  | replaceOrder (timestampNs origOrderRef newOrderRef : Int) (newShares : Nat) (newPrice : D)
  | orderExecuted (timestampNs orderRef : Int) (execShares : Nat) (matchNumber : Int)
  | orderCancelled (timestampNs orderRef : Int) (cancelledShares : Nat)
  | trade (timestampNs orderRef : Int) (side : Char) (shares : Nat) (stock : List UInt8) (price : D) (matchNumber : Int)
  | systemEvent (timestampNs : Int) (eventCode : Char)
  | stockDirectory (timestampNs : Int) (stock : List UInt8) (marketCategory : Char)
  | unknown
  | error
  deriving DecidableEq, Repr

def Message.forBook {D : Type} : Message D → ParsedMessage D
  | .addOrder _ ref side shares _ price => .addOrder ref side price shares
  | .addOrderMpid _ ref side shares _ price _ => .addOrderMpid ref side price shares
  | .orderExecuted _ ref execShares _ => .orderExecuted ref execShares
  | .orderCancelled _ ref cancelledShares => .orderCancelled ref cancelledShares
  | .deleteOrder _ ref => .deleteOrder ref
  | .replaceOrder _ origRef newRef newShares newPrice => .replaceOrder origRef newRef newPrice newShares
  | _ => .other

section

variable {D : Type} (ofRaw : Nat → D) (d : List UInt8)

def parseAddOrder : Message D :=
  if d.length < 34 then .error
  else
    .addOrder (readBe64 (d.drop 1)) (readBe64 (d.drop 9)) (charAt d 17) (readBe32 (d.drop 18)) (slice d 22 8)
      (ofRaw (readBe32 (d.drop 30)))

def parseAddOrderMpid : Message D :=
  if d.length < 38 then .error
  else
    .addOrderMpid (readBe64 (d.drop 1)) (readBe64 (d.drop 9)) (charAt d 17) (readBe32 (d.drop 18)) (slice d 22 8)
      (ofRaw (readBe32 (d.drop 30))) (slice d 34 4)

def parseDeleteOrder : Message D :=
  if d.length < 17 then .error else .deleteOrder (readBe64 (d.drop 1)) (readBe64 (d.drop 9))

def parseReplaceOrder : Message D :=
  if d.length < 33 then .error
  else
    .replaceOrder (readBe64 (d.drop 1)) (readBe64 (d.drop 9)) (readBe64 (d.drop 17)) (readBe32 (d.drop 25))
      (ofRaw (readBe32 (d.drop 29)))

def parseOrderExecuted : Message D :=
  if d.length < 29 then .error
  else .orderExecuted (readBe64 (d.drop 1)) (readBe64 (d.drop 9)) (readBe32 (d.drop 17)) (readBe64 (d.drop 21))

def parseOrderCancelled : Message D :=
  if d.length < 21 then .error else .orderCancelled (readBe64 (d.drop 1)) (readBe64 (d.drop 9)) (readBe32 (d.drop 17))

def parseTrade : Message D :=
  if d.length < 42 then .error
  else
    .trade (readBe64 (d.drop 1)) (readBe64 (d.drop 9)) (charAt d 17) (readBe32 (d.drop 18)) (slice d 22 8)
      (ofRaw (readBe32 (d.drop 30))) (readBe64 (d.drop 34))

def parseSystemEvent : Message D := if d.length < 10 then .error else .systemEvent (readBe64 (d.drop 1)) (charAt d 9)

def parseStockDirectory : Message D :=
  if d.length < 18 then .error else .stockDirectory (readBe64 (d.drop 1)) (slice d 9 8) (charAt d 17)

def parse : Message D :=
  if d.length < 1 then .error
  else
    match charAt d 0 with
    | 'A' => parseAddOrder ofRaw d
    | 'F' => parseAddOrderMpid ofRaw d
    | 'D' => parseDeleteOrder d
    | 'U' => parseReplaceOrder ofRaw d
    | 'E' => parseOrderExecuted d
    | 'C' => parseOrderCancelled d
    | 'P' => parseTrade ofRaw d
    | 'S' => parseSystemEvent d
    | 'R' => parseStockDirectory d
    | _ => .unknown

end

end HftLab.Itch
