/-
  HftLab.Flat.Book — the aggregated book (orderbook_flat.hpp): per side a quantity for each price
  level, an occupancy bitmap and a cursor at the best level; orders by id keep what was submitted.

  `try_match` is a loop; `tryMatch` bounds it by `LEVELS` rounds, which is enough from any state that
  operations reach (each round moves a cursor towards the other). Quantities are 32-bit values.
  `traded` is not in the source: the sum of all `fill`s.
-/

import HftLab.Lib.Bitmap
import HftLab.Lib.Int32
import Mathlib.Algebra.Group.Nat.Defs
import Mathlib.Algebra.Order.Group.Unbundled.Int

namespace HftLab.Flat

open Lib

/-- The template argument with what is asserted of it. -/
structure Grid where
  levels : Nat
  levels_pow : ∃ k, levels = 2 ^ k
  levels_le : levels ≤ 2 ^ 30
  words_pos : 0 < levels / 64

def NO_BID : Int := -1

def Grid.NO_ASK (g : Grid) : Int := g.levels

def Grid.words (g : Grid) : Nat := g.levels / 64

/-- The arguments are accepted: price on the grid, quantity positive. -/
def Grid.valid (g : Grid) (price qty : Int) : Bool := !(price < 0 || g.levels ≤ price || qty ≤ 0)

structure OrderRef where
  price : Int
  qty : Int
  isBuy : Bool
  deriving DecidableEq, Repr

structure FlatBook where
  bidQty : Nat → Int := fun _ => 0
  askQty : Nat → Int := fun _ => 0
  bidBits : Bitmap := Bitmap.empty
  askBits : Bitmap := Bitmap.empty
  bestBid : Int := NO_BID
  bestAsk : Int
  trades : UInt64 := 0
  traded : Int := 0
  ordersById : Nat → Option OrderRef := fun _ => none

def fresh (g : Grid) : FlatBook := { bestAsk := g.NO_ASK }

/-- Highest occupied level at or below `p`, or `NO_BID`. -/
def scanDown (bits : Bitmap) (p : Int) : Int :=
  if p < 0 then NO_BID else ((bits.scanDown p.toNat).map Int.ofNat).getD NO_BID

/-- Lowest occupied level at or above `p`, or `NO_ASK`. -/
def scanUp (g : Grid) (bits : Bitmap) (p : Int) : Int :=
  if g.levels ≤ p then g.NO_ASK else ((bits.scanUp g.words p.toNat).map Int.ofNat).getD g.NO_ASK

namespace FlatBook

variable (g : Grid) (b : FlatBook)

/-! ## Matching -/

/-- The condition of the loop. -/
def crosses : Bool := b.bestBid ≠ NO_BID && b.bestAsk ≠ g.NO_ASK && b.bestAsk ≤ b.bestBid

/-- The BUY side of a round that leaves the best bid level at `q`. -/
def advanceBid (q : Int) : FlatBook :=
  let p := b.bestBid.toNat
  let b := { b with bidQty := Function.update b.bidQty p q }
  if q = 0 then { b with bidBits := b.bidBits.clearBit p, bestBid := scanDown (b.bidBits.clearBit p) b.bestBid } else b

/-- The SELL side of a round that leaves the best ask level at `q`. -/
def advanceAsk (q : Int) : FlatBook :=
  let p := b.bestAsk.toNat
  let b := { b with askQty := Function.update b.askQty p q }
  if q = 0 then { b with askBits := b.askBits.clearBit p, bestAsk := scanUp g (b.askBits.clearBit p) b.bestAsk } else b

/-- What the two best levels trade. -/
def fill : Int := min (b.bidQty b.bestBid.toNat) (b.askQty b.bestAsk.toNat)

/-- One round of `try_match`. -/
def matchBest : FlatBook :=
  let bidLeft := i32 (b.bidQty b.bestBid.toNat - b.fill)
  let askLeft := i32 (b.askQty b.bestAsk.toNat - b.fill)
  let b := { b with trades := b.trades + 1, traded := b.traded + b.fill }
  (b.advanceBid bidLeft).advanceAsk g askLeft

def tryMatchUpTo : Nat → FlatBook → FlatBook
  | 0, b => b
  | n + 1, b => if b.crosses g then tryMatchUpTo n (b.matchBest g) else b

def tryMatch : FlatBook := b.tryMatchUpTo g g.levels

/-! ## Operations -/

def placeBuy (price qty : Int) : FlatBook :=
  let p := price.toNat
  { b with
    bidBits := if b.bidQty p = 0 then b.bidBits.setBit p else b.bidBits
    bidQty := Function.update b.bidQty p (i32 (b.bidQty p + qty))
    bestBid := if b.bestBid < price then price else b.bestBid }

def placeSell (price qty : Int) : FlatBook :=
  let p := price.toNat
  { b with
    askBits := if b.askQty p = 0 then b.askBits.setBit p else b.askBits
    askQty := Function.update b.askQty p (i32 (b.askQty p + qty))
    bestAsk := if price < b.bestAsk then price else b.bestAsk }

def addBuy (price qty : Int) : Bool × FlatBook :=
  if g.valid price qty then (true, (b.placeBuy price qty).tryMatch g) else (false, b)

def addSell (price qty : Int) : Bool × FlatBook :=
  if g.valid price qty then (true, (b.placeSell price qty).tryMatch g) else (false, b)

def submitWithId (id : Nat) (price qty : Int) (isBuy : Bool) : Bool × FlatBook :=
  if !g.valid price qty then (false, b)
  else if (b.ordersById id).isSome then (false, b)
  else
    let b := { b with ordersById := Function.update b.ordersById id (some { price, qty, isBuy }) }
    let b := if isBuy then b.placeBuy price qty else b.placeSell price qty
    (true, b.tryMatch g)

def cancel (id : Nat) : Bool × FlatBook :=
  match b.ordersById id with
  | none => (false, b)
  | some ref =>
    let b := { b with ordersById := Function.update b.ordersById id none }
    let p := ref.price.toNat
    if ref.isBuy then
      let left := i32 (b.bidQty p - min ref.qty (b.bidQty p))
      let bits := if left = 0 then b.bidBits.clearBit p else b.bidBits
      (true, { b with bidQty := Function.update b.bidQty p left, bidBits := bits, bestBid := scanDown bits b.bestBid })
    else
      let left := i32 (b.askQty p - min ref.qty (b.askQty p))
      let bits := if left = 0 then b.askBits.clearBit p else b.askBits
      (true, { b with askQty := Function.update b.askQty p left, askBits := bits, bestAsk := scanUp g bits b.bestAsk })

def modify (id : Nat) (newPrice newQty : Int) : Bool × FlatBook :=
  match b.ordersById id with
  | none => (false, b)
  | some ref => (b.cancel g id).2.submitWithId g id newPrice newQty ref.isBuy

end FlatBook

/-! ## Runs -/

inductive Op where
  | addBuy (price qty : Int)
  | addSell (price qty : Int)
  | submitWithId (id : Nat) (price qty : Int) (isBuy : Bool)
  | cancel (id : Nat)
  | modify (id : Nat) (newPrice newQty : Int)
  deriving DecidableEq, Repr

def FlatBook.exec (g : Grid) (b : FlatBook) : Op → FlatBook
  | .addBuy price qty => (b.addBuy g price qty).2
  | .addSell price qty => (b.addSell g price qty).2
  | .submitWithId id price qty isBuy => (b.submitWithId g id price qty isBuy).2
  | .cancel id => (b.cancel g id).2
  | .modify id newPrice newQty => (b.modify g id newPrice newQty).2

/-- If the arguments are accepted, the level takes `qty` more without overflow. -/
def FlatBook.fits (g : Grid) (b : FlatBook) (isBuy : Bool) (price qty : Int) : Bool :=
  !g.valid price qty || (if isBuy then b.bidQty price.toNat else b.askQty price.toNat) + qty ≤ int32Max

/-- The call makes no level overflow. -/
def FlatBook.opFits (g : Grid) (b : FlatBook) : Op → Bool
  | .addBuy price qty => b.fits g true price qty
  | .addSell price qty => b.fits g false price qty
  | .submitWithId id price qty isBuy => (b.ordersById id).isSome || b.fits g isBuy price qty
  | .cancel _ => true
  | .modify id newPrice newQty => (b.ordersById id).all fun ref => (b.cancel g id).2.fits g ref.isBuy newPrice newQty

/-- What a fresh book can become without a level that overflows. -/
inductive Reach (g : Grid) : FlatBook → Prop
  | init : Reach g (fresh g)
  | step {b : FlatBook} (op : Op) : Reach g b → b.opFits g op = true → Reach g (b.exec g op)

end HftLab.Flat
