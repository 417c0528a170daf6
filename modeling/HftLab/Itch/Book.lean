/-
  HftLab.Itch.Book — the book rebuilt from the ITCH feed (itch_book.hpp): resting orders by reference, and beside them the
  quantity at each price of each side.

  `double` is a type `D`, and `toTicks` is what `to_ticks` makes of a price. The counters of the tape wrap at their widths;
  the levels and the withdrawn shares are at most the shares added, and are not wrapped. `audit_book` cross-checks the two
  structures.
-/

import HftLab.Lib.Tally

namespace HftLab.Itch

open Lib

structure Resting where
  side : Char
  priceTicks : Int
  shares : Nat
  deriving DecidableEq, Repr

/-- Totals and marks of the executions. -/
structure Tape where
  execSharesSum : Int := 0
  execNotionalTicks : Int := 0
  execAgainstBid : Int := 0
  execAgainstAsk : Int := 0
  execNotionalBidTicks : Int := 0
  execNotionalAskTicks : Int := 0
  sellPrints : Nat := 0
  buyPrints : Nat := 0
  maxCumDelta : Int := 0
  minCumDelta : Int := 0
  execPrints : Nat := 0
  largestPrint : Nat := 0
  lastTradeTicks : Int := 0
  lastTradeBuy : Bool := false
  lastTickDir : Int := 0
  aggressorRun : Int := 0
  maxBuyRun : Int := 0
  maxSellRun : Int := 0
  deriving DecidableEq, Repr

/-- The tape after `dec` shares of `r` were executed. -/
def Tape.print (t : Tape) (r : Resting) (dec : Nat) : Tape :=
  let notional := i64 (dec * r.priceTicks)
  let t :=
    { t with
      execSharesSum := i64 (t.execSharesSum + dec)
      execNotionalTicks := i64 (t.execNotionalTicks + notional) }
  let t :=
    if r.side = 'B' then
      { t with
        execAgainstBid := i64 (t.execAgainstBid + dec)
        execNotionalBidTicks := i64 (t.execNotionalBidTicks + notional)
        sellPrints := uint64 (t.sellPrints + 1) }
    else
      { t with
        execAgainstAsk := i64 (t.execAgainstAsk + dec)
        execNotionalAskTicks := i64 (t.execNotionalAskTicks + notional)
        buyPrints := uint64 (t.buyPrints + 1) }
  let cd := i64 (t.execAgainstAsk - t.execAgainstBid)
  let lastTickDir :=
    if t.lastTradeTicks = 0 then t.lastTickDir
    else if t.lastTradeTicks < r.priceTicks then 1
    else if r.priceTicks < t.lastTradeTicks then -1
    else t.lastTickDir
  let buy := r.side == 'S'
  let run :=
    if 0 < t.aggressorRun ∧ buy then i32 (t.aggressorRun + 1)
    else if t.aggressorRun < 0 ∧ !buy then i32 (t.aggressorRun - 1)
    else if buy then 1 else -1
  { t with
    maxCumDelta := max t.maxCumDelta cd
    minCumDelta := min t.minCumDelta cd
    execPrints := uint64 (t.execPrints + 1)
    largestPrint := max t.largestPrint dec
    lastTradeTicks := r.priceTicks
    lastTradeBuy := buy
    lastTickDir
    aggressorRun := run
    maxBuyRun := if t.maxBuyRun < run then run else t.maxBuyRun
    maxSellRun :=
      if t.maxBuyRun < run then t.maxSellRun else if t.maxSellRun < i32 (-run) then i32 (-run) else t.maxSellRun }

structure ITCHOrderBook where
  orders : Table Int Resting := ∅
  bids : Table Int Int := ∅
  asks : Table Int Int := ∅
  adds : Nat := 0
  executes : Nat := 0
  cancels : Nat := 0
  deletes : Nat := 0
  replaces : Nat := 0
  orphans : Nat := 0
  tape : Tape := {}
  pulledBid : Int := 0
  pulledAsk : Int := 0
  repriceTicksSum : Int := 0
  repriced : Nat := 0
  maxRepriceTicks : Int := 0

/-- What the parser makes of a message, as far as `apply` looks at it. -/
inductive ParsedMessage (D : Type) where
  | addOrder (orderRef : Int) (side : Char) (price : D) (shares : Nat)
  | addOrderMpid (orderRef : Int) (side : Char) (price : D) (shares : Nat)
  | orderExecuted (orderRef : Int) (execShares : Nat)
  | orderCancelled (orderRef : Int) (cancelledShares : Nat)
  | deleteOrder (orderRef : Int)
  | replaceOrder (origOrderRef newOrderRef : Int) (newPrice : D) (newShares : Nat)
  | other
  deriving DecidableEq, Repr

namespace ITCHOrderBook

variable {D : Type} (toTicks : D → Int) (b : ITCHOrderBook)

def sideBook (side : Char) : Table Int Int := if side = 'B' then b.bids else b.asks

def setSideBook (side : Char) (levels : Table Int Int) : ITCHOrderBook :=
  if side = 'B' then { b with bids := levels } else { b with asks := levels }

/-- What an event of `qty` shares takes from the order. -/
def clamp (r : Resting) (qty : Nat) : Nat := if qty < r.shares then qty else r.shares

def reduce (ref : Int) (qty : Nat) : ITCHOrderBook :=
  match b.orders.lookup ref with
  | none => { b with orphans := uint64 (b.orphans + 1) }
  | some r =>
    let dec := clamp r qty
    let b' := b.setSideBook r.side (lower (b.sideBook r.side) r.priceTicks dec)
    { b' with
      orders := if r.shares - dec = 0 then b.orders.erase ref else b.orders.insert ref { r with shares := r.shares - dec } }

def onAdd (ref : Int) (side : Char) (price : D) (shares : Nat) : ITCHOrderBook :=
  if shares = 0 then b
  else
    let px := toTicks price
    let b' := b.setSideBook side (raise (b.sideBook side) px shares)
    { b' with orders := b.orders.insert ref { side, priceTicks := px, shares }, adds := uint64 (b.adds + 1) }

def onExecute (ref : Int) (execShares : Nat) : ITCHOrderBook :=
  let b' :=
    match b.orders.lookup ref with
    | none => b
    | some r => { b with tape := b.tape.print r (clamp r execShares) }
  let b' := b'.reduce ref execShares
  { b' with executes := uint64 (b'.executes + 1) }

/-- Shares withdrawn from the order's side. -/
def pull (r : Resting) (shares : Nat) : ITCHOrderBook :=
  if r.side = 'B' then { b with pulledBid := b.pulledBid + shares } else { b with pulledAsk := b.pulledAsk + shares }

def onCancel (ref : Int) (cancelledShares : Nat) : ITCHOrderBook :=
  let b' :=
    match b.orders.lookup ref with
    | none => b
    | some r => b.pull r (clamp r cancelledShares)
  let b' := b'.reduce ref cancelledShares
  { b' with cancels := uint64 (b'.cancels + 1) }

def onDelete (ref : Int) : ITCHOrderBook :=
  match b.orders.lookup ref with
  | none => { b with orphans := uint64 (b.orphans + 1), deletes := uint64 (b.deletes + 1) }
  | some r =>
    let b' := (b.pull r r.shares).reduce ref r.shares
    { b' with deletes := uint64 (b'.deletes + 1) }

/-- `on_add` counts an add, which a replace is not; when it adds nothing the count is lowered all the same. -/
def onReplace (origRef newRef : Int) (newPrice : D) (newShares : Nat) : ITCHOrderBook :=
  match b.orders.lookup origRef with
  | none => { b with orphans := uint64 (b.orphans + 1), replaces := uint64 (b.replaces + 1) }
  | some r =>
    let move := |toTicks newPrice - r.priceTicks|
    let b' :=
      { b with
        repriceTicksSum := b.repriceTicksSum + move
        maxRepriceTicks := max b.maxRepriceTicks move
        repriced := uint64 (b.repriced + 1) }
    let b' := (b'.reduce origRef r.shares).onAdd toTicks newRef r.side newPrice newShares
    { b' with adds := uint64 (b'.adds + 18446744073709551615), replaces := uint64 (b'.replaces + 1) }

def apply : ParsedMessage D → ITCHOrderBook
  | .addOrder ref side price shares | .addOrderMpid ref side price shares => b.onAdd toTicks ref side price shares
  | .orderExecuted ref execShares => b.onExecute ref execShares
  | .orderCancelled ref cancelledShares => b.onCancel ref cancelledShares
  | .deleteOrder ref => b.onDelete ref
  | .replaceOrder origRef newRef newPrice newShares => b.onReplace toTicks origRef newRef newPrice newShares
  | .other => b

def totalShares (side : Char) : Int := sumOver (b.sideBook side) id

/-! ## The audit -/

end ITCHOrderBook

end HftLab.Itch
