/-
  HftLab.OrderBook.Matching — the matching engine: `fok_fillable`, `walk_the_book`,
  `cancel_internal`, `match_at_level` and `match_against`.

  The two matching loops take fuel and answer `none` when it runs out: a call returns in the
  source exactly when some fuel is enough. One pass through the body of `match_at_level`'s loop
  is `visitMaker`; what it decides about the loop is a `Visit`.
-/

import HftLab.OrderBook.Book

namespace HftLab.OrderBook

open Lib

/-! ## Previews -/

namespace Core

variable (V : Env) (c : Core)

/-- The accumulation loop of `fok_fillable` over `n` levels, from `p` in steps of `dp`. -/
def fokScan (dp qty : Int) : Nat → Int → Int → Bool
  | 0, _, avail => decide (qty ≤ avail)
  | n + 1, p, avail =>
    let avail := i32 (avail + (c.levels p).totalQty)
    if qty ≤ avail then true else fokScan dp qty n (p + dp) avail

/-- How many levels the loops of `fok_fillable` and `walk_the_book` run over:
    `p <= price && p < LEVELS` from the best ask up, `p >= price && p >= 0` from the best bid down. -/
def scanLength (side : Side) (price : Int) : Nat :=
  match side with
  | .buy => (min price (V.LEVELS - 1) - c.bestAsk + 1).toNat
  | .sell => (c.bestBid - max price 0 + 1).toNat

def scanStart (side : Side) : Int :=
  match side with
  | .buy => c.bestAsk
  | .sell => c.bestBid

def scanStep : Side → Int
  | .buy => 1
  | .sell => -1

def fokFillable (side : Side) (price qty : Int) : Bool :=
  c.fokScan (scanStep side) qty (c.scanLength V side price) (c.scanStart side) 0

end Core

structure WalkResult where
  fillableQty : Int := 0
  avgPriceTicks : Int := 0
  levelsTouched : Int := 0
  worstPriceTicks : Int := 0
  deriving DecidableEq, Repr

namespace Core

variable (V : Env) (c : Core)

/-- `walk_the_book`'s loop; carries the remaining quantity and the price-weighted sum. -/
def walkScan (dp : Int) : Nat → Int → Int → Int → WalkResult → Int × WalkResult
  | 0, _, _, sum, r => (sum, r)
  | n + 1, p, remaining, sum, r =>
    if remaining ≤ 0 then (sum, r)
    else
      let avail := (c.levels p).totalQty
      if avail ≤ 0 then walkScan dp n (p + dp) remaining sum r
      else
        let take := min avail remaining
        walkScan dp n (p + dp) (remaining - take) (sum + take * p)
          { r with fillableQty := r.fillableQty + take, levelsTouched := r.levelsTouched + 1, worstPriceTicks := p }

def walkTheBook (side : Side) (desiredQty limitPrice : Int) : WalkResult :=
  let (sum, r) := c.walkScan (scanStep side) (c.scanLength V side limitPrice) (c.scanStart side) desiredQty 0 {}
  { r with avgPriceTicks := if 0 < r.fillableQty then sum / r.fillableQty else 0 }

end Core

namespace Book

variable (V : Env) (b : Book)

/-! ## Cancel -/

/-- `cancel_internal`: the shared cancel of an order resting in a level. -/
def cancelInternal (i : Nat) (emitEvent : Bool) : Book :=
  let o := b.order i
  if !o.isActive then b
  else
    let b := b.mapCore fun c => (c.unlinkFromLevel i).refreshIfEmptied V o.side o.priceTicks
    let left := o.remainingQty
    let b := b.mapCore fun c => (c.setStatus i .cancelled).eraseId o.id
    let b := if emitEvent then b.emit .cancel o.id 0 o.priceTicks left .cancelled .none o.clientId else b
    let b := b.exposureOnCancel o.clientId o.side left
    let b := (b.ocoOnComplete o.id).eraseBracketSpec o.id
    let b := b.mapCore (·.freeOrder i)
    let lvl := b.core.levels o.priceTicks
    (b.pushDelta (if lvl.empty then .delete else .modify) o.side o.priceTicks lvl.totalQty).note
      (if emitEvent then .cancel o else .replace o)

/-! ## One maker -/

/-- The bookkeeping of one execution of `qty` between the taker in slot `t` and the maker in slot
    `i` of level `p`, up to the decrement of the displayed quantity. -/
def fillMaker (p : Int) (t i : Nat) (qty : Int) (ts : Nat) : Book :=
  let m := b.order i
  let taker := b.order t
  let b := b.note (.fill m taker qty)
  let b := b.mapCore (·.setOrder i { m with filledQty := m.filledQty + qty })
  let b := b.mapCore fun c => c.setOrder t { c.pool t with filledQty := (c.pool t).filledQty + qty }
  let b := (b.exposureOnFill m.clientId m.side qty).exposureOnFill taker.clientId taker.side qty
  let b := b.mmpOnMakerFill V m.clientId
  let b := (b.tagAggressorVolume taker.clientId qty).tagPassiveVolume m.clientId qty
  let b := b.recordTrade m.id taker.id m.priceTicks qty taker.side ts
  let b := b.emit .fill taker.id m.id m.priceTicks qty
    (if (b.order t).remainingQty = 0 then .filled else .partiallyFilled) .none taker.clientId
  b.mapCore fun c =>
    let c := c.setLevel p { c.levels p with totalQty := i32 ((c.levels p).totalQty - qty) }
    c.setOrder i { c.pool i with displayedQty := (c.pool i).displayedQty - qty }

/-- The size an iceberg shows next, and the state of the book's linear congruential generator
    after it: the display size (100 if none is recorded), jittered when jitter is on. -/
def icebergShow (size : Int) : Int × Nat :=
  let show_ := if 0 < size then size else 100
  if 0 < b.gates.iceJitterBps then
    let rng := (b.gates.iceJitterRng * 6364136223846793005 + 1442695040888963407) % 2 ^ 64
    let span := show_ * b.gates.iceJitterBps / 10000
    if 0 < span then
      -- `2 * span + 1` is an `int` cast to 64 bits: negative, it is beyond any `rng >> 33`
      let width := i32 (2 * span + 1)
      let draw : Int := (rng / 2 ^ 33 : Nat)
      let delta := (if 0 < width then draw % width else draw) - span
      (max 1 (i32 (show_ + delta)), rng)
    else (show_, rng)
  else (show_, b.gates.iceJitterRng)

end Book

/-- The iceberg in slot `i` of level `p` shows `shown` of its reserve and moves to the end of its queue. -/
def Core.refresh (c : Core) (p : Int) (i : Nat) (shown : Int) : Core :=
  let c := c.setOrder i { c.pool i with displayedQty := shown }
  let lvl := c.levels p
  let c := c.setLevel p { lvl with totalQty := i32 (lvl.totalQty + shown), totalHidden := i32 (lvl.totalHidden - shown) }
  if (c.levels p).tail = some i then c else c.requeue p i

namespace Book

variable (V : Env) (b : Book)

/-- Top up a drained iceberg from its reserve and move it to the end of its queue. -/
def refreshIceberg (p : Int) (i : Nat) : Book :=
  let m := b.order i
  let (show_, rng) := b.icebergShow m.icebergDisplaySize
  { b with core := b.core.refresh p i (min m.remainingQty show_), gates := { b.gates with iceJitterRng := rng } }

/-- A completely filled maker leaves its level, the index and the pool. -/
def completeMaker (p : Int) (t i : Nat) (qty : Int) : Book :=
  let m := b.order i
  let b := b.mapCore (·.setStatus i .filled)
  let b := b.emit .fill m.id (b.order t).id m.priceTicks qty .filled .none m.clientId
  let b := b.mapCore fun c =>
    let c := c.splice p i
    (c.setLevel p (c.levels p).uncount).eraseId m.id
  ((b.ocoOnComplete m.id).bracketOnFullFill m.id).mapCore (·.freeOrder i)

/-- What becomes of a maker after `qty` of it was executed. -/
def settleMaker (p : Int) (t i : Nat) (qty : Int) : Book :=
  let m := b.order i
  if m.displayedQty = 0 ∧ 0 < m.remainingQty ∧ m.type = .iceberg then b.refreshIceberg p i
  else if m.totalQty ≤ m.filledQty then b.completeMaker p t i qty
  else b.mapCore (·.setStatus i .partiallyFilled)

/-- What one pass of `match_at_level`'s loop decides: leave with `qty` remaining, or go on at `m`. -/
inductive Visit where
  | stop (qty : Int) (b : Book)
  | next (m : Option Nat) (qty : Int) (b : Book)

def execMaker (p : Int) (t : Nat) (ts i : Nat) (qty : Int) : Visit :=
  let exec := min qty (b.order i).displayedQty
  let b := b.fillMaker V p t i exec ts
  .next (b.order i).nextAtLevel (qty - exec) (b.settleMaker p t i exec)

/-- `DECREMENT_AND_CXL` has no branch of its own: the maker is executed. -/
def visitMaker (p : Int) (t : Nat) (ts i : Nat) (qty : Int) : Visit :=
  let m := b.order i
  let taker := b.order t
  if b.gates.stpPolicy ≠ .none ∧ b.sameTradingEntity m.clientId taker.clientId = true then
    match b.gates.stpPolicy with
    | .cancelNewest => .stop 0 (b.note (.stpAbort taker m))
    | .cancelOldest => .next m.nextAtLevel qty ((b.note (.stpCancel taker m b.core)).cancelInternal V i true)
    | .cancelBoth =>
      .stop 0 (((b.note (.stpCancel taker m b.core)).note (.stpAbort taker m)).cancelInternal V i true)
    | _ => b.execMaker V p t ts i qty
  else b.execMaker V p t ts i qty

/-! ## The loops -/

/-- The FIFO loop over level `p`, at maker `m`. -/
def matchAtLevel (p : Int) (t ts : Nat) : Nat → Option Nat → Int → Book → Option (Int × Book)
  | 0, _, _, _ => none
  | n + 1, m, qty, b =>
    match m with
    | none => some (qty, b)
    | some i =>
      if qty ≤ 0 then some (qty, b)
      else match b.visitMaker V p t ts i qty with
        | .stop qty b => some (qty, b)
        | .next m qty b => matchAtLevel p t ts n m qty b

/-- The level the price loop takes next: the best opposite price, if it is within the taker's limit. -/
def nextLevel (t : Nat) : Option Int :=
  let o := b.order t
  match o.side with
  | .buy => if b.core.hasAsk = true ∧ b.core.bestAsk ≤ o.priceTicks then some b.core.bestAsk else none
  | .sell => if b.core.hasBid = true ∧ o.priceTicks ≤ b.core.bestBid then some b.core.bestBid else none

/-- `if (lvl.empty()) refresh_best_..`, from the best price as it is after the level was matched. -/
def advanceBest (side : Side) (p : Int) : Book :=
  if (b.core.levels p).empty then
    match side with
    | .buy => b.mapCore fun c => c.refreshBestAskFrom V (i32 (c.bestAsk + 1))
    | .sell => b.mapCore fun c => c.refreshBestBidFrom V (i32 (c.bestBid - 1))
  else b

def priceLoop (t ts : Nat) : Nat → Int → Book → Option Book
  | 0, _, _ => none
  | n + 1, qty, b =>
    if qty ≤ 0 then some b
    else match b.nextLevel t with
      | none => some b
      | some p =>
        match b.matchAtLevel V p t ts n (b.core.levels p).head qty with
        | none => none
        | some (qty, b) => priceLoop t ts n qty (b.advanceBest V (b.order t).side p)

def matchAgainst (n : Nat) (t : Nat) : Option Book :=
  let (ts, b) := b.monoNsNow V
  priceLoop V t ts n (b.order t).remainingQty b

end Book

end HftLab.OrderBook
