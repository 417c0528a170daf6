/-
  HftLab.OrderBook.Auction — the call auction: `indicative_auction_info`, `run_auction`,
  `try_run_auction`, the on-close queues and `run_closing_auction`.

  The sums of the clearing search are 32-bit. The execution loops walk the level queues as they
  were when the level was entered: each order is read before its successor is, and nothing but
  the order itself leaves the level, so the walk is over the slots of the queue.
-/

import HftLab.Lib.LinkedList
import HftLab.OrderBook.Submit

namespace HftLab.OrderBook

open Lib

/-- The order after `take` of it was executed in an auction: the displayed part goes first. -/
def Order.auctioned (o : Order) (take : Int) : Order :=
  { o with filledQty := o.filledQty + take, displayedQty := o.displayedQty - min take o.displayedQty }

structure AuctionResult where
  clearingPriceTicks : Int := 0
  matchedQty : Int := 0
  surplusBidQty : Int := 0
  surplusAskQty : Int := 0
  executed : Bool := false
  deriving DecidableEq, Repr

namespace Core

variable (V : Env) (c : Core)

/-- The slots queued at level `p`, head first. -/
def queue (p : Int) : List Nat := walk (fun i => (c.pool i).nextAtLevel) V.MAX_ORDERS (c.levels p).head

/-- The free slots, in the order they will be allocated. -/
def freeList : List Nat := walk (fun i => (c.pool i).nextFree) V.MAX_ORDERS c.freeHead

/-- The writes of an auction fill to the order in slot `i` and the sums of its level `p`. -/
def auctionFill (p : Int) (i : Nat) (take : Int) : Core :=
  let vis := min take (c.pool i).displayedQty
  (c.setOrder i ((c.pool i).auctioned take)).setLevel p { c.levels p with
    totalQty := i32 ((c.levels p).totalQty - vis), totalHidden := i32 ((c.levels p).totalHidden - (take - vis)) }

/-- `cum` after the orders of `side` queued at level `p` are added. -/
def addDisplayed (side : Side) (p cum : Int) : Int :=
  (c.queue V p).foldl
    (fun cum i => if (c.pool i).side = side ∧ (c.pool i).isActive = true then i32 (cum + (c.pool i).displayedQty) else cum)
    cum

/-- The BUY quantity at the `n` levels from `hi` down. -/
def cumBid (hi : Int) (n : Nat) : Int := (List.range n).foldl (fun cum (k : Nat) => c.addDisplayed V .buy (hi - k) cum) 0

/-- The SELL quantity at the `n` levels from `lo` up. -/
def cumAsk (lo : Int) (n : Nat) : Int := (List.range n).foldl (fun cum (k : Nat) => c.addDisplayed V .sell (lo + k) cum) 0

/-- The running choice of the clearing search. -/
structure Clearing where
  price : Int := -1
  matched : Int := -1
  imbalance : Int := int32Max
  surplusBid : Int := 0
  surplusAsk : Int := 0
  deriving DecidableEq, Repr

/-- One candidate price of the clearing search. -/
def tryClearing (lo hi : Int) (best : Clearing) (p : Int) : Clearing :=
  let cumBid := c.cumBid V hi (hi - p + 1).toNat
  let cumAsk := c.cumAsk V lo (p - lo + 1).toNat
  let matched := min cumBid cumAsk
  let imbalance := i32 ((i32 (cumBid - cumAsk)).natAbs : Int)
  if best.matched < matched ∨ (matched = best.matched ∧ imbalance < best.imbalance) then
    ⟨p, matched, imbalance, i32 (cumBid - matched), i32 (cumAsk - matched)⟩
  else best

def indicativeAuctionInfo : AuctionResult :=
  if c.hasBid && c.hasAsk then
    let lo := min c.bestBid c.bestAsk
    let hi := max c.bestBid c.bestAsk
    let best := (List.range (hi - lo + 1).toNat).foldl (fun best (k : Nat) => c.tryClearing V lo hi best (lo + k)) {}
    if best.matched ≤ 0 then
      { clearingPriceTicks := -1, surplusBidQty := best.surplusBid, surplusAskQty := best.surplusAsk }
    else ⟨best.price, best.matched, best.surplusBid, best.surplusAsk, true⟩
  else { clearingPriceTicks := -1 }

end Core

namespace Book

variable (V : Env) (b : Book)

/-- The fill of `take` of the order in slot `i` of level `p` at the clearing price. An ASK also
    goes to the tape, with the BUY side as the aggressor. -/
def auctionTake (p clearing : Int) (i : Nat) (take : Int) (ts : Nat) : Book :=
  let o := b.order i
  let b := b.note (.auctionFill o take)
  let b := b.mapCore (·.auctionFill p i take)
  let b := { b with tape := if o.side = Side.sell then (b.recordTrade o.id 0 clearing take .buy ts).tape else b.tape }
  if o.totalQty ≤ o.filledQty + take then
    let b := b.mapCore (·.setStatus i .filled)
    let b := b.emit .fill o.id 0 clearing take .filled .none o.clientId
    let b := b.mapCore fun c => (c.unlinkFromLevel i).eraseId o.id
    ((b.ocoOnComplete o.id).bracketOnFullFill o.id).mapCore (·.freeOrder i)
  else
    let b := b.mapCore (·.setStatus i .partiallyFilled)
    b.emit .fill o.id 0 clearing take .partiallyFilled .none o.clientId

/-- One order of an execution loop, `remaining` still to be executed on this side. -/
def auctionVisit (side : Side) (p clearing : Int) (ts : Nat) (s : Int × Book) (i : Nat) : Int × Book :=
  let (remaining, b) := s
  let o := b.order i
  if 0 < remaining ∧ o.side = side ∧ o.isActive = true then
    let take := min o.remainingQty remaining
    (remaining - take, b.auctionTake p clearing i take ts)
  else s

def auctionLevel (side : Side) (clearing : Int) (ts : Nat) (s : Int × Book) (p : Int) : Int × Book :=
  if 0 < s.1 then (s.2.core.queue V p).foldl (auctionVisit side p clearing ts) s else s

/-- The price levels an execution loop runs over: BIDs from `hi` down to the clearing price, ASKs
    from `lo` up to it. -/
def auctionPrices (side : Side) (lo hi clearing : Int) : List Int :=
  match side with
  | .buy => (List.range (hi - clearing + 1).toNat).map fun (k : Nat) => hi - k
  | .sell => (List.range (clearing - lo + 1).toNat).map fun (k : Nat) => lo + k

def executeAuction (lo hi clearing matched : Int) : Book :=
  let (ts, b) := b.monoNsNow V
  let (_, b) := (auctionPrices .buy lo hi clearing).foldl (auctionLevel V .buy clearing ts) (matched, b)
  let (_, b) := (auctionPrices .sell lo hi clearing).foldl (auctionLevel V .sell clearing ts) (matched, b)
  b.mapCore fun c => (c.refreshBestBidFrom V (V.LEVELS - 1)).refreshBestAskFrom V 0

/-- Remainders of GTX orders do not survive the cross. -/
def sweepGtx : Book :=
  let (entries, b) := b.indexEntries V
  let sweep := (entries.map (·.2)).filter fun i => (b.order i).tif = .gtx && (b.order i).isActive
  sweep.foldl (fun b i => b.cancelInternal V i true) b

def runAuction (n : Nat) : Option (AuctionResult × Book) :=
  let res := b.core.indicativeAuctionInfo V
  if res.executed then
    let lo := min b.core.bestBid b.core.bestAsk
    let hi := max b.core.bestBid b.core.bestAsk
    let b := (b.executeAuction V lo hi res.clearingPriceTicks res.matchedQty).sweepGtx V
    match processBracketPending V (submit V n) n (b.processOcoPending V) with
    | none => none
    | some b => some (res, b)
  else some (res, b)

def tryRunAuction (n : Nat) (maxSurplus : Int) : Option (AuctionResult × Book) :=
  let ind := b.core.indicativeAuctionInfo V
  if ind.executed then
    if maxSurplus < max ind.surplusBidQty ind.surplusAskQty then some ({ ind with executed := false }, b)
    else b.runAuction V n
  else some (ind, b)

/-! ## On-close orders -/

def submitMoc (side : Side) (qty : Int) (clientId : Nat) : (Nat × RejectReason) × Book :=
  if b.gates.sessionPhase = .closed then ((0, .marketClosed), b)
  else if qty ≤ 0 then ((0, .qtyZeroOrNegative), b)
  else
    let id := b.core.nextOrderId
    let b := b.mapCore fun c => { c with nextOrderId := id + 1 }
    let b := { b with closing := { b.closing with
      mocQueue := b.closing.mocQueue ++ [MocOrder.mk side qty clientId id], mocSubmitted := b.closing.mocSubmitted + 1 } }
    ((id, .none), b.emit .accept id 0 0 qty .new .none clientId)

def submitLoc (side : Side) (price qty : Int) (clientId : Nat) : (Nat × RejectReason) × Book :=
  if b.gates.sessionPhase = .closed then ((0, .marketClosed), b)
  else if qty ≤ 0 then ((0, .qtyZeroOrNegative), b)
  else if ¬ inRange V price then ((0, .priceOutOfRange), b)
  else
    let id := b.core.nextOrderId
    let b := b.mapCore fun c => { c with nextOrderId := id + 1 }
    let b := { b with closing := { b.closing with
      locQueue := b.closing.locQueue ++ [LocOrder.mk side price qty clientId id], locSubmitted := b.closing.locSubmitted + 1 } }
    ((id, .none), b.emit .accept id 0 price qty .new .none clientId)

/-- `q[k] = q.back(); q.pop_back()` at the first entry satisfying `hit`. -/
def swapEraseWhere {α : Type} (hit : α → Bool) (q : List α) : Bool × List α :=
  match q.findIdx? hit with
  | some k => (true, swapErase q k)
  | none => (false, q)

def cancelMoc (id : Nat) : Bool × Book :=
  let (ok, q) := swapEraseWhere (fun m => m.id = id) b.closing.mocQueue
  (ok, { b with closing := { b.closing with mocQueue := q } })

def cancelLoc (id : Nat) : Bool × Book :=
  let (ok, q) := swapEraseWhere (fun l => l.id = id) b.closing.locQueue
  (ok, { b with closing := { b.closing with locQueue := q } })

/-- Submit each request, collecting the ids of the accepted ones. -/
def inject (sub : Submitter) : List Request → Book → Option (List Nat × Book)
  | [], b => some ([], b)
  | r :: rs, b =>
    match sub r b with
    | none => none
    | some ((id, _), b) =>
      match inject sub rs b with
      | none => none
      | some (ids, b) => some (if id = 0 then ids else id :: ids, b)

/-- Cancel the injected orders that are still in the index, counting them. -/
def cancelInjected (ids : List Nat) : Nat × Book :=
  ids.foldl
    (fun (n, b) id => match b.core.find id with
      | none => (n, b)
      | some i => (n + 1, b.cancelInternal V i true))
    (0, b)

def cancelMocUnfilled (ids : List Nat) : Book :=
  let (k, b) := b.cancelInjected V ids
  { b with closing := { b.closing with mocCancelledUnfilled := b.closing.mocCancelledUnfilled + k } }

def cancelLocUnfilled (ids : List Nat) : Book :=
  let (k, b) := b.cancelInjected V ids
  { b with closing := { b.closing with locCancelledUnfilled := b.closing.locCancelledUnfilled + k } }

def setAuction (on : Bool) : Book := { b with gates := { b.gates with inAuctionMode := on } }

def LocOrder.request (l : LocOrder) : Request :=
  { side := l.side, priceTicks := l.priceTicks, qty := l.qty, orderId := l.id, clientId := l.clientId }

def MocOrder.request (lo hi : Int) (m : MocOrder) : Request :=
  { side := m.side, priceTicks := (match m.side with | .buy => hi | .sell => lo), qty := m.qty, orderId := m.id,
    clientId := m.clientId }

/-- The lowest and the highest cached best price, if there is one at all. -/
def bookRange : Option (Int × Int) :=
  match b.core.hasBid, b.core.hasAsk with
  | true, true => some (min b.core.bestBid b.core.bestAsk, max b.core.bestBid b.core.bestAsk)
  | true, false => some (b.core.bestBid, b.core.bestBid)
  | false, true => some (b.core.bestAsk, b.core.bestAsk)
  | false, false => none

def runClosingAuction (n : Nat) : Option (AuctionResult × Book) :=
  let b := (b.setAuction true).setInternal true
  match inject (submit V n) (b.closing.locQueue.map LocOrder.request) b with
  | none => none
  | some (locIds, b) =>
    let b := { b with closing := { b.closing with locQueue := [] } }
    match b.bookRange with
    | none =>
      let b := { b with closing := { b.closing with
        mocCancelledUnfilled := b.closing.mocCancelledUnfilled + b.closing.mocQueue.length, mocQueue := [] } }
      some ({ clearingPriceTicks := -1 }, (b.setAuction false).setInternal false)
    | some (lo, hi) =>
      match inject (submit V n) (b.closing.mocQueue.map (MocOrder.request lo hi)) b with
      | none => none
      | some (mocIds, b) =>
        let b := { b with closing := { b.closing with mocQueue := [] } }
        match ((b.setAuction false).setInternal false).runAuction V n with
        | none => none
        | some (res, b) =>
          some (res, ((b.cancelMocUnfilled V mocIds).cancelLocUnfilled V locIds).processOcoPending V)

end Book

end HftLab.OrderBook
