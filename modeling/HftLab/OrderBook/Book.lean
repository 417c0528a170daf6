/-
  HftLab.OrderBook.Book — the state of `FullOrderBook` and the helpers every operation uses:
  the slot pool, the intrusive FIFO of a price level, the best-price caches, the trade tape,
  the event and delta streams, the exposure, OCO, bracket and market-maker-protection hooks.

  The state is split by what it is for. `Core` holds the orders and where they are; `Gates` the
  configuration and the admission state; `Tape` what the book has published. Two fields are
  history variables, not in the source: `inFlight`, the slots held by the local `o` of a `submit`
  in progress, and `log`, the transitions taken so far, newest first, each with the order as it
  was before.
-/

import HftLab.Lib.Sequence
import HftLab.OrderBook.Types

namespace HftLab.OrderBook

open Lib

structure Core where
  pool : Nat → Order
  freeHead : Option Nat
  levels : Int → PriceLevel := fun _ => {}
  idIndex : AList (fun _ : Nat => Nat) := ∅
  bestBid : Int := NO_BID_TICKS
  bestAsk : Int := NO_ASK_TICKS
  activeOrders : Nat := 0
  stopOrders : List Nat := []
  pegOrders : List Nat := []
  nextOrderId : Nat := 1

structure Gates where
  sessionPhase : SessionPhase := .continuous
  halted : Bool := false
  inAuctionMode : Bool := false
  haltReopenPending : Bool := false
  stpPolicy : SelfTradePrevention := .none
  clientToFirm : Nat → Option Nat := fun _ => none
  rateLimitingEnabled : Bool := false
  rateBuckets : Nat → Option RateBucket := fun _ => none
  mmpEnabled : Bool := false
  mmp : Nat → Option MmpConfig := fun _ => none
  luldEnabled : Bool := false
  luldLowTicks : Int := 0
  luldHighTicks : Int := 0
  luldAutoHalt : Bool := false
  luldHaltToAuction : Bool := false
  inInternalSubmit : Bool := false
  iceJitterBps : Int := 0
  iceJitterRng : Nat := 0x9E3779B97F4A7C15
  trailingRatchetOnMid : Bool := false

structure Tape where
  trades : List Trade := []
  nextExecId : Nat := 1
  lastTradeTicks : Int := -1
  events : List BookEvent := []
  nextEventSeq : Nat := 0
  deltaQueueEnabled : Bool := false
  deltaQueue : List DeltaMessage := []
  deltaSeq : Nat := 0

structure Oco where
  partner : Nat → Option Nat := fun _ => none
  pendingCancel : List Nat := []

/-- A completed order drops its pair; the other leg is to be cancelled. -/
def Oco.complete (o : Oco) (id : Nat) : Oco :=
  match o.partner id with
  | none => o
  | some partner =>
    { partner := Function.update (Function.update o.partner id none) partner none
      pendingCancel := o.pendingCancel ++ [partner] }

structure Brackets where
  specs : Nat → Option BracketSpec := fun _ => none
  pending : List BracketSpec := []

/-- A filled entry moves its bracket to the pending ones. -/
def Brackets.fullFill (br : Brackets) (id : Nat) : Brackets :=
  match br.specs id with
  | none => br
  | some s => ⟨Function.update br.specs id none, br.pending ++ [s]⟩

structure Closing where
  mocQueue : List MocOrder := []
  locQueue : List LocOrder := []
  mocSubmitted : Nat := 0
  locSubmitted : Nat := 0
  mocCancelledUnfilled : Nat := 0
  locCancelledUnfilled : Nat := 0

/-- A transition of the book, with the orders it concerns as they were before it; a maker cancelled
    by self-trade prevention with the whole core as it was. -/
inductive Report where
  | accept (o : Order)
  | fill (maker taker : Order) (qty : Int)
  | auctionFill (o : Order) (qty : Int)
  | stpAbort (taker maker : Order)
  | stpCancel (taker maker : Order) (c : Core)
  | takerFilled (o : Order)
  | iocCancel (o : Order)
  | rest (o : Order)
  | cancel (o : Order)
  | replace (o : Order)
  | expire (o : Order)
  | reduce (o : Order) (newQty : Int)
  | trigger (o : Order)

structure Book where
  core : Core
  gates : Gates := {}
  tape : Tape := {}
  exposure : Nat → AccountExposure := fun _ => {}
  oco : Oco := {}
  brackets : Brackets := {}
  closing : Closing := {}
  mmpPendingTrips : List Nat := []
  /-- How many times the environment was asked (clock readings, index traversals). -/
  asked : Nat := 0
  inFlight : List Nat := []
  log : List Report := []

/-- The constructor: every slot linked into the free list. -/
def fresh (V : Env) : Book where
  core := { pool := fun i => { nextFree := if i + 1 < V.MAX_ORDERS then some (i + 1) else none }
            freeHead := some 0 }

/-! ## Pool and levels -/

namespace Core

variable (V : Env) (c : Core)

def setOrder (i : Nat) (o : Order) : Core := { c with pool := Function.update c.pool i o }

def setLevel (p : Int) (l : PriceLevel) : Core := { c with levels := Function.update c.levels p l }

def setStatus (i : Nat) (s : OrderStatus) : Core := c.setOrder i { c.pool i with status := s }

def hasBid : Bool := c.bestBid ≠ NO_BID_TICKS

def hasAsk : Bool := c.bestAsk ≠ NO_ASK_TICKS

def midTicks : Int := if c.hasBid && c.hasAsk then (i32 (c.bestBid + c.bestAsk)).tdiv 2 else -1

/-- The order under `id` (`id_index_.find`). -/
def find (id : Nat) : Option Nat := c.idIndex.lookup id

def eraseId (id : Nat) : Core := { c with idIndex := c.idIndex.erase id }

def indexOrder (i : Nat) : Core := { c with idIndex := c.idIndex.insert (c.pool i).id i }

def allocOrder : Option (Nat × Core) :=
  match c.freeHead with
  | none => none
  | some i =>
    some (i, { c with pool := Function.update c.pool i {}, freeHead := (c.pool i).nextFree,
                      activeOrders := c.activeOrders + 1 })

def freeOrder (i : Nat) : Core :=
  { c with pool := Function.update c.pool i { c.pool i with nextFree := c.freeHead }, freeHead := some i,
           activeOrders := c.activeOrders - 1 }

/-- Write to the `next_at_level` of the node `o` points at, if any. -/
def setNext (o v : Option Nat) : Core :=
  { c with pool := match o with
      | some a => Function.update c.pool a { c.pool a with nextAtLevel := v }
      | none => c.pool }

def setPrev (o v : Option Nat) : Core :=
  { c with pool := match o with
      | some a => Function.update c.pool a { c.pool a with prevAtLevel := v }
      | none => c.pool }

def enqueueAtLevel (i : Nat) : Core :=
  let o := c.pool i
  let lvl := c.levels o.priceTicks
  let c := c.setOrder i { o with nextAtLevel := none, prevAtLevel := lvl.tail }
  let c := c.setNext lvl.tail (some i)
  c.setLevel o.priceTicks
    { head := if lvl.tail.isSome then lvl.head else some i
      tail := some i
      totalQty := i32 (lvl.totalQty + o.displayedQty)
      totalHidden := i32 (lvl.totalHidden + o.hiddenQty)
      orderCount := lvl.orderCount + 1 }

/-- The splice of `unlink_from_level` and of a filled maker: the neighbours of `i`, or the ends
    of level `p`, are joined. -/
def splice (p : Int) (i : Nat) : Core :=
  let o := c.pool i
  let lvl := c.levels p
  let c := (c.setNext o.prevAtLevel o.nextAtLevel).setPrev o.nextAtLevel o.prevAtLevel
  c.setLevel p { lvl with
    head := if o.prevAtLevel.isSome then lvl.head else o.nextAtLevel
    tail := if o.nextAtLevel.isSome then lvl.tail else o.prevAtLevel }

def unlinkFromLevel (i : Nat) : Core :=
  let o := c.pool i
  let c := c.splice o.priceTicks i
  let lvl := c.levels o.priceTicks
  c.setLevel o.priceTicks { lvl with
    totalQty := i32 (lvl.totalQty - o.displayedQty)
    totalHidden := i32 (lvl.totalHidden - o.hiddenQty)
    orderCount := if 0 < lvl.orderCount then lvl.orderCount - 1 else lvl.orderCount }

/-- The order in slot `i` moves to the end of the queue of level `p`, behind the last one. -/
def requeue (p : Int) (i : Nat) : Core :=
  let c := c.splice p i
  let lvl := c.levels p
  let c := c.setOrder i { c.pool i with prevAtLevel := lvl.tail, nextAtLevel := none }
  (c.setNext lvl.tail (some i)).setLevel p { lvl with tail := some i }

/-- The highest of the levels `0 .. n - 1` that shows quantity. -/
def scanBid (levels : Int → PriceLevel) : Nat → Int
  | 0 => NO_BID_TICKS
  | n + 1 => if 0 < (levels n).totalQty then n else scanBid levels n

/-- The lowest of the `n` levels below `top` that shows quantity. -/
def scanAsk (levels : Int → PriceLevel) (top : Int) : Nat → Int
  | 0 => NO_ASK_TICKS
  | n + 1 => if 0 < (levels (top - (n + 1))).totalQty then top - (n + 1) else scanAsk levels top n

def refreshBestBidFrom (start : Int) : Core :=
  { c with bestBid := if inRange V start then scanBid c.levels (start.toNat + 1) else NO_BID_TICKS }

def refreshBestAskFrom (start : Int) : Core :=
  { c with bestAsk := if inRange V start then scanAsk c.levels V.LEVELS (V.LEVELS - start).toNat else NO_ASK_TICKS }

/-- What `cancel_internal`, `expire_gtd` and `reprice_pegs` do after an unlink: move the cached
    best price if the level emptied was the best one. -/
def refreshIfEmptied (side : Side) (p : Int) : Core :=
  if (c.levels p).empty then
    match side with
    | .buy => if p = c.bestBid then c.refreshBestBidFrom V (p - 1) else c
    | .sell => if p = c.bestAsk then c.refreshBestAskFrom V (p + 1) else c
  else c

/-- The cached best price after an order of `side` joined level `p`. -/
def raiseBest (side : Side) (p : Int) : Core :=
  match side with
  | .buy => if c.bestBid = NO_BID_TICKS ∨ c.bestBid < p then { c with bestBid := p } else c
  | .sell => if c.bestAsk = NO_ASK_TICKS ∨ p < c.bestAsk then { c with bestAsk := p } else c

def wouldCross (side : Side) (p : Int) : Bool :=
  match side with
  | .buy => c.hasAsk && c.bestAsk ≤ p
  | .sell => c.hasBid && p ≤ c.bestBid

end Core

/-! ## Streams -/

namespace Book

variable (V : Env) (b : Book)

def order (i : Nat) : Order := b.core.pool i

def mapCore (f : Core → Core) : Book := { b with core := f b.core }

def note (r : Report) : Book := { b with log := r :: b.log }

def monoNsNow : Nat × Book := (V.clock b.asked, { b with asked := b.asked + 1 })

/-- The entries of `id_index_`, in the order this traversal meets them. -/
def indexEntries : List ((_ : Nat) × Nat) × Book :=
  (V.iter b.asked b.core.idIndex.entries, { b with asked := b.asked + 1 })

def emit (ev : EventType) (orderId makerId : Nat) (price qty : Int) (status : OrderStatus) (reason : RejectReason)
    (clientId : Nat) : Book :=
  { b with tape := { b.tape with
      nextEventSeq := b.tape.nextEventSeq + 1
      events := b.tape.events ++ [⟨ev, orderId, makerId, price, qty, status, reason, b.tape.nextEventSeq + 1, clientId⟩] } }

def pushDelta (type : DeltaType) (side : Side) (price newQty : Int) : Book :=
  { b with tape :=
      if b.tape.deltaQueueEnabled then
        { b.tape with deltaSeq := b.tape.deltaSeq + 1
                      deltaQueue := b.tape.deltaQueue ++ [⟨type, side, price, newQty, b.tape.deltaSeq + 1⟩] }
      else b.tape }

def recordTrade (makerId takerId : Nat) (price qty : Int) (takerSide : Side) (ts : Nat) : Book :=
  { b with tape := { b.tape with
      trades := b.tape.trades ++ [⟨b.tape.nextExecId, makerId, takerId, price, qty, takerSide, ts⟩]
      nextExecId := b.tape.nextExecId + 1
      lastTradeTicks := price } }

/-! ## Hooks -/

def updExposure (cid : Nat) (f : AccountExposure → AccountExposure) : Book :=
  { b with exposure := if cid = 0 then b.exposure else Function.update b.exposure cid (f (b.exposure cid)) }

def exposureOnSubmit (cid : Nat) (side : Side) (qty : Int) : Book :=
  b.updExposure cid fun ex =>
    match side with
    | .buy => { ex with openBuyQty := ex.openBuyQty + qty, ordersSubmitted := ex.ordersSubmitted + 1 }
    | .sell => { ex with openSellQty := ex.openSellQty + qty, ordersSubmitted := ex.ordersSubmitted + 1 }

def exposureOnCancel (cid : Nat) (side : Side) (remaining : Int) : Book :=
  b.updExposure cid fun ex =>
    match side with
    | .buy => { ex with openBuyQty := ex.openBuyQty - remaining, ordersCancelled := ex.ordersCancelled + 1 }
    | .sell => { ex with openSellQty := ex.openSellQty - remaining, ordersCancelled := ex.ordersCancelled + 1 }

def exposureOnFill (cid : Nat) (side : Side) (qty : Int) : Book :=
  b.updExposure cid fun ex =>
    match side with
    | .buy =>
      { ex with openBuyQty := ex.openBuyQty - qty, filledNetQty := ex.filledNetQty + qty,
                filledGrossVolume := ex.filledGrossVolume + qty, fillsReceived := ex.fillsReceived + 1 }
    | .sell =>
      { ex with openSellQty := ex.openSellQty - qty, filledNetQty := ex.filledNetQty - qty,
                filledGrossVolume := ex.filledGrossVolume + qty, fillsReceived := ex.fillsReceived + 1 }

def tagAggressorVolume (cid : Nat) (qty : Int) : Book :=
  b.updExposure cid fun ex => { ex with aggressiveVolume := ex.aggressiveVolume + qty }

def tagPassiveVolume (cid : Nat) (qty : Int) : Book :=
  b.updExposure cid fun ex => { ex with passiveVolume := ex.passiveVolume + qty }

def getAccountExposure (cid : Nat) : AccountExposure := b.exposure cid

def ocoOnComplete (id : Nat) : Book := { b with oco := b.oco.complete id }

def eraseBracketSpec (id : Nat) : Book :=
  { b with brackets := { b.brackets with specs := Function.update b.brackets.specs id none } }

def bracketOnFullFill (id : Nat) : Book := { b with brackets := b.brackets.fullFill id }

def sameTradingEntity (x y : Nat) : Bool :=
  if x = 0 ∨ y = 0 then false
  else if x = y then true
  else match b.gates.clientToFirm x, b.gates.clientToFirm y with
    | some f, some g => f = g
    | _, _ => false

/-- The protection state of `cid` after one more fill, if the client has one and is not stopped yet. -/
def mmpCount (cid : Nat) : Option MmpConfig :=
  if !b.gates.mmpEnabled || cid = 0 then none
  else match b.gates.mmp cid with
    | none => none
    | some m =>
      if m.tripped then none
      else
        let now := V.clock b.asked
        let m := if m.windowNs < now - m.windowStartNs then { m with windowStartNs := now, fillsInWindow := 0 } else m
        let m := { m with fillsInWindow := m.fillsInWindow + 1 }
        some { m with tripped := decide (m.maxFills < m.fillsInWindow) }

def mmpOnMakerFill (cid : Nat) : Book :=
  let count := b.mmpCount V cid
  { b with
    gates := { b.gates with mmp := match count with
      | none => b.gates.mmp
      | some m => Function.update b.gates.mmp cid (some m) }
    mmpPendingTrips := if count.any (·.tripped) then b.mmpPendingTrips ++ [cid] else b.mmpPendingTrips
    asked := if count.isSome then b.asked + 1 else b.asked }

end Book

end HftLab.OrderBook
