/-
  HftLab.OrderBook.Submit — the entry points that add orders: `submit`, `submit_stop`,
  `submit_trailing_stop`, `submit_peg`, `submit_peg_mid`, and the deferred work `submit` does
  after matching (`process_oco_pending`, `process_bracket_pending`, `process_mmp_pending`).

  `submit` calls itself through the brackets it arms, so it takes fuel: `submit (n + 1)` is
  `submitWith (submit n) n`. The result is the order id (0 on reject) and the reject reason.
  A write to a level outside the grid has no defined outcome and is `none` too.
-/

import HftLab.Lib.Rounding
import HftLab.OrderBook.Matching
import Mathlib.Algebra.Order.Ring.Unbundled.Rat

namespace HftLab.OrderBook

open Lib

/-- `alloc_order` followed by the field assignments of the caller; the id is `orderId`, or the
    next automatic one when it is 0. -/
def Core.allocAs (c : Core) (orderId : Nat) (fields : Order → Order) : Option (Nat × Core) :=
  match c.allocOrder with
  | none => none
  | some (i, c) =>
    let id := if orderId = 0 then c.nextOrderId else orderId
    let c := { c with nextOrderId := if orderId = 0 then c.nextOrderId + 1 else c.nextOrderId }
    some (i, c.setOrder i (fields { c.pool i with id := id }))

/-- An order as it comes to rest: OPEN, or PARTIALLY_FILLED with no more displayed than is left. -/
def Order.atRest (o : Order) : Order :=
  if 0 < o.filledQty then { o with status := .partiallyFilled, displayedQty := min o.displayedQty o.remainingQty }
  else { o with status := .open }

namespace Book

variable (V : Env) (b : Book)

/-! ## OCO and market-maker protection -/

def cancelPendingStop (i : Nat) : Bool × Book :=
  match b.core.stopOrders.idxOf? i with
  | none => (false, b)
  | some k =>
    let o := b.order i
    let b := b.mapCore fun c => { c with stopOrders := swapErase c.stopOrders k }.setStatus i .cancelled
    let b := b.emit .cancel o.id 0 o.priceTicks o.remainingQty .cancelled .none o.clientId
    let b := b.mapCore (·.eraseId o.id)
    let b := (b.ocoOnComplete o.id).eraseBracketSpec o.id
    (true, (b.mapCore (·.freeOrder i)).note (.cancel o))

/-- Cancel the order in slot `i`, waiting or resting. -/
def cancelAny (i : Nat) : Book :=
  if (b.order i).isPendingStop then (b.cancelPendingStop i).2 else b.cancelInternal V i true

/-- One round of `process_oco_pending`: the id at the back of the queue is cancelled if it is live. -/
def ocoRound : Book :=
  match b.oco.pendingCancel.getLast? with
  | none => b
  | some pid =>
    let b := { b with oco := { b.oco with pendingCancel := b.oco.pendingCancel.dropLast } }
    match b.core.find pid with
    | none => b
    | some i => b.cancelAny V i

def ocoRounds : Nat → Book → Book
  | 0, b => b
  | n + 1, b => if b.oco.pendingCancel = [] then b else ocoRounds n (b.ocoRound V)

/-- Each round takes an id off the queue; a cancel puts at most one on it and takes one out of
    the index, so this many rounds empty it. -/
def processOcoPending : Book := ocoRounds V (b.oco.pendingCancel.length + b.core.idIndex.entries.length) b

/-- `mass_cancel`: the number of cancelled orders and the book. -/
def massCancel (clientId : Nat) : Nat × Book :=
  let (entries, b) := b.indexEntries V
  let mine := (entries.map (·.2)).filter fun i => (b.order i).clientId = clientId
  let toCancel := mine.filter fun i => (b.order i).isActive
  let toCancelStops := mine.filter fun i => !(b.order i).isActive && (b.order i).isPendingStop
  let b := toCancel.foldl (fun b i => b.cancelInternal V i true) b
  let (n, b) := toCancelStops.foldl
    (fun (n, b) i => let (ok, b) := b.cancelPendingStop i; (if ok then n + 1 else n, b)) (toCancel.length, b)
  (n, b.processOcoPending V)

def mmpRounds : Nat → Book → Book
  | 0, b => b
  | n + 1, b =>
    match b.mmpPendingTrips.getLast? with
    | none => b
    | some cid => mmpRounds n ({ b with mmpPendingTrips := b.mmpPendingTrips.dropLast }.massCancel V cid).2

def processMmpPending : Book := mmpRounds V b.mmpPendingTrips.length b

def linkOco (x y : Nat) : Bool × Book :=
  if x = 0 ∨ y = 0 ∨ x = y then (false, b)
  else if (b.core.find x).isNone ∨ (b.core.find y).isNone then (false, b)
  else if (b.oco.partner x).isSome ∨ (b.oco.partner y).isSome then (false, b)
  else (true, { b with oco := { b.oco with
    partner := Function.update (Function.update b.oco.partner x (some y)) y (some x) } })

def unlinkOco (x : Nat) : Book :=
  match b.oco.partner x with
  | none => b
  | some y => { b with oco := { b.oco with partner := Function.update (Function.update b.oco.partner x none) y none } }

/-! ## STOP and PEG entry -/

def submitStop (side : Side) (trigger limit qty : Int) (orderId clientId : Nat) :
    (Nat × RejectReason) × Book :=
  if b.gates.sessionPhase = .closed then ((0, .marketClosed), b)
  else if qty ≤ 0 then ((0, .qtyZeroOrNegative), b)
  else if ¬ inRange V trigger then ((0, .priceOutOfRange), b)
  else
    let (ts, b') := b.monoNsNow V
    match b'.core.allocAs orderId fun o => { o with
        clientId, priceTicks := limit, totalQty := qty, displayedQty := qty, side, type := .stop,
        status := .new, submitTsNs := ts, stopTriggerTicks := trigger } with
    | none => ((0, .poolExhausted), b)
    | some (i, c) =>
      let b := { b' with core := c }
      let id := (b.order i).id
      let b := b.mapCore fun c => { c with stopOrders := c.stopOrders ++ [i] }.indexOrder i
      ((id, .none), b.emit .accept id 0 trigger qty .new .none clientId)

/-- The price a trailing stop starts from: the last trade, else the mid. -/
def trailReference : Int := if b.tape.lastTradeTicks < 0 then b.core.midTicks else b.tape.lastTradeTicks

def trailTrigger (side : Side) (ref trailOffset : Int) : Int :=
  match side with
  | .sell => i32 (ref - trailOffset)
  | .buy => i32 (ref + trailOffset)

/-- The trail offset is kept in the peg offset of the order. -/
def setTrail (id : Nat) (trailOffset : Int) : Book :=
  match b.core.find id with
  | none => b
  | some i => b.mapCore fun c => c.setOrder i { c.pool i with pegOffsetTicks := trailOffset }

def submitTrailingStop (side : Side) (trailOffset limit qty : Int) (orderId clientId : Nat) :
    (Nat × RejectReason) × Book :=
  if qty ≤ 0 then ((0, .qtyZeroOrNegative), b)
  else if trailOffset ≤ 0 then ((0, .priceOutOfRange), b)
  else if b.trailReference < 0 then ((0, .priceOutOfRange), b)
  else if ¬ inRange V (trailTrigger side b.trailReference trailOffset) then ((0, .priceOutOfRange), b)
  else
    let (x, b) := b.submitStop V side (trailTrigger side b.trailReference trailOffset) limit qty orderId clientId
    if x.1 = 0 then (x, b) else (x, b.setTrail x.1 trailOffset)

/-- Pegged-with-limit: a BUY is capped from above, a SELL from below; 0 is no cap. -/
def capPeg (side : Side) (cap price : Int) : Int :=
  if cap ≤ 0 then price
  else match side with
    | .buy => min price cap
    | .sell => max price cap

/-- The part `submit_peg` and `submit_peg_mid` share: enter a PEG at `price` without matching.
    `marker` is 1 for a mid peg. -/
def enterPeg (side : Side) (offset qty : Int) (orderId clientId : Nat) (cap price marker : Int) :
    (Nat × RejectReason) × Book :=
  if ¬ inRange V price then ((0, .priceOutOfRange), b)
  else
    let (ts, b') := b.monoNsNow V
    match b'.core.allocAs orderId fun o => { o with
        clientId, priceTicks := price, totalQty := qty, displayedQty := qty, side, type := .peg,
        status := .open, submitTsNs := ts, pegOffsetTicks := offset, pegCapTicks := cap,
        stopTriggerTicks := marker } with
    | none => ((0, .poolExhausted), b)
    | some (i, c) =>
      let b := { b' with core := c }
      let id := (b.order i).id
      let b := b.mapCore fun c => (c.enqueueAtLevel i).indexOrder i
      let b := b.mapCore fun c => { c with pegOrders := c.pegOrders ++ [i] }.raiseBest side price
      ((id, .none), b.emit .accept id 0 price qty .open .none clientId)

def submitPeg (side : Side) (offset qty : Int) (orderId clientId : Nat) (cap : Int) :
    (Nat × RejectReason) × Book :=
  if b.gates.sessionPhase = .closed then ((0, .marketClosed), b)
  else if qty ≤ 0 then ((0, .qtyZeroOrNegative), b)
  else
    let price := match side with
      | .buy => if b.core.hasBid then i32 (b.core.bestBid + offset) else 0
      | .sell => if b.core.hasAsk then i32 (b.core.bestAsk + offset) else V.LEVELS - 1
    b.enterPeg V side offset qty orderId clientId cap (capPeg side cap price) 0

def submitPegMid (side : Side) (offset qty : Int) (orderId clientId : Nat) (cap : Int) :
    (Nat × RejectReason) × Book :=
  if b.gates.sessionPhase = .closed then ((0, .marketClosed), b)
  else if qty ≤ 0 then ((0, .qtyZeroOrNegative), b)
  else if b.core.midTicks < 0 then ((0, .priceOutOfRange), b)
  else b.enterPeg V side offset qty orderId clientId cap (capPeg side cap (i32 (b.core.midTicks + offset))) 1

/-! ## submit -/

def reject (r : Request) (reason : RejectReason) : Book :=
  b.emit .reject r.orderId 0 r.priceTicks r.qty .rejected reason r.clientId

def consumeRateToken (cid : Nat) : Bool × Book :=
  match b.gates.rateBuckets cid with
  | none => (true, b)
  | some rb =>
    let (now, b) := b.monoNsNow V
    let rb := if rb.lastRefillNs < now then
        let refill := toDouble (toDouble (toDouble (now - rb.lastRefillNs : Nat) * rb.refillPerSec) / 1000000000)
        { rb with tokens := min rb.capacity (toDouble (rb.tokens + refill)), lastRefillNs := now }
      else rb
    let ok := decide (1 ≤ rb.tokens)
    let rb := if ok then { rb with tokens := toDouble (rb.tokens - 1) } else rb
    (ok, { b with gates := { b.gates with rateBuckets := Function.update b.gates.rateBuckets cid (some rb) } })

/-- The checks of `submit` against the other side of the book: POST_ONLY, FOK and the minimum quantity. -/
def previewReject (r : Request) : Option RejectReason :=
  if r.type = .postOnly ∧ b.core.wouldCross r.side r.priceTicks = true then some .postOnlyWouldCross
  else if (r.type = .fok ∨ r.tif = .fok) ∧ b.core.fokFillable V r.side r.priceTicks r.qty = false then
    some .fokNotFillable
  else if 0 < r.minQty ∧ r.type ≠ .postOnly ∧ r.type ≠ .hidden ∧ b.gates.inAuctionMode = false ∧
      (b.core.walkTheBook V r.side r.qty r.priceTicks).fillableQty < r.minQty then
    some .minQtyNotMet
  else none

/-- A LULD breach halts the book, or moves it to an auction, when so configured. -/
def luldBreach : Book :=
  { b with gates :=
      if b.gates.luldHaltToAuction then { b.gates with inAuctionMode := true, haltReopenPending := true }
      else { b.gates with halted := b.gates.halted || b.gates.luldAutoHalt } }

/-- The checks per client (rate limit, market-maker protection) and per price band, then the preview. -/
def limitReject (r : Request) : Option RejectReason × Book :=
  let external := !b.gates.inInternalSubmit && r.clientId ≠ 0
  let (token, b) := if b.gates.rateLimitingEnabled && external then b.consumeRateToken V r.clientId else (true, b)
  if !token then (some .rateLimited, b)
  else if b.gates.mmpEnabled && external && (b.gates.mmp r.clientId).any (·.tripped) then (some .mmpTripped, b)
  else if b.gates.luldEnabled = true ∧ (r.priceTicks < b.gates.luldLowTicks ∨ b.gates.luldHighTicks < r.priceTicks) then
    (some .luldBandBreach, b.luldBreach)
  else (b.previewReject V r, b)

/-- The admission checks of `submit`, in order. The rate limit takes a token and a LULD breach
    may halt the book, so the book is returned as well. -/
def admission (r : Request) : Option RejectReason × Book :=
  if b.gates.sessionPhase = .closed then (some .marketClosed, b)
  else if b.gates.halted then (some .halted, b)
  else if r.qty ≤ 0 then (some .qtyZeroOrNegative, b)
  else if ¬ inRange V r.priceTicks ∧ r.type ≠ .market then (some .priceOutOfRange, b)
  else if r.orderId ≠ 0 ∧ (b.core.find r.orderId).isSome then (some .duplicateId, b)
  else b.limitReject V r

/-- Allocation and initialisation of an admitted order; it is now in flight. -/
def accept (r : Request) : Option (Nat × Book) :=
  let (ts, b) := b.monoNsNow V
  match b.core.allocAs r.orderId fun o => { o with
      clientId := r.clientId, priceTicks := r.priceTicks, totalQty := r.qty, filledQty := 0,
      displayedQty := r.shown, icebergDisplaySize := r.iceShow, side := r.side, type := r.type, tif := r.tif,
      status := .new, submitTsNs := ts } with
  | none => none
  | some (i, c) =>
    let b := { b with core := c }
    let o := b.order i
    let b := b.emit .accept o.id 0 o.priceTicks o.totalQty .open .none o.clientId
    let b := b.exposureOnSubmit o.clientId o.side o.totalQty
    some (i, { b with inFlight := i :: b.inFlight }.note (.accept o))

/-- Whether an accepted order is matched: not a POST_ONLY, not a HIDDEN one, not in auction mode. -/
def matchesOnEntry (r : Request) : Bool := r.type ≠ .postOnly && r.type ≠ .hidden && !b.gates.inAuctionMode

/-- A completely filled taker does not enter the book. -/
def finishFilled (i : Nat) : Book :=
  let o := b.order i
  { b with core := (b.core.setStatus i .filled).freeOrder i, inFlight := b.inFlight.erase i }.note (.takerFilled o)

/-- The remainder of an IOC order is dropped. -/
def finishIoc (i : Nat) : Book :=
  let o := b.order i
  let b := b.mapCore (·.setStatus i .cancelled)
  let b := b.emit .cancel o.id 0 o.priceTicks o.remainingQty .cancelled .none o.clientId
  { b with core := b.core.freeOrder i, inFlight := b.inFlight.erase i }.note (.iocCancel o)

/-- The remainder joins the queue of its level. -/
def restOrder (i : Nat) : Book :=
  let o := (b.order i).atRest
  let b := b.mapCore fun c => ((c.setOrder i o).enqueueAtLevel i).indexOrder i
  let b := { b with inFlight := b.inFlight.erase i }.note (.rest o)
  if o.type = .hidden then b
  else
    let b := b.mapCore (·.raiseBest o.side o.priceTicks)
    b.pushDelta .add o.side o.priceTicks (b.core.levels o.priceTicks).totalQty

/-- The part of `submit` after matching: `none` when the remainder would join a level outside
    the grid. -/
def finish (i : Nat) : Option Book :=
  let o := b.order i
  if o.totalQty ≤ o.filledQty then some (b.finishFilled i)
  else if o.type = .ioc ∨ o.tif = .ioc then some (b.finishIoc i)
  else if inRange V o.priceTicks then some (b.restOrder i)
  else none

/-- A function that submits: the type of `submit` with its fuel given. -/
abbrev Submitter := Request → Book → Option ((Nat × RejectReason) × Book)

def setInternal (on : Bool) : Book := { b with gates := { b.gates with inInternalSubmit := on } }

def armBracketExits (sub : Submitter) (s : BracketSpec) : Option Book :=
  match sub { side := s.exitSide, priceTicks := s.tpPriceTicks, qty := s.qty, tif := .gtc, clientId := s.clientId }
      (b.setInternal true) with
  | none => none
  | some ((tp, _), b) =>
    let ((sl, _), b) := b.submitStop V s.exitSide s.slTriggerTicks 0 s.qty 0 s.clientId
    let b := b.setInternal false
    if tp ≠ 0 ∧ sl ≠ 0 then some (b.linkOco tp sl).2 else some b

def processBracketPending (sub : Submitter) : Nat → Book → Option Book
  | 0, _ => none
  | n + 1, b =>
    match b.brackets.pending.getLast? with
    | none => some b
    | some s =>
      match { b with brackets := { b.brackets with pending := b.brackets.pending.dropLast } }.armBracketExits V sub s with
      | none => none
      | some b => processBracketPending sub n b

/-- Matching and the work it deferred. -/
def matchAndProcess (sub : Submitter) (n : Nat) (i : Nat) : Option Book :=
  match b.matchAgainst V n i with
  | none => none
  | some b =>
    match processBracketPending V sub n (b.processOcoPending V) with
    | none => none
    | some b => some (b.processMmpPending V)

def submitWith (sub : Submitter) (n : Nat) : Submitter := fun r b =>
  match b.admission V r with
  | (some reason, b) => some ((0, reason), b.reject r reason)
  | (none, b) =>
    match b.accept V r with
    | none => some ((0, .poolExhausted), b.reject r .poolExhausted)
    | some (i, b) =>
      let id := (b.order i).id
      match (if b.matchesOnEntry r then b.matchAndProcess V sub n i else some b) with
      | none => none
      | some b =>
        match b.finish V i with
        | none => none
        | some b => some ((id, .none), b)

def submit : Nat → Submitter
  | 0 => fun _ _ => none
  | n + 1 => submitWith V (submit n) n

end Book

end HftLab.OrderBook
