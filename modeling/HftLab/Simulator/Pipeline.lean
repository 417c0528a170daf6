/-
  HftLab.Simulator.Pipeline — `run_pipeline` (market_sim.hpp) from the parsed messages on: the main loop, its four modes and the queue of
  fills that are still on their way.

  What the strategy, the router, the matching engine and the market makers answer is given (`Answers`), each answer for the
  iteration and the arguments it is asked with, and so is the clock of the rate limit. `Conversions` are those between a `double`
  and the fixed-point prices of the OMS. Times, the generator and the figures that are only computed after the loop are left out.
-/

import HftLab.Risk.Manager

namespace HftLab.Simulator

open Lib
open HftLab.Oms (Side OMS symToKey)
open HftLab.Risk (Doubles RiskManager RiskLimits)

/-! ## What the loop is given -/

/-- A parsed message; every other type is skipped. -/
inductive ParsedMessage (D : Type) where
  | addOrder (stock : List UInt8) (side : Char) (shares : Nat) (price : D)
  | trade (stock : List UInt8) (side : Char) (shares : Nat) (price : D)
  | other

structure Quote where
  bidPrice : Int
  askPrice : Int
  bidSize : Int
  askSize : Int
  deriving DecidableEq, Repr

/-- A valid signal of the strategy. -/
structure Signal (D : Type) where
  side : Side
  price : D
  quantity : Int

structure Answers (D : Type) where
  /-- The two-sided quote of the symbol's market maker. -/
  quote : Nat → List UInt8 → D → Quote
  /-- `on_market_data`, `none` for a signal that is not valid. -/
  onMarketData : Nat → List UInt8 → D → Option (Signal D)
  /-- The price of `route_order`, `none` for a decision that is not valid. -/
  routeOrder : Nat → Side → Int → Option D
  /-- What `match` fills, and the average price. -/
  matchBook : Nat → Side → D → Int → Int × D
  clock : Nat → Int

structure Conversions (D : Type) where
  isNan : D → Bool
  toFixed : D → Int
  toFloat : Int → D

structure PipelineConfig (D : Type) where
  useStrategy : Bool
  useRouter : Bool
  useRisk : Bool
  useBook : Bool
  useMm : Bool
  fillLatencyIters : Int
  oms : Oms.Config
  limits : RiskLimits D

/-! ## State -/

structure PendingFill (D : Type) where
  orderId : Nat
  shares : Int
  price : D
  dueIter : Int

/-- The counters of the loop. -/
structure PipelineStats (D : Type) where
  ordersSubmitted : Nat := 0
  ordersFilled : Nat := 0
  ordersRejected : Nat := 0
  ordersRiskRejected : Nat := 0
  riskKillTripped : Bool := false
  ordersBookPartial : Nat := 0
  bookSlippageUsd : D
  mmFills : Nat := 0
  maxInFlightOrders : Nat := 0

structure Pipeline (D : Type) where
  oms : OMS := {}
  risk : RiskManager D
  pendingFills : List (PendingFill D) := []
  stats : PipelineStats D

section

variable {D : Type} (F : Doubles D) (conv : Conversions D) (cfg : PipelineConfig D) (ans : Answers D)

def start : Pipeline D := { risk := Risk.fresh F cfg.limits, stats := { bookSlippageUsd := F.ofInt 0 } }

namespace Pipeline

/-- Note whether the kill switch is on. -/
def noteKill (p : Pipeline D) : Pipeline D :=
  if p.risk.killSwitchActive then { p with stats := { p.stats with riskKillTripped := true } } else p

/-! ## Orders and fills -/

/-- `p ? p->realized_pnl : 0`. -/
def realizedPnl (oms : OMS) (symbol : List UInt8) : Int := ((oms.positions (symToKey symbol)).map (·.realizedPnl)).getD 0

/-- What `do_fill` tells the risk manager of `applied` shares of the order `o`; `pnlPre` is the profit before the fill. -/
def settle (p : Pipeline D) (o : Oms.Order) (applied : Nat) (pnlPre : Int) : Pipeline D :=
  let risk := p.risk.updatePosition o.symbol o.side (i32 applied)
  let pnlPost := realizedPnl p.oms o.symbol
  let risk := if pnlPost ≠ pnlPre then risk.updatePnl F (conv.toFloat (i64 (pnlPost - pnlPre))) else risk
  noteKill { p with risk }

def doFill (p : Pipeline D) (orderId : Nat) (sh : Int) (px : D) : Pipeline D :=
  let o := p.oms.orders orderId
  let pnlPre := (o.map fun o => realizedPnl p.oms o.symbol).getD 0
  let (applied, oms) := p.oms.fillOrder cfg.oms orderId (uint32Of sh) (conv.toFixed px)
  let p := { p with oms, stats := { p.stats with ordersFilled := p.stats.ordersFilled + 1 } }
  match o with
  | none => p
  | some o => if cfg.useRisk && 0 < applied then p.settle F conv o applied pnlPre else p

/-- The gate before the OMS: whether the order may go. -/
def checkRisk (p : Pipeline D) (i : Nat) (stock : List UInt8) (side : Side) (price : D) (qty : Int) : Bool × Pipeline D :=
  if cfg.useRisk then
    let (rc, risk) := p.risk.checkOrder F stock side price qty (ans.clock i)
    let p := { p with risk }
    if rc.action = .allow then (true, p)
    else (false, noteKill { p with stats := { p.stats with ordersRiskRejected := p.stats.ordersRiskRejected + 1 } })
  else (true, p)

/-- `submit_order`, and the reservation of what it sent. -/
def submit (p : Pipeline D) (stock : List UInt8) (side : Side) (price : D) (qty : Int) : Option Nat × Pipeline D :=
  match p.oms.submitOrder cfg.oms stock side (if conv.isNan price then none else some (conv.toFixed price)) (uint32Of qty) 0 with
  | (some id, oms) =>
    let risk := if cfg.useRisk then p.risk.onOrderSent stock side qty else p.risk
    (some id, { p with oms, risk, stats := { p.stats with ordersSubmitted := p.stats.ordersSubmitted + 1 } })
  | (none, oms) => (none, { p with oms, stats := { p.stats with ordersRejected := p.stats.ordersRejected + 1 } })

/-! ## One message -/

/-- Fill what is due at iteration `i`. -/
def drain (p : Pipeline D) (i : Nat) : Pipeline D :=
  let due := p.pendingFills.takeWhile (·.dueIter ≤ (i : Int))
  let p' := due.foldl (fun p pf => p.doFill F conv cfg pf.orderId pf.shares pf.price) p
  { p' with pendingFills := p.pendingFills.dropWhile (·.dueIter ≤ (i : Int)) }

/-- Market maker mode: the message crosses the maker's quote, and the fill is immediate. -/
def makeMarket (p : Pipeline D) (i : Nat) (stock : List UInt8) (price : D) (aggressorBuy : Bool) : Pipeline D :=
  let q := ans.quote i stock price
  let (mmSide, mmQty, mmPxTicks) : Side × Int × Int :=
    if aggressorBuy && 0 < q.askSize then (.sell, q.askSize, q.askPrice)
    else if !aggressorBuy && 0 < q.bidSize then (.buy, q.bidSize, q.bidPrice)
    else (.buy, 0, 0)
  if 0 < mmQty ∧ 0 < mmPxTicks then
    let mmPx := F.div (F.ofInt mmPxTicks) (F.ofInt 100)
    match p.checkRisk F cfg ans i stock mmSide mmPx mmQty with
    | (false, p) => p
    | (true, p) =>
      match p.submit conv cfg stock mmSide mmPx mmQty with
      | (none, p) => p
      | (some id, p) => doFill F conv cfg { p with stats := { p.stats with mmFills := p.stats.mmFills + 1 } } id mmQty mmPx
  else p

/-- Side, shares and price of the order that a message leads to, `none` for a message without a signal. -/
def chooseOrder (i : Nat) (stock : List UInt8) (price : D) (side : Side) (shares : Int) : Option (Side × Int × D) :=
  if cfg.useStrategy then
    (ans.onMarketData i stock price).map fun signal =>
      let fillPrice := if cfg.useRouter then (ans.routeOrder i signal.side signal.quantity).getD signal.price else signal.price
      (signal.side, signal.quantity, fillPrice)
  else if cfg.useRouter then some (side, shares, (ans.routeOrder i side shares).getD price)
  else some (side, shares, price)

/-- The match in the book, if there is one: the quantity and the price to fill. -/
def matchOrder (p : Pipeline D) (i : Nat) (side : Side) (price : D) (shares : Int) : Int × D × Pipeline D :=
  if cfg.useBook then
    let (matched, vwap) := ans.matchBook i side price shares
    let slip := match side with
      | .buy => F.sub vwap price
      | .sell => F.sub price vwap
    let stats := p.stats
    let stats := if matched < shares then { stats with ordersBookPartial := stats.ordersBookPartial + 1 } else stats
    let stats :=
      if 0 < matched then { stats with bookSlippageUsd := F.add stats.bookSlippageUsd (F.mul slip (F.ofInt matched)) } else stats
    (matched, vwap, { p with stats })
  else (shares, price, p)

/-- An order that was accepted is filled now, put in the queue, or left pending for want of liquidity. -/
def execute (p : Pipeline D) (i id : Nat) (side : Side) (price : D) (shares : Int) : Pipeline D :=
  let (fillSh, fillPx, p) := p.matchOrder F cfg ans i side price shares
  if fillSh ≤ 0 then p
  else if cfg.fillLatencyIters ≤ 0 then p.doFill F conv cfg id fillSh fillPx
  else
    let pendingFills := p.pendingFills ++ [⟨id, fillSh, fillPx, i + cfg.fillLatencyIters⟩]
    { p with pendingFills, stats := { p.stats with maxInFlightOrders := max p.stats.maxInFlightOrders pendingFills.length } }

/-- The other modes. -/
def sendOrder (p : Pipeline D) (i : Nat) (stock : List UInt8) (price : D) (side : Side) (shares : Int) : Pipeline D :=
  match chooseOrder cfg ans i stock price side shares with
  | none => p
  | some (side, shares, price) =>
    match p.checkRisk F cfg ans i stock side price shares with
    | (false, p) => p
    | (true, p) =>
      match p.submit conv cfg stock side price shares with
      | (none, p) => p
      | (some id, p) => p.execute F conv cfg ans i id side price shares

/-- A message that can be traded on, with the side of its sender. -/
def onTradable (p : Pipeline D) (i : Nat) (stock : List UInt8) (side : Char) (shares : Nat) (price : D) : Pipeline D :=
  if F.le price (F.ofInt 0) then p
  else
    let p := if cfg.useRisk then { p with risk := p.risk.updateReferencePrice F stock price } else p
    if cfg.useMm then p.makeMarket F conv cfg ans i stock price (side = 'B')
    else p.sendOrder F conv cfg ans i stock price (if side = 'B' then .buy else .sell) (i32 shares)

/-- Iteration `i` of the main loop. -/
def iterate (p : Pipeline D) (i : Nat) (m : ParsedMessage D) : Pipeline D :=
  let p := p.drain F conv cfg i
  match m with
  | .addOrder stock side shares price => p.onTradable F conv cfg ans i stock side shares price
  | .trade stock side shares price => p.onTradable F conv cfg ans i stock side shares price
  | .other => p

/-- The main loop from iteration `i` on. -/
def loop (p : Pipeline D) : Nat → List (ParsedMessage D) → Pipeline D
  | _, [] => p
  | i, m :: parsed => loop (p.iterate F conv cfg ans i m) (i + 1) parsed

/-- Settle what is in flight at the end of the stream. -/
def finalDrain (p : Pipeline D) : Pipeline D :=
  let p' := p.pendingFills.foldl (fun p pf => p.doFill F conv cfg pf.orderId pf.shares pf.price) p
  { p' with pendingFills := [] }

end Pipeline

/-- The pipeline after the iterations over `parsed`. -/
def mainLoop (parsed : List (ParsedMessage D)) : Pipeline D := (start F cfg).loop F conv cfg ans 0 parsed

def runPipeline (parsed : List (ParsedMessage D)) : Pipeline D := (mainLoop F conv cfg ans parsed).finalDrain F conv cfg

end

end HftLab.Simulator
