/-
  HftLab.Router.SmartRouter — the smart order router (smart_router.hpp): which venues an order goes to.

  Prices, fees and averages are exact rationals. `now_ns()` is an argument: `t0` is its value at entry,
  `t1` when the decision is complete. Of the reads of the router only those of the limit sweep are here.
-/

import HftLab.Lib.Greedy
import HftLab.Lib.Int32

namespace HftLab.Router

open Lib

/-- Max number of venues. -/
def MAX_VENUES : Nat := 16

inductive RoutingStrategy where
  | bestPrice
  | lowestLatency
  | split
  deriving DecidableEq, Repr

inductive RouteReject where
  | none
  | noVenues
  | noLiquidity
  deriving DecidableEq, Repr

structure Venue where
  name : String := ""
  latencyNs : Int := 0
  latencyP99Ns : Int := 0
  feePerShare : ℚ := 0
  bestBid : ℚ := 0
  bestAsk : ℚ := 0
  bidSize : Int := 0
  askSize : Int := 0
  isActive : Bool := true
  ewmaLatencyNs : ℚ := 0
  latencySamples : Nat := 0
  /-- The streak of rejects and timeouts. -/
  consecutiveFailures : Nat := 0
  routedShares : Int := 0
  routesCount : Nat := 0
  deriving DecidableEq

namespace Venue

variable (v : Venue)

/-- The quote of the side an order takes. -/
def px (isBuy : Bool) : ℚ := if isBuy then v.bestAsk else v.bestBid

def size (isBuy : Bool) : Int := if isBuy then v.askSize else v.bidSize

/-- The quote with the fee: BUY lower is better, SELL higher is better. -/
def effectivePrice (isBuy : Bool) : ℚ := if isBuy then v.bestAsk + v.feePerShare else v.bestBid - v.feePerShare

/-- `static_cast<int64_t>` of a measured latency. -/
def truncated (x : ℚ) : Int := if 0 ≤ x then x.floor else x.ceil

/-- Measured before declared, the tail before the mean. -/
def selectionLatencyNs : Int :=
  if 0 < v.latencySamples then truncated v.ewmaLatencyNs
  else if 0 < v.latencyP99Ns then v.latencyP99Ns else v.latencyNs

def hasLiq (isBuy : Bool) : Bool := 0 < v.px isBuy && 0 < v.size isBuy

/-- What routing `n` shares to the venue adds to its records. -/
def routed (n : Int) : Venue := { v with routedShares := v.routedShares + n, routesCount := v.routesCount + 1 }

end Venue

structure RouteDecision where
  venue : String := ""
  price : ℚ := 0
  effectivePrice : ℚ := 0
  totalFee : ℚ := 0
  quantity : Int := 0
  unfilledQty : Int := 0
  numVenues : Int := 0
  latencyNs : Int := 0
  valid : Bool := false
  rejectReason : RouteReject := .none
  deriving DecidableEq

structure SmartOrderRouter where
  venues : List Venue := []
  room : venues.length ≤ MAX_VENUES := by decide
  defaultStrategy : RoutingStrategy := .bestPrice
  splitThreshold : Int := 500
  /-- A venue with a streak of that length is disabled. -/
  maxFailures : Nat := 3
  totalRoutes : Nat := 0
  totalRejected : Nat := 0
  totalLatencyNs : Int := 0
  maxRoutingLatencyNs : Int := 0
  totalUnfilledShares : Int := 0
  totalRoutedNotional : ℚ := 0
  totalFeesPaid : ℚ := 0

/-- The better of two effective prices comes first. -/
def beats (isBuy : Bool) (a b : ℚ) : Bool := if isBuy then a < b else b < a

namespace SmartOrderRouter

variable (x : SmartOrderRouter)

def addVenue (v : Venue) : SmartOrderRouter :=
  if h : x.venues.length < MAX_VENUES then
    { x with
      venues := x.venues ++ [v]
      room := by
        rw [List.length_append]
        exact h }
  else x

def venue (i : Nat) : Venue := x.venues.getD i {}

def record (i : Nat) (n : Int) : SmartOrderRouter :=
  { x with
    venues := x.venues.modify i (·.routed n)
    room := by
      rw [List.length_modify]
      exact x.room }

/-- The active venues with liquidity on the side, by their places. -/
def candidates (isBuy : Bool) : List Nat :=
  (List.range x.venues.length).filter fun i => (x.venue i).isActive && (x.venue i).hasLiq isBuy

def eff (isBuy : Bool) (i : Nat) : ℚ := (x.venue i).effectivePrice isBuy

/-- A decision with a route goes into the totals. -/
def account (d : RouteDecision) : SmartOrderRouter :=
  { x with
    totalRoutes := x.totalRoutes + 1
    totalLatencyNs := x.totalLatencyNs + d.latencyNs
    maxRoutingLatencyNs := if x.maxRoutingLatencyNs < d.latencyNs then d.latencyNs else x.maxRoutingLatencyNs
    totalUnfilledShares := x.totalUnfilledShares + d.unfilledQty
    totalRoutedNotional := x.totalRoutedNotional + d.price * d.quantity
    totalFeesPaid := x.totalFeesPaid + d.totalFee }

def reject (reason : RouteReject) : RouteDecision × SmartOrderRouter :=
  ({ rejectReason := reason }, { x with totalRejected := x.totalRejected + 1 })

/-! ## SPLIT -/

/-- What the loop of `split_order` carries. -/
structure Split where
  router : SmartOrderRouter
  remaining : Int
  filled : Int := 0
  venuesUsed : Int := 0
  priceSum : ℚ := 0
  feeSum : ℚ := 0

/-- The loop over the sorted candidates. -/
def splitLoop (isBuy : Bool) : List Nat → Split → Split
  | [], s => s
  | i :: l, s =>
    if 0 < s.remaining then
      let v := s.router.venue i
      let alloc := min s.remaining (v.size isBuy)
      if alloc ≤ 0 then splitLoop isBuy l s
      else splitLoop isBuy l
        { router := s.router.record i alloc
          remaining := s.remaining - alloc
          filled := s.filled + alloc
          venuesUsed := s.venuesUsed + 1
          priceSum := s.priceSum + v.px isBuy * alloc
          feeSum := s.feeSum + v.feePerShare * alloc }
    else s

/-- The candidates by effective price, sorted in place. -/
def sorted (isBuy : Bool) (l : List Nat) : List Nat :=
  exchangeSort (fun j i => beats isBuy (x.eff isBuy j) (x.eff isBuy i)) (l.length - 1) l

def splitOrder (l : List Nat) (isBuy : Bool) (quantity : Int) (t0 t1 : Int) : RouteDecision × SmartOrderRouter :=
  let l := x.sorted isBuy l
  let s := splitLoop isBuy l { router := x, remaining := quantity }
  if s.filled = 0 then s.router.reject .noLiquidity
  else
    let d : RouteDecision :=
      { valid := true
        venue := (x.venue (l.headD 0)).name
        price := s.priceSum / s.filled
        effectivePrice := if isBuy then (s.priceSum + s.feeSum) / s.filled else (s.priceSum - s.feeSum) / s.filled
        totalFee := s.feeSum
        quantity := s.filled
        unfilledQty := quantity - s.filled
        numVenues := s.venuesUsed
        latencyNs := t1 - t0 }
    (d, s.router.account d)

/-! ## Routing -/

/-- The pick among the candidates: the first of the fastest, or of the best effective price. -/
def single (isBuy : Bool) (strat : RoutingStrategy) (l : List Nat) : Nat :=
  match l with
  | [] => 0
  | i :: l =>
    if strat = .lowestLatency then
      l.foldl (fun best j => if (x.venue j).selectionLatencyNs < (x.venue best).selectionLatencyNs then j else best) i
    else l.foldl (fun best j => if beats isBuy (x.eff isBuy j) (x.eff isBuy best) then j else best) i

def routeSingle (i : Nat) (isBuy : Bool) (quantity : Int) (t0 t1 : Int) : RouteDecision × SmartOrderRouter :=
  let v := x.venue i
  let filled := min quantity (v.size isBuy)
  let d : RouteDecision :=
    { valid := true
      venue := v.name
      price := v.px isBuy
      effectivePrice := v.effectivePrice isBuy
      totalFee := v.feePerShare * filled
      quantity := filled
      unfilledQty := quantity - filled
      numVenues := 1
      latencyNs := t1 - t0 }
  (d, (x.record i filled).account d)

/-- `side[0] == 'B'` -/
def isBuySide (side : String) : Bool := side.toList.head? = some 'B'

def routeOrder (side : String) (quantity : Int) (strat : RoutingStrategy) (t0 t1 : Int) : RouteDecision × SmartOrderRouter :=
  let isBuy := isBuySide side
  let l := x.candidates isBuy
  if l.isEmpty then x.reject (if x.venues.isEmpty then .noVenues else .noLiquidity)
  else if strat = .split ∧ x.splitThreshold ≤ quantity then x.splitOrder l isBuy quantity t0 t1
  else x.routeSingle (x.single isBuy strat l) isBuy quantity t0 t1

/-! ## The limit sweep -/

/-- The all-in price is past the limit. -/
def past (isBuy : Bool) (limit : ℚ) (eff : ℚ) : Bool := if isBuy then limit < eff else eff < limit

def liquidityAtLimit (isBuy : Bool) (limit : ℚ) : Int :=
  (List.range x.venues.length).foldl (fun total i =>
    let v := x.venue i
    if !v.isActive then total
    else if !v.hasLiq isBuy then total
    else if !past isBuy limit (x.eff isBuy i) then i32 (total + v.size isBuy) else total) 0

/-- One pass of the sweeps: the first of the best unused venues within the limit, with its effective price. -/
def bestUnused (isBuy : Bool) (limit : ℚ) (used : Nat → Bool) : Option (Nat × ℚ) :=
  (List.range x.venues.length).foldl (fun best i =>
    let v := x.venue i
    if used i then best
    else if !v.isActive then best
    else if v.px isBuy ≤ 0 ∨ v.size isBuy ≤ 0 then best
    else
      let eff := x.eff isBuy i
      if past isBuy limit eff then best
      else match best with
        | none => some (i, eff)
        | some (b, bestEff) => if beats isBuy eff bestEff then some (i, eff) else some (b, bestEff)) none

/-- The passes of `sweep_to_fill_at_limit`: what is filled, at which notional. -/
def sweepLoop (isBuy : Bool) (limit : ℚ) : Nat → (Nat → Bool) → Int → Int → ℚ → Int × ℚ
  | 0, _, _, filled, notional => (filled, notional)
  | n + 1, used, remaining, filled, notional =>
    if 0 < remaining then
      match x.bestUnused isBuy limit used with
      | none => (filled, notional)
      | some (i, bestEff) =>
        let sz := (x.venue i).size isBuy
        let take := if remaining < sz then remaining else sz
        sweepLoop isBuy limit n (Function.update used i true) (remaining - take) (filled + take) (notional + bestEff * take)
    else (filled, notional)

/-- The shares filled and `out_vwap`. -/
def sweepToFillAtLimit (isBuy : Bool) (shares : Int) (limit : ℚ) : Int × ℚ :=
  if shares ≤ 0 then (0, 0)
  else
    let (filled, notional) := x.sweepLoop isBuy limit x.venues.length (fun _ => false) shares 0 0
    (filled, if 0 < filled then notional / filled else 0)

/-- The passes of `venues_to_fill_at_limit`: what remains, and how many venues were touched. -/
def touchLoop (isBuy : Bool) (limit : ℚ) : Nat → (Nat → Bool) → Int → Int → Int × Int
  | 0, _, remaining, touched => (remaining, touched)
  | n + 1, used, remaining, touched =>
    if 0 < remaining then
      match x.bestUnused isBuy limit used with
      | none => (remaining, touched)
      | some (i, _) =>
        let sz := (x.venue i).size isBuy
        touchLoop isBuy limit n (Function.update used i true) (remaining - if remaining < sz then remaining else sz) (touched + 1)
    else (remaining, touched)

def venuesToFillAtLimit (isBuy : Bool) (shares : Int) (limit : ℚ) : Int :=
  if shares ≤ 0 then 0
  else
    let (remaining, touched) := x.touchLoop isBuy limit x.venues.length (fun _ => false) shares 0
    if 0 < remaining then -1 else touched

end SmartOrderRouter

end HftLab.Router
