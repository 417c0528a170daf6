/-
  HftLab.Router.Operations — the calls of the router: its list of venues, their quotes, fees and health, and the runs.

  A call finds its venue by the first place with the name (`placeOf`), and does nothing where there is none. The time
  of a quote is left out: only the reads of stale quotes ask for it.
-/

import HftLab.Router.SmartRouter

namespace HftLab.Router

namespace SmartOrderRouter

variable (x : SmartOrderRouter) (venueName : String)

/-- The place of the first venue of the name; past the end if there is none. -/
def placeOf : Nat := x.venues.findIdx (·.name = venueName)

def known : Bool := x.venues.any (·.name = venueName)

/-- `f` at the first venue of the name. -/
def onVenue (f : Venue → Venue) : SmartOrderRouter :=
  { x with
    venues := x.venues.modify (x.placeOf venueName) f
    room := by
      rw [List.length_modify]
      exact x.room }

/-- Whether the venue was there. -/
def removeVenue : Bool × SmartOrderRouter :=
  (x.known venueName,
    { x with
      venues := x.venues.eraseIdx (x.placeOf venueName)
      room := (List.length_eraseIdx_le ..).trans x.room })

/-! ## Health -/

/-- A measured round trip goes into the average; the venue is healthy. -/
def recordLatency (observedNs : Int) : SmartOrderRouter :=
  if observedNs ≤ 0 then x
  else x.onVenue venueName fun v =>
    let alpha : ℚ := 1 / 5
    { v with
      ewmaLatencyNs := if v.latencySamples = 0 then observedNs else alpha * observedNs + (1 - alpha) * v.ewmaLatencyNs
      latencySamples := (v.latencySamples + 1) % 4294967296
      consecutiveFailures := 0
      isActive := true }

def setFailureThreshold (n : Nat) : SmartOrderRouter := if 0 < n then { x with maxFailures := n } else x

/-- A streak that reaches the threshold disables the venue. -/
def recordReject : SmartOrderRouter :=
  x.onVenue venueName fun v =>
    let n := (v.consecutiveFailures + 1) % 4294967296
    { v with
      consecutiveFailures := n
      isActive := if x.maxFailures ≤ n then false else v.isActive }

def recordSuccess : SmartOrderRouter :=
  x.onVenue venueName fun v => { v with consecutiveFailures := 0, isActive := true }

/-- The operator's switch. -/
def setVenueActive (active : Bool) : Bool × SmartOrderRouter :=
  (x.known venueName,
    x.onVenue venueName fun v =>
      { v with
        isActive := active
        consecutiveFailures := if active then 0 else v.consecutiveFailures })

/-! ## Quotes and fees -/

def updateQuote (bid ask : ℚ) (bidSize askSize : Int) : SmartOrderRouter :=
  x.onVenue venueName fun v => { v with bestBid := bid, bestAsk := ask, bidSize, askSize }

def setVenueFee (feePerShare : ℚ) : Bool × SmartOrderRouter :=
  (x.known venueName, x.onVenue venueName fun v => { v with feePerShare })

/-! ## Statistics -/

/-- The counters of the venues start anew. -/
def resetRoutingStats : SmartOrderRouter :=
  { x with
    venues := x.venues.map fun v => { v with routedShares := 0, routesCount := 0 }
    room := by
      rw [List.length_map]
      exact x.room }

def resetSessionStats : SmartOrderRouter :=
  { x.resetRoutingStats with
    totalRoutes := 0
    totalRejected := 0
    totalLatencyNs := 0
    maxRoutingLatencyNs := 0
    totalUnfilledShares := 0
    totalRoutedNotional := 0
    totalFeesPaid := 0 }

def totalRoutedShares : Int := (x.venues.map (·.routedShares)).sum

/-- The notional over the shares; 0 before anything is routed. -/
def avgRoutedPrice : ℚ := if 0 < x.totalRoutedShares then x.totalRoutedNotional / x.totalRoutedShares else 0

end SmartOrderRouter

/-- The constructor. -/
def fresh (defaultStrategy : RoutingStrategy) (splitThreshold : Int) : SmartOrderRouter := { defaultStrategy, splitThreshold }

/-! ## Runs -/

inductive Op where
  | addVenue (v : Venue)
  | removeVenue (venueName : String)
  | recordLatency (venueName : String) (observedNs : Int)
  | setFailureThreshold (n : Nat)
  | recordReject (venueName : String)
  | recordSuccess (venueName : String)
  | setVenueActive (venueName : String) (active : Bool)
  | updateQuote (venueName : String) (bid ask : ℚ) (bidSize askSize : Int)
  | setVenueFee (venueName : String) (feePerShare : ℚ)
  | routeOrder (side : String) (quantity : Int) (strat : RoutingStrategy) (t0 t1 : Int)
  | resetRoutingStats
  | resetSessionStats

namespace SmartOrderRouter

def exec (x : SmartOrderRouter) : Op → SmartOrderRouter
  | .addVenue v => x.addVenue v
  | .removeVenue venueName => (x.removeVenue venueName).2
  | .recordLatency venueName observedNs => x.recordLatency venueName observedNs
  | .setFailureThreshold n => x.setFailureThreshold n
  | .recordReject venueName => x.recordReject venueName
  | .recordSuccess venueName => x.recordSuccess venueName
  | .setVenueActive venueName active => (x.setVenueActive venueName active).2
  | .updateQuote venueName bid ask bidSize askSize => x.updateQuote venueName bid ask bidSize askSize
  | .setVenueFee venueName feePerShare => (x.setVenueFee venueName feePerShare).2
  | .routeOrder side quantity strat t0 t1 => (x.routeOrder side quantity strat t0 t1).2
  | .resetRoutingStats => x.resetRoutingStats
  | .resetSessionStats => x.resetSessionStats

def run (x : SmartOrderRouter) (ops : List Op) : SmartOrderRouter := ops.foldl exec x

end SmartOrderRouter

end HftLab.Router
