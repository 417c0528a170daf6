/-
  HftLab.Risk.Manager — the pre-trade risk manager (risk_manager.hpp): `check_order`, the mutators of positions and
  pending quantities, P&L and the daily reset.

  `double` is a type `D` with the operations of `Doubles`, about which nothing is assumed. Positions, pending
  quantities and the projections of `check_order` are 32-bit and wrap; the sum of exposures, which has 64 bits, does
  not. The time a check takes is left out, and so are the statistics of `update_pnl` that no check reads and the file
  that keeps the kill switch.
-/

import HftLab.Oms.Orders
import Mathlib.Algebra.Ring.Int.Defs
import Mathlib.Data.List.AList

namespace HftLab.Risk

open Lib
open HftLab.Oms (Side symToKey abs32)

inductive RiskAction where
  | allow
  | reject
  | kill
  deriving DecidableEq, Repr

inductive KillReason where
  | none
  | manual
  | circuitBreaker
  | drawdown
  | consecutiveLosses
  deriving DecidableEq, Repr

structure RiskCheckResult where
  action : RiskAction
  reason : String
  deriving DecidableEq, Repr

/-- What the code does with a `double`. -/
structure Doubles (D : Type) where
  ofInt : Int → D
  add : D → D → D
  sub : D → D → D
  mul : D → D → D
  div : D → D → D
  neg : D → D
  fabs : D → D
  lt : D → D → Bool
  le : D → D → Bool
  /-- `static_cast<int64_t>`. -/
  toInt64 : D → Int

/-- Whole numbers, on which the operations are exact but for the division. -/
def wholeDoubles : Doubles Int :=
  { ofInt := id, add := (· + ·), sub := (· - ·), mul := (· * ·), div := Int.tdiv, neg := (- ·), fabs := fun x => x.natAbs,
    lt := fun x y => decide (x < y), le := fun x y => decide (x ≤ y), toInt64 := id }

/-! ## The window of the rate limit -/

structure TimestampRing where
  ts : Nat → Int := fun _ => 0
  head : Nat := 0
  tail : Nat := 0

namespace TimestampRing

def N : Nat := 4096

/-- Drop what is not after `cutoffNs`, `n` entries at most. -/
def evictFrom (cutoffNs : Int) : Nat → TimestampRing → TimestampRing
  | 0, r => r
  | n + 1, r =>
    if r.head ≠ r.tail ∧ r.ts r.head ≤ cutoffNs then evictFrom cutoffNs n { r with head := (r.head + 1) % N } else r

def evict (r : TimestampRing) (cutoffNs : Int) : TimestampRing := evictFrom cutoffNs N r

def push (r : TimestampRing) (nowNs : Int) : TimestampRing :=
  let r := { r with ts := Function.update r.ts r.tail nowNs, tail := (r.tail + 1) % N }
  if r.tail = r.head then { r with head := (r.head + 1) % N } else r

def count (r : TimestampRing) : Nat := (r.tail + N - r.head) % N

end TimestampRing

/-! ## State -/

structure RiskLimits (D : Type) where
  maxPositionPerSymbol : Int
  maxPortfolioExposure : Int
  maxDailyLoss : Int
  maxOrdersPerSecond : Int
  maxOrderValue : Int
  maxDrawdownPct : D
  maxPriceBandPct : D
  maxSharesPerOrder : Int
  maxShortPerSymbol : Int
  maxConsecutiveLosses : Int
  maxDailyTradedNotional : D
  minPrice : D
  maxSymbolNotional : D

/-- An `unordered_map` from symbol keys to quantities. -/
abbrev QtyMap := AList (fun _ : Nat => Int)

/-- 0 for a key that is absent. -/
def lookup (m : QtyMap) (key : Nat) : Int := (m.lookup key).getD 0

structure RiskManager (D : Type) where
  limits : RiskLimits D
  positions : QtyMap := ∅
  pending : QtyMap := ∅
  totalAbsExposure : Int := 0
  dailyPnl : D
  peakPnl : D
  consecLosses : Int := 0
  tradedNotional : D
  killSwitchActive : Bool := false
  killReason : KillReason := .none
  refPrice : Nat → Option D := fun _ => none
  restricted : Nat → Bool := fun _ => false
  symbolPosLimit : Nat → Option Int := fun _ => none
  rateRing : TimestampRing := {}
  totalChecks : Nat := 0
  totalRejects : Nat := 0

/-- The constructor. -/
def fresh {D : Type} (F : Doubles D) (limits : RiskLimits D) : RiskManager D :=
  { limits, dailyPnl := F.ofInt 0, peakPnl := F.ofInt 0, tradedNotional := F.ofInt 0 }

/-- BUY is positive, SELL negative. -/
def signedQty (side : Side) (qty : Int) : Int :=
  match side with
  | .buy => qty
  | .sell => i32 (-qty)

namespace RiskManager

variable {D : Type} (F : Doubles D) (r : RiskManager D)

/-! ## Checks -/

def latchKillSwitch (reason : KillReason) : RiskManager D := { r with killSwitchActive := true, killReason := reason }

def longCap (key : Nat) : Int := (r.symbolPosLimit key).getD r.limits.maxPositionPerSymbol

def shortCap (key : Nat) : Int := if 0 < r.limits.maxShortPerSymbol then r.limits.maxShortPerSymbol else r.longCap key

/-- `cur_pos + cur_pend`. -/
def exposureOf (key : Nat) : Int := i32 (lookup r.positions key + lookup r.pending key)

/-- The checks of `check_order` up to the portfolio limit, in their order: the reason of the first that fails. They
    change nothing. -/
def orderBreach (key : Nat) (side : Side) (price : D) (quantity : Int) : Option String :=
  let L := r.limits
  let zero := F.ofInt 0
  let projected := i32 (r.exposureOf key + signedQty side quantity)
  if r.killSwitchActive then some "Kill switch active"
  else if r.restricted key then some "Symbol restricted"
  else if L.maxOrderValue < F.toInt64 (F.mul price (F.ofInt quantity)) then some "Order value exceeds limit"
  else if 0 < L.maxSharesPerOrder ∧ L.maxSharesPerOrder < quantity then some "Order quantity exceeds limit"
  else if F.lt zero L.minPrice && F.lt price L.minPrice then some "Price below minimum (penny stock)"
  else if F.lt zero L.maxPriceBandPct && (r.refPrice key).any fun ref => F.lt zero ref &&
      F.lt L.maxPriceBandPct (F.mul (F.div (F.fabs (F.sub price ref)) ref) (F.ofInt 100)) then
    some "Price band breach (fat-finger)"
  else if F.lt zero L.maxDailyTradedNotional && F.le L.maxDailyTradedNotional r.tradedNotional then
    some "Daily traded notional limit"
  else if 0 ≤ projected ∧ r.longCap key < projected then some "Position limit exceeded"
  else if projected < 0 ∧ r.shortCap key < i32 (-projected) then some "Short position limit exceeded"
  else if F.lt zero L.maxSymbolNotional && F.lt L.maxSymbolNotional (F.mul (F.ofInt (abs32 projected)) price) then
    some "Symbol notional limit"
  else if L.maxPortfolioExposure < r.totalAbsExposure - abs32 (r.exposureOf key) + abs32 projected then
    some "Portfolio exposure exceeded"
  else none

/-- Daily loss and drawdown; a breach turns on the kill switch. -/
def checkPnlBreakers : Option String × RiskManager D :=
  if F.lt r.dailyPnl (F.neg (F.ofInt r.limits.maxDailyLoss)) then
    (some "Circuit breaker: daily loss limit", r.latchKillSwitch .circuitBreaker)
  else if F.lt (F.ofInt 0) r.peakPnl &&
      F.lt r.limits.maxDrawdownPct (F.mul (F.div (F.sub r.peakPnl r.dailyPnl) r.peakPnl) (F.ofInt 100)) then
    (some "Drawdown limit exceeded", r.latchKillSwitch .drawdown)
  else (none, r)

def checkRateLimit (now : Int) : Bool × RiskManager D :=
  let ring := r.rateRing.evict (i64 (now - 1000000000))
  if r.limits.maxOrdersPerSecond ≤ ring.count then (false, { r with rateRing := ring })
  else (true, { r with rateRing := ring.push now })

def makeReject (reason : String) : RiskCheckResult × RiskManager D :=
  (⟨.reject, reason⟩, { r with totalRejects := r.totalRejects + 1 })

/-- `now` is what the clock says when the rate limit is checked. -/
def checkOrder (symbol : List UInt8) (side : Side) (price : D) (quantity now : Int) : RiskCheckResult × RiskManager D :=
  let r := { r with totalChecks := r.totalChecks + 1 }
  match r.orderBreach F (symToKey symbol) side price quantity with
  | some reason => r.makeReject reason
  | none =>
    match r.checkPnlBreakers F with
    | (some reason, r) => r.makeReject reason
    | (none, r) =>
      match r.checkRateLimit now with
      | (false, r) => r.makeReject "Rate limit exceeded"
      | (true, r) => (⟨.allow, "All checks passed"⟩, r)

/-! ## Mutators -/

def adjustPending (key : Nat) (delta : Int) : RiskManager D :=
  let pos := lookup r.positions key
  let oldPend := lookup r.pending key
  let newPend := i32 (oldPend + delta)
  { r with
    pending := r.pending.insert key newPend
    totalAbsExposure := r.totalAbsExposure + i32 (abs32 (i32 (pos + newPend)) - abs32 (i32 (pos + oldPend))) }

def onOrderSent (symbol : List UInt8) (side : Side) (quantity : Int) : RiskManager D :=
  r.adjustPending (symToKey symbol) (signedQty side quantity)

def onOrderCancelled (symbol : List UInt8) (side : Side) (remaining : Int) : RiskManager D :=
  r.adjustPending (symToKey symbol) (i32 (-signedQty side remaining))

def updatePosition (symbol : List UInt8) (side : Side) (quantity : Int) : RiskManager D :=
  let signedQ := signedQty side quantity
  let key := symToKey symbol
  { r with
    positions := r.positions.insert key (i32 (lookup r.positions key + signedQ))
    pending := r.pending.insert key (i32 (lookup r.pending key - signedQ)) }

def updatePnl (pnlChange : D) : RiskManager D :=
  let dailyPnl := F.add r.dailyPnl pnlChange
  let r := { r with dailyPnl, peakPnl := if F.lt r.peakPnl dailyPnl then dailyPnl else r.peakPnl }
  if F.lt pnlChange (F.ofInt 0) then
    let r := { r with consecLosses := i32 (r.consecLosses + 1) }
    if 0 < r.limits.maxConsecutiveLosses ∧ r.limits.maxConsecutiveLosses ≤ r.consecLosses then
      r.latchKillSwitch .consecutiveLosses
    else r
  else if F.lt (F.ofInt 0) pnlChange then { r with consecLosses := 0 }
  else r

/-- A price from market data, for the price band. -/
def updateReferencePrice (symbol : List UInt8) (price : D) : RiskManager D :=
  if F.lt (F.ofInt 0) price then { r with refPrice := Function.update r.refPrice (symToKey symbol) (some price) } else r

/-- A new day: positions are kept, what is pending is not. -/
def resetDaily : RiskManager D :=
  { r with
    dailyPnl := F.ofInt 0
    peakPnl := F.ofInt 0
    consecLosses := 0
    tradedNotional := F.ofInt 0
    rateRing := { r.rateRing with head := 0, tail := 0 }
    pending := ∅
    killSwitchActive := false
    killReason := .none
    totalAbsExposure := (r.positions.entries.map fun kv => abs32 kv.2).sum }

end RiskManager

/-! ## What a check does -/

section

variable {D : Type} (F : Doubles D) (r : RiskManager D)

/-- The manager once a check is counted. -/
def RiskManager.checked : RiskManager D := { r with totalChecks := r.totalChecks + 1 }

/-- The breakers change nothing but the kill switch. -/
theorem checkPnlBreakers_cases : r.checkPnlBreakers F = (none, r) ∨
    ∃ reason k, r.checkPnlBreakers F = (some reason, r.latchKillSwitch k) := by
  unfold RiskManager.checkPnlBreakers
  split
  · exact .inr ⟨_, _, rfl⟩
  · split
    · exact .inr ⟨_, _, rfl⟩
    · exact .inl rfl

/-- The breakers look at the P&L only. -/
theorem breakers_congr {F : Doubles D} {r r' : RiskManager D} (hlimits : r'.limits = r.limits)
    (hdaily : r'.dailyPnl = r.dailyPnl) (hpeak : r'.peakPnl = r.peakPnl) :
    (r'.checkPnlBreakers F).1 = (r.checkPnlBreakers F).1 := by
  unfold RiskManager.checkPnlBreakers
  rw [hlimits, hdaily, hpeak]
  by_cases hloss : F.lt r.dailyPnl (F.neg (F.ofInt r.limits.maxDailyLoss))
  · simp [hloss]
  · by_cases hdrawdown : (F.lt (F.ofInt 0) r.peakPnl &&
        F.lt r.limits.maxDrawdownPct (F.mul (F.div (F.sub r.peakPnl r.dailyPnl) r.peakPnl) (F.ofInt 100)))
    · simp [hloss, hdrawdown]
    · simp [hloss, hdrawdown]

theorem checked_breakers : r.checked.checkPnlBreakers F =
    ((r.checkPnlBreakers F).1, (r.checkPnlBreakers F).2.checked) := by
  unfold RiskManager.checkPnlBreakers
  by_cases hloss : F.lt r.dailyPnl (F.neg (F.ofInt r.limits.maxDailyLoss))
  · simp [RiskManager.checked, RiskManager.latchKillSwitch, hloss]
  · by_cases hdrawdown : (F.lt (F.ofInt 0) r.peakPnl &&
        F.lt r.limits.maxDrawdownPct (F.mul (F.div (F.sub r.peakPnl r.dailyPnl) r.peakPnl) (F.ofInt 100)))
    · simp [RiskManager.checked, RiskManager.latchKillSwitch, hloss, hdrawdown]
    · simp [RiskManager.checked, hloss, hdrawdown]

theorem checked_rate (now : Int) : r.checked.checkRateLimit now =
    ((r.checkRateLimit now).1, (r.checkRateLimit now).2.checked) := by
  unfold RiskManager.checkRateLimit
  by_cases hfull : r.limits.maxOrdersPerSecond ≤ (r.rateRing.evict (i64 (now - 1000000000))).count
  · simp [RiskManager.checked, hfull]
  · simp [RiskManager.checked, hfull]

/-- A check ends with the first of its three parts that fails, or passes them all. -/
theorem checkOrder_cases (symbol : List UInt8) (side : Side) (price : D) (quantity now : Int) :
    (∃ reason, r.orderBreach F (symToKey symbol) side price quantity = some reason ∧
      r.checkOrder F symbol side price quantity now = r.checked.makeReject reason) ∨
    (r.orderBreach F (symToKey symbol) side price quantity = none ∧ ∃ reason k,
      r.checkPnlBreakers F = (some reason, r.latchKillSwitch k) ∧
      r.checkOrder F symbol side price quantity now = (r.latchKillSwitch k).checked.makeReject reason) ∨
    (r.orderBreach F (symToKey symbol) side price quantity = none ∧ r.checkPnlBreakers F = (none, r) ∧
      r.checkOrder F symbol side price quantity now =
        if (r.checkRateLimit now).1 then (⟨.allow, "All checks passed"⟩, (r.checkRateLimit now).2.checked)
        else (r.checkRateLimit now).2.checked.makeReject "Rate limit exceeded") := by
  have hcheck : r.checkOrder F symbol side price quantity now =
      match r.orderBreach F (symToKey symbol) side price quantity with
      | some reason => r.checked.makeReject reason
      | none =>
        match r.checked.checkPnlBreakers F with
        | (some reason, r) => r.makeReject reason
        | (none, r) =>
          match r.checkRateLimit now with
          | (false, r) => r.makeReject "Rate limit exceeded"
          | (true, r) => (⟨.allow, "All checks passed"⟩, r) := rfl
  rw [checked_breakers] at hcheck
  cases hbreach : r.orderBreach F (symToKey symbol) side price quantity with
  | some reason =>
    rw [hbreach] at hcheck
    exact .inl ⟨reason, rfl, hcheck⟩
  | none =>
    rw [hbreach] at hcheck
    rcases checkPnlBreakers_cases F r with hpnl | ⟨reason, k, hpnl⟩
    · rw [hpnl] at hcheck
      dsimp only at hcheck
      rw [checked_rate] at hcheck
      refine .inr (.inr ⟨rfl, hpnl, hcheck.trans ?_⟩)
      cases (r.checkRateLimit now).1
      · rfl
      · rfl
    · rw [hpnl] at hcheck
      exact .inr (.inl ⟨rfl, reason, k, hpnl, hcheck⟩)

end

/-! ## Runs -/

inductive Op (D : Type) where
  | checkOrder (symbol : List UInt8) (side : Side) (price : D) (quantity now : Int)
  | onOrderSent (symbol : List UInt8) (side : Side) (quantity : Int)
  | onOrderCancelled (symbol : List UInt8) (side : Side) (remaining : Int)
  | updatePosition (symbol : List UInt8) (side : Side) (quantity : Int)
  | updatePnl (pnlChange : D)
  | resetDaily

def RiskManager.exec {D : Type} (F : Doubles D) (r : RiskManager D) : Op D → RiskManager D
  | .checkOrder symbol side price quantity now => (r.checkOrder F symbol side price quantity now).2
  | .onOrderSent symbol side quantity => r.onOrderSent symbol side quantity
  | .onOrderCancelled symbol side remaining => r.onOrderCancelled symbol side remaining
  | .updatePosition symbol side quantity => r.updatePosition symbol side quantity
  | .updatePnl pnlChange => r.updatePnl F pnlChange
  | .resetDaily => r.resetDaily F

end HftLab.Risk
