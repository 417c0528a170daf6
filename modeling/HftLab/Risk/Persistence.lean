/-
  HftLab.Risk.Persistence — the risk manager with the file that keeps the kill switch (risk_manager.hpp): the latch and
  the deactivation write it, a new instance reads it before it accepts orders.

  `double` is exact here, a rational. The text of the file is its two numbers, the P&L in the millionths that `%.6f`
  prints and `%lf` reads back. A path is set, and every write succeeds.
-/

import HftLab.Risk.Exposure
import HftLab.Lib.Rounding

namespace HftLab.Risk

open Lib
open HftLab.Oms (Side symToKey)

def exactDoubles : Doubles ℚ :=
  { ofInt := fun n => n, add := (· + ·), sub := (· - ·), mul := (· * ·), div := (· / ·), neg := (- ·), fabs := fun x => |x|,
    lt := fun x y => decide (x < y), le := fun x y => decide (x ≤ y), toInt64 := truncate }

namespace RiskManager

variable {D : Type} (F : Doubles D) (r : RiskManager D)

/-! ## Mutators no check order needs -/

def addTradedNotional (notional : D) : RiskManager D :=
  if F.lt (F.ofInt 0) notional then { r with tradedNotional := F.add r.tradedNotional notional } else r

/-- 0 or less removes the override. -/
def setSymbolPositionLimit (symbol : List UInt8) (limit : Int) : RiskManager D :=
  { r with
    symbolPosLimit := Function.update r.symbolPosLimit (symToKey symbol) (if 0 < limit then some limit else none) }

def restrictSymbol (symbol : List UInt8) : RiskManager D :=
  { r with restricted := Function.update r.restricted (symToKey symbol) true }

def allowSymbol (symbol : List UInt8) : RiskManager D :=
  { r with restricted := Function.update r.restricted (symToKey symbol) false }

def clearRestricted : RiskManager D := { r with restricted := fun _ => false }

def setLimits (limits : RiskLimits D) : RiskManager D := { r with limits }

/-- How many more orders fit into the current second; -1 when the limit is off. -/
def rateLimitHeadroom (nowNs : Int) : Int × RiskManager D :=
  if r.limits.maxOrdersPerSecond ≤ 0 then (-1, r)
  else
    let ring := r.rateRing.evict (i64 (nowNs - 1000000000))
    (max 0 (r.limits.maxOrdersPerSecond - ring.count), { r with rateRing := ring })

end RiskManager

/-! ## The file -/

/-- `active=%d\nlast_pnl=%.6f\n`. -/
structure SavedState where
  active : Bool
  /-- In millionths. -/
  lastPnl : Int
  deriving DecidableEq, Repr

/-- What `%.6f` prints, in millionths. -/
def millionths (x : ℚ) : Int := round (x * 1000000)

/-- What `%lf` reads. -/
def SavedState.pnl (f : SavedState) : ℚ := f.lastPnl / 1000000

structure Persisting where
  risk : RiskManager ℚ
  file : Option SavedState := none

namespace Persisting

variable (p : Persisting)

def persistState : Persisting :=
  { p with file := some { active := p.risk.killSwitchActive, lastPnl := millionths p.risk.dailyPnl } }

def latchKillSwitch (reason : KillReason) : Persisting := persistState { p with risk := p.risk.latchKillSwitch reason }

def activateKillSwitch : Persisting := p.latchKillSwitch .manual

def deactivateKillSwitch : Persisting :=
  persistState { p with risk := { p.risk with killSwitchActive := false, killReason := .none } }

def loadPersistedState : Persisting :=
  match p.file with
  | none => p
  | some f => { p with risk := { p.risk with killSwitchActive := f.active, dailyPnl := f.pnl } }

def clearPersistedState : Persisting := { p with file := none }

/-- A breaker that fails latches the switch, which writes the file. -/
def checkOrder (symbol : List UInt8) (side : Side) (price : ℚ) (quantity now : Int) : RiskCheckResult × Persisting :=
  let (result, risk) := p.risk.checkOrder exactDoubles symbol side price quantity now
  let trips := (p.risk.orderBreach exactDoubles (symToKey symbol) side price quantity).isNone &&
    (p.risk.checkPnlBreakers exactDoubles).1.isSome
  (result, if trips then persistState { p with risk } else { p with risk })

/-- So does a loss that makes the streak too long. -/
def updatePnl (pnlChange : ℚ) : Persisting :=
  let risk := p.risk.updatePnl exactDoubles pnlChange
  let trips := pnlChange < 0 ∧ 0 < risk.limits.maxConsecutiveLosses ∧ risk.limits.maxConsecutiveLosses ≤ risk.consecLosses
  if trips then persistState { p with risk } else { p with risk }

end Persisting

/-! ## Runs -/

/-- The calls within one day. -/
inductive Call where
  | checkOrder (symbol : List UInt8) (side : Side) (price : ℚ) (quantity now : Int)
  | updatePnl (pnlChange : ℚ)
  | onOrderSent (symbol : List UInt8) (side : Side) (quantity : Int)
  | onOrderCancelled (symbol : List UInt8) (side : Side) (remaining : Int)
  | updatePosition (symbol : List UInt8) (side : Side) (quantity : Int)
  | updateReferencePrice (symbol : List UInt8) (price : ℚ)
  | addTradedNotional (notional : ℚ)
  | setSymbolPositionLimit (symbol : List UInt8) (limit : Int)
  | restrictSymbol (symbol : List UInt8)
  | allowSymbol (symbol : List UInt8)
  | clearRestricted
  | setLimits (limits : RiskLimits ℚ)
  | rateLimitHeadroom (nowNs : Int)
  | activateKillSwitch
  | deactivateKillSwitch
  | loadPersistedState
  | clearPersistedState

namespace Persisting

def exec (p : Persisting) : Call → Persisting
  | .checkOrder symbol side price quantity now => (p.checkOrder symbol side price quantity now).2
  | .updatePnl pnlChange => p.updatePnl pnlChange
  | .onOrderSent symbol side quantity => { p with risk := p.risk.onOrderSent symbol side quantity }
  | .onOrderCancelled symbol side remaining => { p with risk := p.risk.onOrderCancelled symbol side remaining }
  | .updatePosition symbol side quantity => { p with risk := p.risk.updatePosition symbol side quantity }
  | .updateReferencePrice symbol price => { p with risk := p.risk.updateReferencePrice exactDoubles symbol price }
  | .addTradedNotional notional => { p with risk := p.risk.addTradedNotional exactDoubles notional }
  | .setSymbolPositionLimit symbol limit => { p with risk := p.risk.setSymbolPositionLimit symbol limit }
  | .restrictSymbol symbol => { p with risk := p.risk.restrictSymbol symbol }
  | .allowSymbol symbol => { p with risk := p.risk.allowSymbol symbol }
  | .clearRestricted => { p with risk := p.risk.clearRestricted }
  | .setLimits limits => { p with risk := p.risk.setLimits limits }
  | .rateLimitHeadroom nowNs => { p with risk := (p.risk.rateLimitHeadroom nowNs).2 }
  | .activateKillSwitch => p.activateKillSwitch
  | .deactivateKillSwitch => p.deactivateKillSwitch
  | .loadPersistedState => p.loadPersistedState
  | .clearPersistedState => p.clearPersistedState

def run (p : Persisting) (calls : List Call) : Persisting := calls.foldl exec p

/-- An instance at the start of the day. -/
def start (limits : RiskLimits ℚ) : Persisting := { risk := fresh exactDoubles limits }

/-- A new instance with the same limits, once it has read the file. -/
def restart (p : Persisting) : RiskManager ℚ :=
  (loadPersistedState { p with risk := fresh exactDoubles p.risk.limits }).risk

end Persisting

end HftLab.Risk
