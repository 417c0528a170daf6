/-
  HftLab.Risk.WhatIf — the previews of the pre-trade checks (`would_breach_*`, `headroom_shares`) against `check_order`.

  A preview takes a limit that is not positive for one that is off; of the position and portfolio limits the check does not.
-/

import HftLab.Risk.Restart

namespace HftLab.Risk

open Lib
open HftLab.Oms (Side symToKey abs32)

variable {D : Type} (F : Doubles D) (r : RiskManager D) (symbol : List UInt8) (side : Side) (price : D) (qty : Int)

namespace RiskManager

/-- The net quantity of the symbol if the order fills. -/
def projected : Int := i32 (r.exposureOf (symToKey symbol) + signedQty side qty)

def wouldBreachPosition : Bool :=
  let key := symToKey symbol
  if r.longCap key ≤ 0 then false
  else if 0 ≤ r.projected symbol side qty then r.longCap key < r.projected symbol side qty
  else r.shortCap key < i32 (-r.projected symbol side qty)

def wouldBreachPriceBand : Bool :=
  if F.le r.limits.maxPriceBandPct (F.ofInt 0) then false
  else match r.refPrice (symToKey symbol) with
    | none => false
    | some ref =>
      if F.le ref (F.ofInt 0) then false
      else F.lt r.limits.maxPriceBandPct (F.mul (F.div (F.fabs (F.sub price ref)) ref) (F.ofInt 100))

def wouldBreachSymbolNotional : Bool :=
  if F.le r.limits.maxSymbolNotional (F.ofInt 0) then false
  else F.lt r.limits.maxSymbolNotional (F.mul (F.ofInt (abs32 (r.projected symbol side qty))) price)

def wouldBreachExposure : Bool :=
  if r.limits.maxPortfolioExposure ≤ 0 then false
  else r.limits.maxPortfolioExposure <
    r.totalAbsExposure - abs32 (r.exposureOf (symToKey symbol)) + abs32 (r.projected symbol side qty)

def headroomShares : Int :=
  let key := symToKey symbol
  if r.longCap key ≤ 0 then 0
  else
    let room := match side with
      | .buy => i32 (r.longCap key - r.exposureOf key)
      | .sell => i32 (r.shortCap key + r.exposureOf key)
    if 0 < room then room else 0

end RiskManager

/-- No limit and no reference price is a NaN. -/
def Comparable : Prop :=
  ∀ x, x = r.limits.maxPriceBandPct ∨ x = r.limits.maxSymbolNotional ∨ r.refPrice (symToKey symbol) = some x →
    F.le x (F.ofInt 0) = !F.lt (F.ofInt 0) x

/-- What the previews say of an order whose check ends with `reason`. -/
structure Mirrors (reason : Option String) : Prop where
  allowed : reason = none → r.wouldBreachPosition symbol side qty = false ∧ r.wouldBreachPriceBand F symbol price = false ∧
    r.wouldBreachSymbolNotional F symbol side price qty = false ∧ r.wouldBreachExposure symbol side qty = false
  band : reason = some "Price band breach (fat-finger)" → r.wouldBreachPriceBand F symbol price = true
  position : reason = some "Position limit exceeded" ∨ reason = some "Short position limit exceeded" →
    (r.wouldBreachPosition symbol side qty = true ↔ 0 < r.longCap (symToKey symbol))
  notional : reason = some "Symbol notional limit" → r.wouldBreachSymbolNotional F symbol side price qty = true
  exposure : reason = some "Portfolio exposure exceeded" →
    (r.wouldBreachExposure symbol side qty = true ↔ 0 < r.limits.maxPortfolioExposure)

variable {F r symbol side price qty}

theorem Comparable.band_eq (h : Comparable F r symbol) : r.wouldBreachPriceBand F symbol price =
    (F.lt (F.ofInt 0) r.limits.maxPriceBandPct && (r.refPrice (symToKey symbol)).any fun ref => F.lt (F.ofInt 0) ref &&
      F.lt r.limits.maxPriceBandPct (F.mul (F.div (F.fabs (F.sub price ref)) ref) (F.ofInt 100))) := by
  unfold RiskManager.wouldBreachPriceBand
  rw [h _ (.inl rfl)]
  cases hp : r.refPrice (symToKey symbol) with
  | none => simp
  | some ref =>
    have href := h ref (.inr (.inr hp))
    cases hb : F.lt (F.ofInt 0) r.limits.maxPriceBandPct <;> cases hr : F.lt (F.ofInt 0) ref <;> simp [href, hr]

theorem Comparable.notional_eq (h : Comparable F r symbol) : r.wouldBreachSymbolNotional F symbol side price qty =
    (F.lt (F.ofInt 0) r.limits.maxSymbolNotional &&
      F.lt r.limits.maxSymbolNotional (F.mul (F.ofInt (abs32 (r.projected symbol side qty))) price)) := by
  unfold RiskManager.wouldBreachSymbolNotional
  rw [h _ (.inr (.inl rfl))]
  cases F.lt (F.ofInt 0) r.limits.maxSymbolNotional <;> rfl

theorem Mirrors.other {reason : String} (hr : reason ∉ ["Price band breach (fat-finger)", "Position limit exceeded",
    "Short position limit exceeded", "Symbol notional limit", "Portfolio exposure exceeded"]) :
    Mirrors F r symbol side price qty (some reason) := by
  simp only [List.mem_cons, not_or] at hr
  exact ⟨nofun, by simp [hr], by simp [hr], by simp [hr], by simp [hr]⟩

theorem Comparable.mirrors (h : Comparable F r symbol) :
    Mirrors F r symbol side price qty (r.orderBreach F (symToKey symbol) side price qty) := by
  have hproj : i32 (r.exposureOf (symToKey symbol) + signedQty side qty) = r.projected symbol side qty := rfl
  unfold RiskManager.orderBreach
  dsimp only
  rw [hproj, ← h.band_eq, ← h.notional_eq]
  iterate 5 refine iteInduction (fun _ => .other (by decide)) fun _ => ?_
  refine iteInduction (fun hband => ⟨nofun, fun _ => hband, by simp, by simp, by simp⟩) fun hband => ?_
  refine iteInduction (fun _ => .other (by decide)) fun _ => ?_
  refine iteInduction (fun hlong => ⟨nofun, by simp, fun _ => ?_, by simp, by simp⟩) fun hlong => ?_
  · simp [RiskManager.wouldBreachPosition, hlong]
  refine iteInduction (fun hshort => ⟨nofun, by simp, fun _ => ?_, by simp, by simp⟩) fun hshort => ?_
  · simp [RiskManager.wouldBreachPosition, hshort]
  refine iteInduction (fun hnot => ⟨nofun, by simp, by simp, fun _ => hnot, by simp⟩) fun hnot => ?_
  refine iteInduction (fun hexp => ⟨nofun, by simp, by simp, by simp, fun _ => ?_⟩) fun hexp => ?_
  · simp [RiskManager.wouldBreachExposure, hexp]
  refine ⟨fun _ => ⟨?_, by simpa using hband, by simpa using hnot, ?_⟩, by simp, by simp, by simp, by simp⟩
  · unfold RiskManager.wouldBreachPosition
    dsimp only
    split_ifs with h0 h1
    · rfl
    · simpa using fun hlt => hlong ⟨h1, hlt⟩
    · simpa using fun hlt => hshort ⟨not_le.mp h1, hlt⟩
  · simp [RiskManager.wouldBreachExposure, not_lt.mp hexp]

variable (F r symbol side price qty) in
/-- Whatever the check answers, the previews of the order say the same of its limit, or that the limit is off. -/
theorem previews_mirror (h : Comparable F r symbol) (now : Int) :
    let res := (r.checkOrder F symbol side price qty now).1
    Mirrors F r symbol side price qty (if res.action = .allow then none else some res.reason) := by
  have hm : Mirrors F r symbol side price qty _ := h.mirrors
  rcases checkOrder_cases F r symbol side price qty now with ⟨reason, hb, hres⟩ | ⟨hb, reason, k, hpnl, hres⟩ | ⟨hb, -, hres⟩
  · rw [hres]
    rw [hb] at hm
    exact hm
  · have hr := breakers_reason (congrArg Prod.fst hpnl)
    rw [hres]
    exact .other ((by decide : ∀ reason ∈ haltReasons, reason ∉ _) _ hr)
  · rw [hres]
    rw [hb] at hm
    split
    · exact hm
    · show Mirrors F r symbol side price qty (some "Rate limit exceeded")
      exact .other (by decide)

/-- The portfolio limit is 0: the check refuses the order, and the preview takes the limit for one that is off. -/
theorem previews_mirror_off :
    (fresh exactDoubles { Persisting.dayLimits with maxPortfolioExposure := 0 }).wouldBreachExposure [0x41] .buy 1 = false := by
  have h := (previews_mirror exactDoubles (fresh exactDoubles { Persisting.dayLimits with maxPortfolioExposure := 0 }) [0x41] .buy 1 1
    (fun x _ => by simp [exactDoubles, ← not_lt]) 0).exposure (by decide +kernel)
  simpa using mt h.mp (by decide)

/-- While the symbol is within its limits, the preview passes just the quantities within the headroom. -/
theorem headroom_exact {D : Type} {r : RiskManager D} {symbol : List UInt8} (side : Side) {qty : Int}
    (hlong : 0 < r.longCap (symToKey symbol) ∧ r.longCap (symToKey symbol) < 2 ^ 30) (hshort : r.shortCap (symToKey symbol) < 2 ^ 30)
    (hcur : -r.shortCap (symToKey symbol) ≤ r.exposureOf (symToKey symbol) ∧
      r.exposureOf (symToKey symbol) ≤ r.longCap (symToKey symbol)) (hqty : 0 ≤ qty ∧ qty < 2 ^ 30) :
    r.wouldBreachPosition symbol side qty = false ↔ qty ≤ r.headroomShares symbol side := by
  have hpos : 0 < r.shortCap (symToKey symbol) := by
    unfold RiskManager.shortCap
    split <;> omega
  unfold RiskManager.wouldBreachPosition RiskManager.headroomShares RiskManager.projected signedQty
  dsimp only
  generalize r.longCap (symToKey symbol) = long, r.shortCap (symToKey symbol) = short, r.exposureOf (symToKey symbol) = cur at *
  have hfit : ∀ x : Int, -2 ^ 31 ≤ x → x < 2 ^ 31 → i32 x = x := fun x h1 h2 => i32_eq ⟨h1, by unfold int32Max; omega⟩
  cases side with
  | buy =>
    dsimp only
    rw [hfit (cur + qty) (by omega) (by omega), hfit (-(cur + qty)) (by omega) (by omega), hfit (long - cur) (by omega) (by omega)]
    grind
  | sell =>
    dsimp only
    rw [hfit (-qty) (by omega) (by omega), hfit (cur + -qty) (by omega) (by omega), hfit (-(cur + -qty)) (by omega) (by omega),
      hfit (short + cur) (by omega) (by omega)]
    grind

theorem headroom_exact_day : (fresh exactDoubles Persisting.dayLimits).wouldBreachPosition [0x41] .sell 7 = false ↔
    7 ≤ (fresh exactDoubles Persisting.dayLimits).headroomShares [0x41] .sell :=
  headroom_exact .sell (by decide) (by decide) (by decide) (by decide)

end HftLab.Risk
