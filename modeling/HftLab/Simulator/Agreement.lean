/-
  HftLab.Simulator.Agreement — the risk manager and the OMS keep the same ledger.

  Each of them has a position and a pending quantity for every symbol and is told of orders and fills by a call of its own. An order
  is reserved in both or in neither (`submit_agree`), a fill moves in both what the OMS applied of it, which is less than was asked
  for when it is clamped and nothing when the order does not work (`doFill_agree`), and the other steps of the loop touch neither.
  `ledgers_agree`: they agree after every iteration and after the last drain. Both sides wrap in the same way, so no bound on
  quantities is needed.
-/

import HftLab.Simulator.Pipeline
import HftLab.Oms.Ledger
import HftLab.Risk.Exposure

namespace HftLab.Simulator

open Lib Function
open HftLab.Oms (Side OMS symToKey)
open HftLab.Risk (Doubles RiskManager lookup)

/-- For every symbol, the two positions and the two pending quantities. -/
structure Agree {D : Type} (oms : OMS) (risk : RiskManager D) : Prop where
  position : ∀ key, lookup risk.positions key = oms.netQty key
  pending : ∀ key, lookup risk.pending key = oms.pendingQty key

/-! ## The OMS -/

section

variable {c : Oms.Config} {s oms oms' : OMS} {sym : List UInt8} {side : Side} {price : Option Int} {q id : Nat} {e : Int}
    {D : Type} {F : Doubles D} {r : RiskManager D} {conv : Conversions D} {cfg : PipelineConfig D} {ans : Answers D}
    {p : Pipeline D}

theorem netQty_setPosition (key k : Nat) (pos : Oms.Position) :
    (s.setPosition key pos).netQty k = if k = key then pos.netQty else s.netQty k := by
  unfold OMS.netQty OMS.setPosition
  dsimp only
  by_cases h : k = key
  · rw [h, update_self, if_pos rfl]
    rfl
  · rw [update_of_ne h, if_neg h]

theorem pendingQty_setPosition (key k : Nat) (pos : Oms.Position) :
    (s.setPosition key pos).pendingQty k = if k = key then pos.pendingQty else s.pendingQty k := by
  unfold OMS.pendingQty OMS.setPosition
  dsimp only
  by_cases h : k = key
  · rw [h, update_self, if_pos rfl]
    rfl
  · rw [update_of_ne h, if_neg h]

/-- An order that is refused moves nothing. -/
theorem submitOrder_none (h : (s.submitOrder c sym side price q e).1 = none) (k : Nat) :
    (s.submitOrder c sym side price q e).2.netQty k = s.netQty k ∧
    (s.submitOrder c sym side price q e).2.pendingQty k = s.pendingQty k := by
  revert h
  unfold OMS.submitOrder
  split
  · exact fun h => absurd h nofun
  · exact fun _ => ⟨rfl, rfl⟩

/-- An order that is sent reserves its quantity. -/
theorem submitOrder_some (h : (s.submitOrder c sym side price q e).1 = some id) (k : Nat) :
    (s.submitOrder c sym side price q e).2.netQty k = s.netQty k ∧
    (s.submitOrder c sym side price q e).2.pendingQty k =
      if k = symToKey sym then i32 (s.pendingQty (symToKey sym) + Oms.signedQty side q) else s.pendingQty k := by
  revert h
  unfold OMS.submitOrder
  split
  · intro _
    obtain ⟨hpend, hnet⟩ := Oms.getD_position s (symToKey sym) (Oms.copySymbol sym)
    rw [netQty_setPosition, pendingQty_setPosition]
    rw [hpend]
    constructor
    · split
      · rename_i hk
        rw [hk]
        exact hnet
      · rfl
    · rfl
  · exact fun h => absurd h nofun

/-- A fill of which nothing is applied moves nothing. -/
theorem fillOrder_zero {price : Int} (h : (s.fillOrder c id q price).1 = 0) : (s.fillOrder c id q price).2 = s := by
  revert h
  unfold OMS.fillOrder
  split
  · exact fun _ => rfl
  · split
    · exact fun _ => rfl
    · split
      · exact fun _ => rfl
      · dsimp only
        split
        · exact fun _ => rfl
        · rename_i hq
          exact fun h => absurd h hq

/-- What is applied moves from the pending quantity to the position, for the symbol and the side of the order. -/
theorem fillOrder_applied {price : Int} (h : (s.fillOrder c id q price).1 ≠ 0) :
    ∃ o, s.orders id = some o ∧ ∀ k,
      (s.fillOrder c id q price).2.netQty k = (if k = symToKey o.symbol then
        i32 (s.netQty (symToKey o.symbol) + Oms.signedQty o.side (s.fillOrder c id q price).1) else s.netQty k) ∧
      (s.fillOrder c id q price).2.pendingQty k = (if k = symToKey o.symbol then
        i32 (s.pendingQty (symToKey o.symbol) - Oms.signedQty o.side (s.fillOrder c id q price).1) else s.pendingQty k) := by
  revert h
  unfold OMS.fillOrder
  split
  · exact fun h => absurd rfl h
  · split
    · exact fun h => absurd rfl h
    · rename_i o ho
      split
      · exact fun h => absurd rfl h
      · dsimp only
        split
        · exact fun h => absurd rfl h
        · intro _
          refine ⟨o, ho, fun k => ?_⟩
          generalize min q (o.quantity - o.filledQty) = x
          obtain ⟨hpend, hnet⟩ := Oms.getD_position s (symToKey o.symbol) (Oms.copySymbol o.symbol)
          rw [netQty_setPosition, pendingQty_setPosition]
          rw [(Oms.applyFill_net _ _ _ _).1, (Oms.applyFill_net _ _ _ _).2]
          show (if _ then i32 (((s.positions (symToKey o.symbol)).getD { symbol := Oms.copySymbol o.symbol }).netQty + _) else s.netQty k) = _ ∧
            (if _ then i32 (((s.positions (symToKey o.symbol)).getD { symbol := Oms.copySymbol o.symbol }).pendingQty - _) else s.pendingQty k) = _
          rw [hpend, hnet]
          exact ⟨rfl, rfl⟩

/-! ## The risk manager -/

/-- A step of the risk manager that leaves both ledgers alone. -/
theorem Agree.of_eq {r' : RiskManager D} (h : Agree oms r) (hpos : r'.positions = r.positions) (hpend : r'.pending = r.pending) :
    Agree oms r' := by
  constructor
  · rw [hpos]
    exact h.position
  · rw [hpend]
    exact h.pending

theorem updateReferencePrice_ledger (symbol : List UInt8) (price : D) :
    (r.updateReferencePrice F symbol price).positions = r.positions ∧ (r.updateReferencePrice F symbol price).pending = r.pending := by
  unfold RiskManager.updateReferencePrice
  split
  · exact ⟨rfl, rfl⟩
  · exact ⟨rfl, rfl⟩

/-- An order that both take: the OMS is told of it as unsigned, the risk manager as signed. -/
theorem Agree.submit {qty : Int} (h : Agree oms r)
    (hk : ∀ k, oms'.netQty k = oms.netQty k ∧ oms'.pendingQty k =
      if k = symToKey sym then i32 (oms.pendingQty (symToKey sym) + Oms.signedQty side (uint32Of qty)) else oms.pendingQty k) :
     Agree oms' (r.onOrderSent sym side qty) := by
  constructor
  · intro key
    rw [(hk key).1]
    exact h.position key
  · intro key
    unfold RiskManager.onOrderSent RiskManager.adjustPending
    rw [(hk key).2, Risk.lookup_insert, h.pending, h.pending]
    cases side with
    | buy => simp [Oms.signedQty, Risk.signedQty]
    | sell => simp [Oms.signedQty, Risk.signedQty]

/-- A fill that both take. -/
theorem Agree.fill {applied : Nat} (h : Agree oms r)
    (hk : ∀ k, oms'.netQty k =
        (if k = symToKey sym then i32 (oms.netQty (symToKey sym) + Oms.signedQty side applied) else oms.netQty k) ∧
      oms'.pendingQty k =
        if k = symToKey sym then i32 (oms.pendingQty (symToKey sym) - Oms.signedQty side applied) else oms.pendingQty k) :
     Agree oms' (r.updatePosition sym side (i32 applied)) := by
  have hsigned : Risk.signedQty side (i32 applied) = Oms.signedQty side applied := by cases side <;> rfl
  unfold RiskManager.updatePosition
  constructor
  · intro key
    rw [(hk key).1, Risk.lookup_insert, hsigned, h.position, h.position]
  · intro key
    rw [(hk key).2, Risk.lookup_insert, hsigned, h.pending, h.pending]

/-! ## The pipeline -/

namespace Pipeline

def Agreed (p : Pipeline D) : Prop := Agree p.oms p.risk

theorem noteKill_agree (h : p.Agreed) : p.noteKill.Agreed := by
  unfold noteKill
  split
  · exact h
  · exact h

theorem settle_agree {o : Oms.Order} {applied : Nat} {pnlPre : Int} (h : Agree p.oms (p.risk.updatePosition o.symbol o.side (i32 applied))) :
    (p.settle F conv o applied pnlPre).Agreed := by
  apply noteKill_agree
  split
  · obtain ⟨hpos, hpend, -⟩ := Risk.updatePnl_keeps (F := F) (p.risk.updatePosition o.symbol o.side (i32 applied))
      (conv.toFloat (i64 (realizedPnl p.oms o.symbol - pnlPre)))
    exact h.of_eq hpos hpend
  · exact h

section

variable (hrisk : cfg.useRisk = true)

include hrisk

theorem doFill_agree (h : p.Agreed) (id : Nat) (sh : Int) (px : D) : (p.doFill F conv cfg id sh px).Agreed := by
  unfold doFill
  dsimp only
  by_cases happlied : (p.oms.fillOrder cfg.oms id (uint32Of sh) (conv.toFixed px)).1 = 0
  · -- Nothing was applied, and the risk manager is not told.
    have homs := fillOrder_zero happlied
    rw [happlied, homs]
    cases p.oms.orders id with
    | none => exact h
    | some o =>
      simp only [Nat.lt_irrefl, decide_false, Bool.and_false]
      exact h
  · obtain ⟨o, ho, hk⟩ := fillOrder_applied happlied
    rw [ho]
    rw [hrisk, decide_eq_true (Nat.pos_of_ne_zero happlied)]
    exact settle_agree (h.fill hk)

theorem fills_agree (h : p.Agreed) (fills : List (PendingFill D)) :
    (fills.foldl (fun p pf => p.doFill F conv cfg pf.orderId pf.shares pf.price) p).Agreed := by
  induction fills generalizing p with
  | nil => exact h
  | cons pf fills ih => exact ih (doFill_agree hrisk h ..)

theorem drain_agree (h : p.Agreed) (i : Nat) : (p.drain F conv cfg i).Agreed := fills_agree hrisk h _

theorem finalDrain_agree (h : p.Agreed) : (p.finalDrain F conv cfg).Agreed := fills_agree hrisk h _

theorem checkRisk_agree (h : p.Agreed) (i : Nat) (stock : List UInt8) (side : Side) (price : D) (qty : Int) :
    (p.checkRisk F cfg ans i stock side price qty).2.Agreed := by
  obtain ⟨hpos, hpend, -⟩ := Risk.checkOrder_keeps (F := F) p.risk stock side price qty (ans.clock i)
  have hchecked := h.of_eq hpos hpend
  unfold checkRisk
  rw [if_pos hrisk]
  dsimp only
  split
  · exact hchecked
  · exact noteKill_agree hchecked

theorem submit_agree (h : p.Agreed) (stock : List UInt8) (side : Side) (price : D) (qty : Int) :
    (p.submit conv cfg stock side price qty).2.Agreed := by
  unfold submit
  split
  · rename_i id oms heq
    have hk := submitOrder_some (c := cfg.oms) (s := p.oms) (congrArg Prod.fst heq)
    rw [congrArg Prod.snd heq] at hk
    rw [hrisk]
    exact h.submit hk
  · rename_i oms heq
    have hk := submitOrder_none (c := cfg.oms) (s := p.oms) (congrArg Prod.fst heq)
    rw [congrArg Prod.snd heq] at hk
    exact ⟨fun key => (h.position key).trans (hk key).1.symm, fun key => (h.pending key).trans (hk key).2.symm⟩

/-- An order that passes both gates, and `next` after it. -/
theorem gates_agree (h : p.Agreed) (i : Nat) (stock : List UInt8) (side : Side) (price : D) (qty : Int) {next : Nat → Pipeline D → Pipeline D}
    (hnext : ∀ id p, p.Agreed → (next id p).Agreed) :
    Agreed (match p.checkRisk F cfg ans i stock side price qty with
      | (false, p) => p
      | (true, p) =>
        match p.submit conv cfg stock side price qty with
        | (none, p) => p
        | (some id, p) => next id p) := by
  have hchecked : (p.checkRisk F cfg ans i stock side price qty).2.Agreed := checkRisk_agree hrisk h ..
  generalize p.checkRisk F cfg ans i stock side price qty = checked at hchecked ⊢
  obtain ⟨allowed, p⟩ := checked
  cases allowed with
  | false => exact hchecked
  | true =>
    have hsent : (p.submit conv cfg stock side price qty).2.Agreed := submit_agree hrisk hchecked ..
    dsimp only
    generalize p.submit conv cfg stock side price qty = sent at hsent ⊢
    obtain ⟨id, p⟩ := sent
    cases id with
    | none => exact hsent
    | some id => exact hnext id p hsent

theorem makeMarket_agree (h : p.Agreed) (i : Nat) (stock : List UInt8) (price : D) (aggressorBuy : Bool) :
    (p.makeMarket F conv cfg ans i stock price aggressorBuy).Agreed := by
  unfold makeMarket
  dsimp only
  generalize (if aggressorBuy && decide (0 < (ans.quote i stock price).askSize) then
      (Side.sell, (ans.quote i stock price).askSize, (ans.quote i stock price).askPrice)
    else if !aggressorBuy && decide (0 < (ans.quote i stock price).bidSize) then
      (Side.buy, (ans.quote i stock price).bidSize, (ans.quote i stock price).bidPrice)
    else (Side.buy, 0, 0)) = mm
  obtain ⟨side, qty, ticks⟩ := mm
  split
  · refine gates_agree hrisk h i stock side _ qty fun id p hp => ?_
    have hcounted : Agreed { p with stats := { p.stats with mmFills := p.stats.mmFills + 1 } } := hp
    exact doFill_agree hrisk hcounted ..
  · exact h

theorem execute_agree (h : p.Agreed) (i id : Nat) (side : Side) (price : D) (shares : Int) :
    (p.execute F conv cfg ans i id side price shares).Agreed := by
  have hmatched : (p.matchOrder F cfg ans i side price shares).2.2.Agreed := by
    unfold matchOrder
    split
    · exact h
    · exact h
  unfold execute
  generalize p.matchOrder F cfg ans i side price shares = matched at hmatched ⊢
  obtain ⟨fillSh, fillPx, p⟩ := matched
  dsimp only
  split
  · exact hmatched
  · split
    · exact doFill_agree hrisk hmatched ..
    · exact hmatched

theorem sendOrder_agree (h : p.Agreed) (i : Nat) (stock : List UInt8) (price : D) (side : Side) (shares : Int) :
    (p.sendOrder F conv cfg ans i stock price side shares).Agreed := by
  unfold sendOrder
  cases chooseOrder cfg ans i stock price side shares with
  | none => exact h
  | some order =>
    obtain ⟨side, shares, price⟩ := order
    exact gates_agree hrisk h i stock side price shares fun id p hp => execute_agree hrisk hp ..

theorem onTradable_agree (h : p.Agreed) (i : Nat) (stock : List UInt8) (side : Char) (shares : Nat) (price : D) :
    (p.onTradable F conv cfg ans i stock side shares price).Agreed := by
  unfold onTradable
  split
  · exact h
  · obtain ⟨hpos, hpend⟩ := updateReferencePrice_ledger (F := F) (r := p.risk) stock price
    have href : Agreed { p with risk := p.risk.updateReferencePrice F stock price } := h.of_eq hpos hpend
    split
    · exact makeMarket_agree hrisk href ..
    · exact sendOrder_agree hrisk href ..

/-- One iteration, whatever the message. -/
theorem iterate_agree (h : p.Agreed) (i : Nat) (m : ParsedMessage D) : (p.iterate F conv cfg ans i m).Agreed := by
  have hdrained : (p.drain F conv cfg i).Agreed := drain_agree hrisk h i
  cases m with
  | addOrder stock side shares price => exact onTradable_agree hrisk hdrained ..
  | trade stock side shares price => exact onTradable_agree hrisk hdrained ..
  | other => exact hdrained

theorem loop_agree (h : p.Agreed) (i : Nat) (parsed : List (ParsedMessage D)) : (p.loop F conv cfg ans i parsed).Agreed := by
  induction parsed generalizing p i with
  | nil => exact h
  | cons m parsed ih => exact ih (iterate_agree hrisk h i m) (i + 1)

end

end Pipeline

theorem start_agree : (start F cfg).Agreed := by
  constructor
  · intro key
    rfl
  · intro key
    rfl

/-- After every iteration of the main loop, and after the final drain. -/
theorem ledgers_agree (hrisk : cfg.useRisk = true) (parsed : List (ParsedMessage D)) :
    (∀ done left, parsed = done ++ left → Agree (mainLoop F conv cfg ans done).oms (mainLoop F conv cfg ans done).risk) ∧
    Agree (runPipeline F conv cfg ans parsed).oms (runPipeline F conv cfg ans parsed).risk :=
  ⟨fun done _ _ => Pipeline.loop_agree hrisk start_agree 0 done,
    Pipeline.finalDrain_agree hrisk (Pipeline.loop_agree hrisk start_agree 0 parsed)⟩

/-- Book mode: the engine reports 60 for every order, and the fill comes two iterations after it was sent. -/
def sampleConfig : PipelineConfig Int :=
  { useStrategy := false, useRouter := false, useRisk := true, useBook := true, useMm := false, fillLatencyIters := 2,
    oms := Oms.plainConfig 1000 (by decide), limits := Risk.sampleLimits }

def sampleAnswers : Answers Int :=
  { quote := fun _ _ _ => ⟨0, 0, 0, 0⟩, onMarketData := fun _ _ _ => none, routeOrder := fun _ _ _ => none,
    matchBook := fun _ _ price _ => (60, price), clock := fun i => i }

def wholeConversions : Conversions Int :=
  { isNan := fun _ => false, toFixed := (· * 10000), toFloat := fun x => x.tdiv 10000 }

/-- A BUY of 100 that is filled for 60 in the third iteration, and a SELL of 20 that the final drain fills. -/
def sampleMessages : List (ParsedMessage Int) :=
  [.addOrder [65] 'B' 100 10, .other, .trade [65] 'S' 20 10]

theorem ledgers_agree_sample :
    lookup (runPipeline Risk.wholeDoubles wholeConversions sampleConfig sampleAnswers sampleMessages).risk.positions 65 = 40 ∧
    lookup (runPipeline Risk.wholeDoubles wholeConversions sampleConfig sampleAnswers sampleMessages).risk.pending 65 = 40 ∧
    Agree (runPipeline Risk.wholeDoubles wholeConversions sampleConfig sampleAnswers sampleMessages).oms
      (runPipeline Risk.wholeDoubles wholeConversions sampleConfig sampleAnswers sampleMessages).risk :=
  ⟨by decide +kernel, by decide +kernel, (ledgers_agree rfl sampleMessages).2⟩

end

end HftLab.Simulator
