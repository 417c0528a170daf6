/-
  HftLab.Strategy.MarketMaker — the two-sided quoter (market_maker.hpp) and its inventory.

  A side is switched off once the position has reached the limit of that side. Below the limit the whole size is quoted,
  so a fill may pass it: the cap holds in a run if every quote has room for its size (`hasRoom`), and it holds in every
  run only for quotes of one share (`cap_holds_iff`).

  Positions and prices are 32-bit values, cash and counters have 64 bits and are taken as exact, and so is the risk
  aversion, a rational.
-/

import HftLab.Oms.Orders
import HftLab.Lib.Rounding

namespace HftLab.Strategy

open Lib List
open HftLab.Oms (Side)

structure MMConfig where
  /-- Shares per side. -/
  quoteSize : Int := 10
  halfSpreadTicks : Int := 2
  /-- Hard cap on the net position. -/
  maxInventory : Int := 1000
  /-- The skew in ticks per share of the position. -/
  riskAversionTicks : ℚ := 1 / 20
  int32 : IsInt32 quoteSize ∧ IsInt32 halfSpreadTicks ∧ IsInt32 maxInventory := by decide

/-- A side that is off has price and size 0. -/
structure Quote where
  bidPrice : Int := 0
  askPrice : Int := 0
  bidSize : Int := 0
  askSize : Int := 0
  deriving DecidableEq, Repr

structure MarketMaker where
  cfg : MMConfig
  position : Int := 0
  cashTicks : Int := 0
  lastBid : Int := 0
  lastAsk : Int := 0
  quotesPlaced : Nat := 0
  quotesCancelled : Nat := 0
  fillsReceived : Nat := 0
  lastFillSide : Side := .buy
  /-- 0 when no fill is pending. -/
  lastFillPriceTicks : Int := 0
  adverseTotalTicks : Int := 0

/-- There is no market to quote into. -/
def oneSided (bestBid bestAsk : Int) : Prop := bestBid ≤ 0 ∨ bestAsk ≤ 0 ∨ bestAsk ≤ bestBid

instance (bestBid bestAsk : Int) : Decidable (oneSided bestBid bestAsk) := inferInstanceAs (Decidable (_ ∨ _))

namespace MarketMaker

variable (m : MarketMaker)

def quote (bestBid bestAsk : Int) : Quote × MarketMaker :=
  if oneSided bestBid bestAsk then ({}, m)
  else
    let mid := (i32 (bestBid + bestAsk)).tdiv 2
    let skew := i32 (truncate (-(m.position : ℚ) * m.cfg.riskAversionTicks))
    let bidOn := m.position < m.cfg.maxInventory
    let askOn := -m.cfg.maxInventory < m.position
    let q : Quote :=
      { bidPrice := if bidOn then i32 (mid - m.cfg.halfSpreadTicks + skew) else 0
        bidSize := if bidOn then m.cfg.quoteSize else 0
        askPrice := if askOn then i32 (mid + m.cfg.halfSpreadTicks + skew) else 0
        askSize := if askOn then m.cfg.quoteSize else 0 }
    -- a change of either side counts as a cancel and a replacement
    let changed := q.bidPrice ≠ m.lastBid ∨ q.askPrice ≠ m.lastAsk
    (q,
      { m with
        quotesCancelled := if changed ∧ (m.lastBid ≠ 0 ∨ m.lastAsk ≠ 0) then m.quotesCancelled + 1 else m.quotesCancelled
        quotesPlaced := if changed then m.quotesPlaced + 1 else m.quotesPlaced
        lastBid := q.bidPrice
        lastAsk := q.askPrice })

def applyFill (side : Side) (qty priceTicks : Int) : MarketMaker :=
  if qty ≤ 0 then m
  else
    let m := { m with fillsReceived := m.fillsReceived + 1, lastFillSide := side, lastFillPriceTicks := priceTicks }
    match side with
    | .buy => { m with position := i32 (m.position + qty), cashTicks := m.cashTicks - qty * priceTicks }
    | .sell => { m with position := i32 (m.position - qty), cashTicks := m.cashTicks + qty * priceTicks }

/-- How far the market went against the last fill. -/
def markPostFillMove (newMidTicks : Int) : MarketMaker :=
  if m.lastFillPriceTicks ≤ 0 then m
  else
    let delta := i32 (newMidTicks - m.lastFillPriceTicks)
    let adverse := if m.lastFillSide = .buy then i32 (-delta) else delta
    { m with adverseTotalTicks := m.adverseTotalTicks + adverse, lastFillPriceTicks := 0 }

end MarketMaker

/-! ## Runs -/

inductive MakerEvent where
  | quote (bestBid bestAsk : Int)
  | applyFill (side : Side) (qty priceTicks : Int)
  | markPostFillMove (newMidTicks : Int)
  deriving DecidableEq, Repr

/-- A maker with what is left of the two sizes of its latest quote. -/
structure MakerDesk where
  maker : MarketMaker
  bidLeft : Int := 0
  askLeft : Int := 0

namespace MakerDesk

variable (d : MakerDesk)

def new (c : MMConfig) : MakerDesk := { maker := { cfg := c } }

def step : MakerEvent → MakerDesk
  | .quote bestBid bestAsk =>
    let (q, m) := d.maker.quote bestBid bestAsk
    { maker := m, bidLeft := q.bidSize, askLeft := q.askSize }
  | .applyFill .buy qty priceTicks =>
    { d with maker := d.maker.applyFill .buy qty priceTicks, bidLeft := d.bidLeft - max 0 qty }
  | .applyFill .sell qty priceTicks =>
    { d with maker := d.maker.applyFill .sell qty priceTicks, askLeft := d.askLeft - max 0 qty }
  | .markPostFillMove newMidTicks => { d with maker := d.maker.markPostFillMove newMidTicks }

def run (es : List MakerEvent) : MakerDesk := es.foldl step d

/-- No more of a side is executed than the latest quote has left. -/
def allows : MakerEvent → Prop
  | .applyFill .buy qty _ => qty ≤ d.bidLeft
  | .applyFill .sell qty _ => qty ≤ d.askLeft
  | _ => True

instance (e : MakerEvent) : Decidable (d.allows e) :=
  match e with
  | .applyFill .buy .. => inferInstanceAs (Decidable (_ ≤ _))
  | .applyFill .sell .. => inferInstanceAs (Decidable (_ ≤ _))
  | .quote .. => isTrue trivial
  | .markPostFillMove _ => isTrue trivial

def lawful : MakerDesk → List MakerEvent → Prop
  | _, [] => True
  | d, e :: es => d.allows e ∧ lawful (d.step e) es

instance decidableLawful : (d : MakerDesk) → (es : List MakerEvent) → Decidable (d.lawful es)
  | _, [] => isTrue trivial
  | d, e :: es => @instDecidableAnd _ _ _ (decidableLawful (d.step e) es)

/-- The position is within the cap. -/
def capped : Prop := |d.maker.position| ≤ d.maker.cfg.maxInventory

/-- A side that is on may be filled whole. -/
def hasRoom (m : MarketMaker) : Prop :=
  (m.position < m.cfg.maxInventory → m.position + m.cfg.quoteSize ≤ m.cfg.maxInventory) ∧
    (-m.cfg.maxInventory < m.position → -m.cfg.maxInventory ≤ m.position - m.cfg.quoteSize)

instance (m : MarketMaker) : Decidable (hasRoom m) := inferInstanceAs (Decidable (_ ∧ _))

/-- A quote into a market has room. -/
def fits : MakerEvent → Prop
  | .quote bestBid bestAsk => oneSided bestBid bestAsk ∨ hasRoom d.maker
  | _ => True

instance (e : MakerEvent) : Decidable (d.fits e) :=
  match e with
  | .quote .. => inferInstanceAs (Decidable (_ ∨ _))
  | .applyFill .. => isTrue trivial
  | .markPostFillMove _ => isTrue trivial

/-- Every quote of the run has room. -/
def roomy : MakerDesk → List MakerEvent → Bool
  | _, [] => true
  | d, e :: es => decide (d.fits e) && roomy (d.step e) es

/-- What is left of the latest quote keeps the position within the cap. -/
structure Covered (c : MMConfig) : Prop where
  cfg : d.maker.cfg = c
  bid_nonneg : 0 ≤ d.bidLeft
  ask_nonneg : 0 ≤ d.askLeft
  above : d.maker.position + d.bidLeft ≤ c.maxInventory
  below : -c.maxInventory ≤ d.maker.position - d.askLeft

section

variable {c : MMConfig} {d : MakerDesk} {e : MakerEvent} {es fs : List MakerEvent} {bestBid bestAsk qty priceTicks : Int}

theorem step_cfg (d : MakerDesk) (e : MakerEvent) : (d.step e).maker.cfg = d.maker.cfg := by
  cases e with
  | quote bestBid bestAsk =>
    unfold step MarketMaker.quote
    dsimp only
    split
    · rfl
    · rfl
  | applyFill side qty priceTicks =>
    cases side
    all_goals
      unfold step MarketMaker.applyFill
      dsimp only
      split
      · rfl
      · rfl
  | markPostFillMove newMidTicks =>
    unfold step MarketMaker.markPostFillMove
    dsimp only
    split
    · rfl
    · rfl

theorem step_oneSided (h : oneSided bestBid bestAsk) : d.step (.quote bestBid bestAsk) = { maker := d.maker } := by
  simp [step, MarketMaker.quote, h]

theorem step_quote (h : ¬ oneSided bestBid bestAsk) : (d.step (.quote bestBid bestAsk)).maker.position = d.maker.position ∧
    (d.step (.quote bestBid bestAsk)).bidLeft =
      (if d.maker.position < d.maker.cfg.maxInventory then d.maker.cfg.quoteSize else 0) ∧
    (d.step (.quote bestBid bestAsk)).askLeft =
      (if -d.maker.cfg.maxInventory < d.maker.position then d.maker.cfg.quoteSize else 0) := by
  simp [step, MarketMaker.quote, h]

theorem step_buy (h : 0 < qty) (priceTicks : Int) :
    (d.step (.applyFill .buy qty priceTicks)).maker.position = i32 (d.maker.position + qty) := by
  simp [step, MarketMaker.applyFill, not_le.mpr h]

theorem step_sell (h : 0 < qty) (priceTicks : Int) :
    (d.step (.applyFill .sell qty priceTicks)).maker.position = i32 (d.maker.position - qty) := by
  simp [step, MarketMaker.applyFill, not_le.mpr h]

theorem step_idle (h : qty ≤ 0) (side : Side) : d.step (.applyFill side qty priceTicks) = d := by
  cases side
  · simp [step, MarketMaker.applyFill, h]
  · simp [step, MarketMaker.applyFill, h]

theorem lawful_append : d.lawful (es ++ fs) ↔ d.lawful es ∧ (d.run es).lawful fs := by
  induction es generalizing d with
  | nil => simp [lawful, run]
  | cons e es ih =>
    rw [cons_append, lawful, lawful, ih, and_assoc]
    rfl

theorem run_append (d : MakerDesk) (es fs : List MakerEvent) : d.run (es ++ fs) = (d.run es).run fs := foldl_append

theorem roomy_append : d.roomy (es ++ fs) = (d.roomy es && (d.run es).roomy fs) := by
  induction es generalizing d with
  | nil => rfl
  | cons e es ih =>
    rw [cons_append, roomy, roomy, ih, Bool.and_assoc]
    rfl

/-- A run with room has it as well if it is cut short and the last quote is filled otherwise. -/
theorem roomy_refilled {pre : List MakerEvent} (hpre : pre <+: es) (hfs : ∀ e ∈ fs, ∃ side qty, e = .applyFill side qty 0)
    (hr : d.roomy es) : d.roomy (pre ++ fs) := by
  obtain ⟨rest, rfl⟩ := hpre
  rw [roomy_append, Bool.and_eq_true] at hr
  rw [roomy_append, hr.1, Bool.true_and]
  generalize d.run pre = d'
  induction fs generalizing d' with
  | nil => rfl
  | cons e fs ih =>
    obtain ⟨side, qty, rfl⟩ := hfs e mem_cons_self
    rw [roomy, ih (fun e he => hfs e (mem_cons_of_mem _ he)), Bool.and_true]
    exact decide_eq_true trivial

/-! ### With room -/

theorem new_covered (hm : 0 < c.maxInventory) : (new c).Covered c := by
  refine ⟨rfl, le_rfl, le_rfl, ?_, ?_⟩
  · exact hm.le
  · exact Int.neg_nonpos_of_nonneg hm.le

theorem Covered.capped (h : d.Covered c) : d.capped := by
  obtain ⟨hcfg, hb, ha, habove, hbelow⟩ := h
  unfold MakerDesk.capped
  rw [hcfg, abs_le]
  omega

/-- A side that is off has nothing to fill. -/
theorem Covered.quote (h : d.Covered c) (hs : 0 < c.quoteSize) (hfits : d.fits (.quote bestBid bestAsk)) :
    (d.step (.quote bestBid bestAsk)).Covered c := by
  have hcfg := (d.step_cfg (.quote bestBid bestAsk)).trans h.cfg
  obtain ⟨hc, hb, ha, habove, hbelow⟩ := h
  by_cases hone : oneSided bestBid bestAsk
  · rw [step_oneSided hone] at hcfg ⊢
    refine ⟨hcfg, le_rfl, le_rfl, ?_, ?_⟩
    · dsimp only
      omega
    · dsimp only
      omega
  · obtain ⟨hroomBid, hroomAsk⟩ := hfits.resolve_left hone
    obtain ⟨hpos, hbid, hask⟩ := d.step_quote hone
    rw [hc] at hroomBid hroomAsk hbid hask
    refine ⟨hcfg, ?_, ?_, ?_, ?_⟩
    · rw [hbid]
      split <;> omega
    · rw [hask]
      split <;> omega
    · rw [hpos, hbid]
      split <;> omega
    · rw [hpos, hask]
      split <;> omega

theorem Covered.fill {side : Side} (h : d.Covered c) (he : d.allows (.applyFill side qty priceTicks)) :
    (d.step (.applyFill side qty priceTicks)).Covered c := by
  rcases le_or_gt qty 0 with h0 | hpos
  · rw [step_idle h0]
    exact h
  · have hcfg := (d.step_cfg (.applyFill side qty priceTicks)).trans h.cfg
    obtain ⟨-, hb, ha, habove, hbelow⟩ := h
    obtain ⟨-, -, -, hmax⟩ := c.int32
    have hfits : ∀ x, -c.maxInventory ≤ x → x ≤ c.maxInventory → i32 x = x := by
      intro x h0 h1
      refine i32_eq ⟨?_, h1.trans hmax⟩
      simp only [int32Min, int32Max] at hmax ⊢
      omega
    have hused : max 0 qty = qty := max_eq_right hpos.le
    cases side with
    | buy =>
      have hle : qty ≤ d.bidLeft := he
      have hp := step_buy (d := d) hpos priceTicks
      rw [hfits _ (by omega) (by omega)] at hp
      refine ⟨hcfg, ?_, ha, ?_, ?_⟩
      · simp only [step]
        omega
      · rw [hp]
        simp only [step]
        omega
      · rw [hp]
        simp only [step]
        omega
    | sell =>
      have hle : qty ≤ d.askLeft := he
      have hp := step_sell (d := d) hpos priceTicks
      rw [hfits _ (by omega) (by omega)] at hp
      refine ⟨hcfg, hb, ?_, ?_, ?_⟩
      · simp only [step]
        omega
      · rw [hp]
        simp only [step]
        omega
      · rw [hp]
        simp only [step]
        omega

theorem Covered.step (h : d.Covered c) (hs : 0 < c.quoteSize) (he : d.allows e) (hfits : d.fits e) : (d.step e).Covered c := by
  cases e with
  | quote bestBid bestAsk => exact h.quote hs hfits
  | applyFill side qty priceTicks => exact h.fill he
  | markPostFillMove newMidTicks =>
    obtain ⟨hcfg, hb, ha, habove, hbelow⟩ := h
    unfold MakerDesk.step MarketMaker.markPostFillMove
    dsimp only
    split
    · exact ⟨hcfg, hb, ha, habove, hbelow⟩
    · exact ⟨hcfg, hb, ha, habove, hbelow⟩

theorem Covered.run (h : d.Covered c) (hs : 0 < c.quoteSize) (hl : d.lawful es) (hr : d.roomy es) :
    (d.run es).Covered c := by
  induction es generalizing d with
  | nil => exact h
  | cons e es ih =>
    rw [roomy, Bool.and_eq_true, decide_eq_true_eq] at hr
    exact ih (h.step hs hl.1 hr.1) hl.2 hr.2

/-- A quote of one share has room on every side that is on. -/
theorem Covered.roomy_one (h : d.Covered c) (hone : c.quoteSize = 1) (hl : d.lawful es) : d.roomy es := by
  induction es generalizing d with
  | nil => rfl
  | cons e es ih =>
    have hfits : d.fits e := by
      cases e with
      | quote bestBid bestAsk =>
        right
        unfold hasRoom
        rw [h.cfg, hone]
        omega
      | applyFill side qty priceTicks => trivial
      | markPostFillMove newMidTicks => trivial
    rw [roomy, Bool.and_eq_true, decide_eq_true_eq]
    exact ⟨hfits, ih (h.step (by omega) hl.1 hfits) hl.2⟩

/-! ### Without room -/

/-- A quote without room can be filled past the cap. -/
theorem breaks (hcfg : d.maker.cfg = c) (hm : 0 < c.maxInventory) (hcap : d.capped)
    (hfits : ¬ d.fits (.quote bestBid bestAsk)) : ∃ side qty, (d.step (.quote bestBid bestAsk)).allows (.applyFill side qty 0) ∧
      ¬ ((d.step (.quote bestBid bestAsk)).step (.applyFill side qty 0)).capped := by
  obtain ⟨-, -, -, hmax⟩ := c.int32
  have hone : ¬ oneSided bestBid bestAsk := fun hc => hfits (.inl hc)
  have hroom : ¬ hasRoom d.maker := fun hc => hfits (.inr hc)
  obtain ⟨hpos, hbid, hask⟩ := d.step_quote hone
  unfold capped at hcap
  rw [hcfg, abs_le] at hcap
  have hstep : ∀ side qty, ((d.step (.quote bestBid bestAsk)).step (.applyFill side qty 0)).maker.cfg = c := fun side qty =>
    ((step_cfg _ _).trans (step_cfg _ _)).trans hcfg
  rw [hasRoom, not_and_or, hcfg] at hroom
  rw [hcfg] at hbid hask
  simp only [int32Max] at hmax
  rcases hroom with hroom | hroom
  · push Not at hroom
    rw [if_pos hroom.1] at hbid
    refine ⟨.buy, c.maxInventory - d.maker.position + 1, ?_, ?_⟩
    · exact (show _ ≤ (d.step (.quote bestBid bestAsk)).bidLeft by omega)
    · unfold capped
      rw [hstep, step_buy (by omega), hpos, abs_le, show d.maker.position + (c.maxInventory - d.maker.position + 1) =
        c.maxInventory + 1 by omega]
      -- one more than the cap, or the least 32-bit value
      unfold i32 Int.bmod
      dsimp only
      split <;> omega
  · push Not at hroom
    rw [if_pos hroom.1] at hask
    refine ⟨.sell, d.maker.position + c.maxInventory + 1, ?_, ?_⟩
    · exact (show _ ≤ (d.step (.quote bestBid bestAsk)).askLeft by omega)
    · unfold capped
      rw [hstep, step_sell (by omega), hpos, abs_le, i32_eq ⟨by simp only [int32Min]; omega, by simp only [int32Max]; omega⟩]
      omega

/-- If no fills after any of its quotes break the cap, every quote of a run has room. -/
theorem roomy_of_capped (h : d.Covered c) (hs : 0 < c.quoteSize) (hm : 0 < c.maxInventory) (hl : d.lawful es)
    (hcap : ∀ pre fs, pre <+: es → (∀ e ∈ fs, ∃ side qty, e = .applyFill side qty 0) → d.lawful (pre ++ fs) →
      (d.run (pre ++ fs)).capped) : d.roomy es := by
  induction es generalizing d with
  | nil => rfl
  | cons e es ih =>
    have hfits : d.fits e := by
      cases e with
      | applyFill side qty priceTicks => trivial
      | markPostFillMove newMidTicks => trivial
      | quote bestBid bestAsk =>
        by_contra hfits
        obtain ⟨side, qty, hallows, hbreaks⟩ := breaks h.cfg hm h.capped hfits
        refine hbreaks (hcap [.quote bestBid bestAsk] [.applyFill side qty 0] (prefix_cons_inj _ |>.mpr nil_prefix) ?_ ?_)
        · intro e he
          obtain rfl := mem_singleton.mp he
          exact ⟨side, qty, rfl⟩
        · exact ⟨trivial, hallows, trivial⟩
    rw [roomy, Bool.and_eq_true, decide_eq_true_eq]
    refine ⟨hfits, ih (h.step hs hl.1 hfits) hl.2 fun pre fs hpre hfs hlaw => ?_⟩
    exact hcap (e :: pre) fs ((prefix_cons_inj e).mpr hpre) hfs ⟨hl.1, hlaw⟩

/-- A quote and one fill after a run. -/
theorem lawful_filled {side : Side} (hl : d.lawful es)
    (he : ((d.run es).step (.quote bestBid bestAsk)).allows (.applyFill side qty 0)) :
    d.lawful (es ++ [.quote bestBid bestAsk, .applyFill side qty 0]) :=
  lawful_append.mpr ⟨hl, trivial, he, trivial⟩

/-- Any position up to the cap is reached one share at a time. -/
theorem climb (hs : 0 < c.quoteSize) (n : Nat) (hn : n ≤ c.maxInventory) :
    ∃ es, (new c).lawful es ∧ ((new c).run es).maker.position = n ∧ ((new c).run es).maker.cfg = c := by
  induction n with
  | zero => exact ⟨[], trivial, rfl, rfl⟩
  | succ n ih =>
    push_cast at hn
    obtain ⟨es, hl, hpos, hcfg⟩ := ih (by omega)
    obtain ⟨-, -, -, hmax⟩ := c.int32
    have hone : ¬ oneSided 1 3 := by decide
    obtain ⟨hsame, hbid, -⟩ := ((new c).run es).step_quote hone
    rw [hcfg, hpos, if_pos (by omega)] at hbid
    have hallows : (((new c).run es).step (.quote 1 3)).allows (.applyFill .buy 1 0) :=
      show 1 ≤ (((new c).run es).step (.quote 1 3)).bidLeft by omega
    refine ⟨es ++ [.quote 1 3, .applyFill .buy 1 0], lawful_filled hl hallows, ?_, ?_⟩
    · rw [run_append]
      refine (step_buy one_pos 0).trans ?_
      rw [hsame, hpos]
      refine i32_eq ⟨?_, ?_⟩
      · simp only [int32Min]
        omega
      · omega
    · rw [run_append]
      refine (step_cfg (((new c).run es).step (.quote 1 3)) (.applyFill .buy 1 0)).trans ?_
      exact (step_cfg ..).trans hcfg

/-- In the runs whose every quote has room the position stays within the cap, however the quotes are filled, and in no
    others; it stays so in all runs if and only if a quote is one share. -/
theorem cap_holds_iff (c : MMConfig) (hs : 0 < c.quoteSize) (hm : 0 < c.maxInventory) :
    (∀ es, (new c).lawful es → ((new c).roomy es = true ↔ ∀ pre fs, pre <+: es →
      (∀ e ∈ fs, ∃ side qty, e = .applyFill side qty 0) → (new c).lawful (pre ++ fs) → ((new c).run (pre ++ fs)).capped)) ∧
    ((∀ es, (new c).lawful es → ((new c).run es).capped) ↔ c.quoteSize = 1) := by
  have hnew := new_covered hm
  refine ⟨fun es hl => ⟨fun hr pre fs hpre hfs hlaw => ?_, roomy_of_capped hnew hs hm hl⟩, fun hall => ?_, fun hone es hl => ?_⟩
  · exact (hnew.run hs hlaw (roomy_refilled hpre hfs hr)).capped
  · by_contra hne
    obtain ⟨n, hn⟩ := Int.eq_ofNat_of_zero_le (Int.sub_nonneg_of_le (show 1 ≤ c.maxInventory by omega))
    obtain ⟨es, hl, hpos, hcfg⟩ := climb hs n (by omega)
    have hfits : ¬ ((new c).run es).fits (.quote 1 3) := by
      intro hfits
      have hroom := (hfits.resolve_left (by decide)).1
      rw [hcfg, hpos] at hroom
      omega
    obtain ⟨side, qty, hallows, hbreaks⟩ := breaks hcfg hm (hall es hl) hfits
    refine hbreaks ?_
    have hrun := hall _ (lawful_filled hl hallows)
    rwa [run_append] at hrun
  · exact (hnew.run hs hl (hnew.roomy_one hone hl)).capped

/-- Five shares a side and a cap of ten: the bid is on up to a position of five, and goes off at ten. -/
theorem cap_holds_small : ((new { quoteSize := 5, maxInventory := 10 }).run ([.quote 100 104, .applyFill .buy 5 101,
    .markPostFillMove 100, .quote 99 103, .applyFill .buy 3 100, .applyFill .buy 2 100, .quote 99 103] ++
    [.applyFill .sell 4 0])).capped :=
  ((cap_holds_iff { quoteSize := 5, maxInventory := 10 } (by decide) (by decide)).1 [.quote 100 104, .applyFill .buy 5 101,
    .markPostFillMove 100, .quote 99 103, .applyFill .buy 3 100, .applyFill .buy 2 100, .quote 99 103]
    (by decide +kernel)).mp (by decide +kernel) _ [.applyFill .sell 4 0] List.prefix_rfl (by simp) (by decide +kernel)

/-- Quotes of ten and a cap of fifteen: at a position of ten the bid is on, and filled whole. -/
theorem whole_size_passes_cap : ¬ ∀ es, (new { quoteSize := 10, maxInventory := 15 }).lawful es →
    ((new { quoteSize := 10, maxInventory := 15 }).run es).capped := by
  intro h
  exact absurd (h [.quote 100 104, .applyFill .buy 10 100, .quote 100 104, .applyFill .buy 10 100] (by decide +kernel))
    (by unfold capped; decide +kernel)

end

end MakerDesk

end HftLab.Strategy
