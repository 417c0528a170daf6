/-
  HftLab.Router.Quotes — what the router says about its quotes before it routes: the best all-in price and what is
  marketable at a limit, and the national best bid and offer.

  Both sides of each claim scan the venues on their own. The best all-in price and the NBBO use 0 for "no liquidity":
  a rebate above the quote makes an all-in price that looks like none (`marketable_iff`), and the offer takes a venue
  with a size for liquidity whatever its ask is (`nbbo_iff`).
-/

import HftLab.Router.Decisions
import HftLab.Router.Sweep

namespace HftLab.Router

open Lib List

/-- No fee comes with the call. -/
def Op.feeless : Op → Bool
  | .addVenue v => v.feePerShare = 0
  | .setVenueFee _ feePerShare => feePerShare = 0
  | _ => true

namespace SmartOrderRouter

/-! ## Reads -/

section

variable (x : SmartOrderRouter) (isBuy : Bool)

/-- The best all-in price of the side; 0 when there is no liquidity. -/
def bestEffectivePrice : ℚ :=
  (x.venues.foldl (fun best v =>
    if !v.isActive then best
    else if !v.hasLiq isBuy then best
    else
      let eff := v.effectivePrice isBuy
      match best with
      | none => some eff
      | some b => if beats isBuy eff b then some eff else some b) none).getD 0

/-- Whether a limit order could execute at once. -/
def isMarketable (limitPrice : ℚ) : Bool :=
  let best := x.bestEffectivePrice isBuy
  if best ≤ 0 then false else if isBuy then best ≤ limitPrice else limitPrice ≤ best

def nationalBestBid : ℚ :=
  x.venues.foldl (fun best v => if v.isActive && 0 < v.bidSize && best < v.bestBid then v.bestBid else best) 0

def nationalBestAsk : ℚ :=
  (x.venues.foldl (fun best v =>
    if v.isActive && 0 < v.askSize && best.all fun b => v.bestAsk < b then some v.bestAsk else best) none).getD 0

end

section

variable {x : SmartOrderRouter} {isBuy : Bool} {limit : ℚ}

/-! ## The scans as lists -/

theorem map_venue (x : SmartOrderRouter) : (List.range x.venues.length).map x.venue = x.venues := by
  refine ext_getElem (by simp) fun i h1 h2 => ?_
  rw [getElem_map, getElem_range, venue_eq_getElem h2]

/-- A price for comparison: the lower, the better on both sides. -/
def keyOf (isBuy : Bool) (eff : ℚ) : ℚ := if isBuy then eff else -eff

theorem beats_keyOf (isBuy : Bool) (a b : ℚ) : beats isBuy a b ↔ keyOf isBuy a < keyOf isBuy b := by
  unfold beats keyOf
  cases isBuy <;> simp

/-- The all-in prices of the candidates. -/
def allIn (x : SmartOrderRouter) (isBuy : Bool) : List ℚ := (x.candidates isBuy).map (x.eff isBuy)

theorem bestEffectivePrice_eq (x : SmartOrderRouter) (isBuy : Bool) :
    x.bestEffectivePrice isBuy = (firstBest (keyOf isBuy) (x.allIn isBuy)).getD 0 := by
  unfold bestEffectivePrice firstBest allIn candidates
  rw [foldl_map, foldl_filter, ← map_venue, foldl_map]
  simp only [map_venue]
  congr 2
  funext best i
  cases (x.venue i).isActive with
  | false => rfl
  | true =>
    cases (x.venue i).hasLiq isBuy with
    | false => rfl
    | true =>
      cases best with
      | none => rfl
      | some b =>
        simp only [keepBest, ← beats_keyOf, eff]
        rfl

/-! ## Marketable and liquidity -/

/-- The best all-in price is a positive number. -/
def Paying (x : SmartOrderRouter) (isBuy : Bool) : Prop :=
  if isBuy then ∀ i ∈ x.candidates isBuy, 0 < x.eff isBuy i else ∃ i ∈ x.candidates isBuy, 0 < x.eff isBuy i

/-- The exact sum of the sizes within the limit. -/
def sizeWithin (x : SmartOrderRouter) (isBuy : Bool) (limit : ℚ) : Int := totalOf (x.within isBuy limit) (x.shown isBuy)

instance (x : SmartOrderRouter) (isBuy : Bool) : Decidable (x.Paying isBuy) := by
  unfold Paying
  infer_instance

theorem i32_pos_iff {n : Int} : 0 < i32 n ↔ 0 < n % 4294967296 ∧ n % 4294967296 < 2147483648 := by
  unfold i32 Int.bmod
  dsimp only
  split <;> omega

/-- The best price is one of the all-in prices, and none is better. -/
theorem bestEffectivePrice_best (h : x.candidates isBuy ≠ []) : ∃ i ∈ x.candidates isBuy,
    x.bestEffectivePrice isBuy = x.eff isBuy i ∧
      ∀ j ∈ x.candidates isBuy, keyOf isBuy (x.eff isBuy i) ≤ keyOf isBuy (x.eff isBuy j) := by
  cases hbest : firstBest (keyOf isBuy) (x.allIn isBuy) with
  | none => exact absurd (map_eq_nil_iff.mp ((firstBest_none _).mp hbest)) h
  | some e =>
    obtain ⟨hmem, hle⟩ := firstBest_best hbest
    obtain ⟨i, hi, rfl⟩ := mem_map.mp hmem
    refine ⟨i, hi, ?_, fun j hj => hle _ (mem_map_of_mem hj)⟩
    rw [bestEffectivePrice_eq, hbest]
    rfl

theorem past_iff (isBuy : Bool) (limit eff : ℚ) : past isBuy limit eff ↔ keyOf isBuy limit < keyOf isBuy eff := by
  unfold past keyOf
  cases isBuy <;> simp

theorem isMarketable_iff (x : SmartOrderRouter) (isBuy : Bool) (limit : ℚ) : x.isMarketable isBuy limit ↔
    0 < x.bestEffectivePrice isBuy ∧ past isBuy limit (x.bestEffectivePrice isBuy) = false := by
  unfold isMarketable past
  dsimp only
  split
  · rename_i h
    exact ⟨fun hc => (by cases hc), fun hc => absurd hc.1 (not_lt.mpr h)⟩
  · rename_i h
    cases isBuy <;> simp [not_le.mp h]

theorem mem_within {i : Nat} : i ∈ x.within isBuy limit ↔ i ∈ x.candidates isBuy ∧ past isBuy limit (x.eff isBuy i) = false := by
  simp [within]

/-- Nothing is marketable, and there is nothing to take. -/
theorem marketable_none (h : x.within isBuy limit = []) :
    x.isMarketable isBuy limit = false ∧ x.liquidityAtLimit isBuy limit = 0 := by
  constructor
  · refine Bool.eq_false_iff.mpr fun hm => ?_
    obtain ⟨hpos, hpast⟩ := (isMarketable_iff ..).mp hm
    have hne : x.candidates isBuy ≠ [] := by
      intro hc
      rw [bestEffectivePrice_eq, allIn, hc] at hpos
      exact lt_irrefl _ hpos
    obtain ⟨i, hi, hbest, _⟩ := bestEffectivePrice_best hne
    rw [hbest] at hpast
    have hmem : i ∈ x.within isBuy limit := mem_within.mpr ⟨hi, hpast⟩
    rw [h] at hmem
    cases hmem
  · rw [liquidityAtLimit_i32, h]
    rfl

/-- With something within the limit, an order is marketable if the best all-in price is positive. -/
theorem marketable_some (h : x.within isBuy limit ≠ []) : x.isMarketable isBuy limit ↔ x.Paying isBuy := by
  obtain ⟨k, hk⟩ := exists_mem_of_ne_nil _ h
  obtain ⟨hk, hkpast⟩ := mem_within.mp hk
  obtain ⟨i, hi, hbest, hle⟩ := bestEffectivePrice_best (ne_nil_of_mem hk)
  have hpast : past isBuy limit (x.eff isBuy i) = false := by
    rw [← Bool.not_eq_true, past_iff, not_lt] at hkpast ⊢
    exact (hle k hk).trans hkpast
  rw [isMarketable_iff, hbest, hpast, and_iff_left rfl]
  cases isBuy with
  | true =>
    refine ⟨fun h0 j hj => h0.trans_le (hle j hj), fun hall => hall i hi⟩
  | false =>
    refine ⟨fun h0 => ⟨i, hi, h0⟩, fun hex => ?_⟩
    obtain ⟨j, hj, h0⟩ := hex
    exact h0.trans_le (neg_le_neg_iff.mp (hle j hj))

/-- The two reads agree if nothing is within the limit, or if the best all-in price is positive just when the sizes
    within the limit, added up in 32 bits, are. -/
theorem marketable_iff (x : SmartOrderRouter) (isBuy : Bool) (limit : ℚ) :
    (x.isMarketable isBuy limit = true ↔ 0 < x.liquidityAtLimit isBuy limit) ↔
      (x.within isBuy limit = [] ∨ (x.Paying isBuy ↔
        0 < x.sizeWithin isBuy limit % 4294967296 ∧ x.sizeWithin isBuy limit % 4294967296 < 2147483648)) := by
  by_cases h : x.within isBuy limit = []
  · obtain ⟨hm, hl⟩ := marketable_none h
    rw [hm, hl]
    simp [h]
  · rw [marketable_some h, liquidityAtLimit_i32, i32_pos_iff]
    simp [h, sizeWithin]

/-- A rebate of 1.50 on an ask of 1.00: 100 shares can be had, and nothing is marketable. -/
theorem rebate_hides_liquidity : ¬
    let x := (fresh .bestPrice 500).run [.addVenue { name := "A", feePerShare := -3 / 2 }, .updateQuote "A" 0 1 0 100]
    (x.isMarketable true 1 = true ↔ 0 < x.liquidityAtLimit true 1) := by
  decide +kernel

/-! ## The NBBO and routing -/

/-- Quotes with a size on the active venues, whatever the quote. -/
def sized (x : SmartOrderRouter) (isBuy : Bool) : List ℚ :=
  (x.venues.filter fun v => v.isActive && 0 < v.size isBuy).map (·.px isBuy)

theorem nationalBestAsk_eq (x : SmartOrderRouter) : x.nationalBestAsk = (firstBest id (x.sized true)).getD 0 := by
  unfold nationalBestAsk firstBest sized
  rw [foldl_map, foldl_filter]
  congr 2
  funext best v
  change (if v.isActive && 0 < v.askSize && best.all fun b => v.bestAsk < b then some v.bestAsk else best) =
    if v.isActive && 0 < v.askSize then keepBest id best v.bestAsk else best
  cases v.isActive && decide (0 < v.askSize) with
  | false => rfl
  | true =>
    cases best with
    | none => rfl
    | some b => simp [keepBest]

theorem nationalBestBid_eq (x : SmartOrderRouter) :
    x.nationalBestBid = (x.sized false).foldl (fun b j => if -j < -b then j else b) 0 := by
  unfold nationalBestBid sized
  rw [foldl_map, foldl_filter]
  congr 1
  funext best v
  change (if v.isActive && 0 < v.bidSize && best < v.bestBid then v.bestBid else best) =
    if v.isActive && 0 < v.bidSize then (if -v.bestBid < -best then v.bestBid else best) else best
  cases v.isActive && decide (0 < v.bidSize) with
  | false => rfl
  | true => simp

/-- The candidates' quotes are those with a size that are positive. -/
theorem mem_sized {p : ℚ} : (p ∈ x.sized isBuy ∧ 0 < p) ↔ ∃ i ∈ x.candidates isBuy, (x.venue i).px isBuy = p := by
  constructor
  · intro h
    obtain ⟨hmem, hpos⟩ := h
    obtain ⟨v, hv, rfl⟩ := mem_map.mp hmem
    obtain ⟨hv, hlive⟩ := mem_filter.mp hv
    obtain ⟨i, hi, rfl⟩ := getElem_of_mem hv
    simp only [Bool.and_eq_true, decide_eq_true_eq] at hlive
    refine ⟨i, mem_candidates.mpr ⟨hi, ?_⟩, ?_⟩
    · rw [venue_eq_getElem hi]
      simp [Venue.hasLiq, hlive, hpos]
    · rw [venue_eq_getElem hi]
  · intro h
    obtain ⟨i, hi, rfl⟩ := h
    obtain ⟨hlt, hactive, hliq⟩ := mem_candidates.mp hi
    simp only [Venue.hasLiq, Bool.and_eq_true, decide_eq_true_eq] at hliq
    rw [venue_eq_getElem hlt] at hactive hliq ⊢
    refine ⟨mem_map.mpr ⟨_, mem_filter.mpr ⟨getElem_mem hlt, ?_⟩, rfl⟩, hliq.1⟩
    simp [hactive, hliq.2]

/-- Orders of the side for the best price are rejected if and only if the national best `nb` is 0, and pay it otherwise. -/
def PaysBest (x : SmartOrderRouter) (isBuy : Bool) (nb : ℚ) : Prop :=
  ∀ side q t0 t1, isBuySide side = isBuy → 0 < q →
    ((x.routeOrder side q .bestPrice t0 t1).1.valid = false ↔ nb = 0) ∧
    ((x.routeOrder side q .bestPrice t0 t1).1.valid = true → (x.routeOrder side q .bestPrice t0 t1).1.price = nb)

/-- Without fees the all-in price is the quote. -/
def Feeless (x : SmartOrderRouter) : Prop := ∀ v ∈ x.venues, v.feePerShare = 0

theorem run_feeless {ops : List Op} (h : x.Feeless) (hops : ∀ op ∈ ops, op.feeless) : (x.run ops).Feeless := by
  induction ops generalizing x with
  | nil => exact h
  | cons op ops ih =>
    refine ih (fun w hw => ?_) fun o ho => hops o (mem_cons_of_mem _ ho)
    have hop := hops op mem_cons_self
    rcases exec_venue x op w hw with ⟨v, hv, hfollows⟩ | ⟨rfl, _⟩
    · rcases hfollows.fee with hfee | ⟨name, f, rfl, hfee⟩
      · rw [hfee, h v hv]
      · rw [hfee]
        exact of_decide_eq_true hop
    · exact of_decide_eq_true hop

theorem rank_feeless (h : x.Feeless) {i : Nat} (hi : i ∈ x.candidates isBuy) :
    x.rank isBuy i = keyOf isBuy ((x.venue i).px isBuy) := by
  have hlt := (mem_candidates.mp hi).1
  have hfee : (x.venue i).feePerShare = 0 := by
    rw [venue_eq_getElem hlt]
    exact h _ (getElem_mem hlt)
  unfold rank keyOf eff Venue.effectivePrice Venue.px
  rw [hfee]
  cases isBuy <;> simp

/-- An order for the best price is rejected without a candidate, and goes to one of the best rank. -/
theorem routeOrder_bestPrice (x : SmartOrderRouter) (side : String) (q t0 t1 : Int) (hside : isBuySide side = isBuy) :
    (x.candidates isBuy = [] ∧ (x.routeOrder side q .bestPrice t0 t1).1.valid = false) ∨
    ∃ i ∈ x.candidates isBuy, (∀ j ∈ x.candidates isBuy, x.rank isBuy i ≤ x.rank isBuy j) ∧
      (x.routeOrder side q .bestPrice t0 t1).1.valid = true ∧
      (x.routeOrder side q .bestPrice t0 t1).1.price = (x.venue i).px isBuy := by
  unfold routeOrder
  rw [hside]
  dsimp only
  cases hl : x.candidates isBuy with
  | nil => exact .inl ⟨rfl, rfl⟩
  | cons k l =>
    refine .inr ⟨x.single isBuy .bestPrice (k :: l), x.single_mem isBuy .bestPrice (cons_ne_nil k l), ?_, ?_⟩
    · exact foldl_best_le (fun j i => x.beats_iff isBuy j i) l k
    · rw [if_neg (by simp), if_neg (by simp)]
      exact ⟨rfl, rfl⟩

theorem exists_side (isBuy : Bool) : ∃ side, isBuySide side = isBuy := by
  cases isBuy with
  | true => exact ⟨"BUY", by decide⟩
  | false => exact ⟨"SELL", by decide⟩

theorem paysBest_none {nb : ℚ} (h : x.candidates isBuy = []) : x.PaysBest isBuy nb ↔ nb = 0 := by
  have hvalid : ∀ side q t0 t1, isBuySide side = isBuy → (x.routeOrder side q .bestPrice t0 t1).1.valid = false := by
    intro side q t0 t1 hside
    rcases x.routeOrder_bestPrice side q t0 t1 hside with ⟨-, hv⟩ | ⟨i, hi, -⟩
    · exact hv
    · rw [h] at hi
      cases hi
  constructor
  · intro hp
    obtain ⟨side, hside⟩ := exists_side isBuy
    exact (hp side 1 0 0 hside Int.one_pos).1.mp (hvalid side 1 0 0 hside)
  · intro h0 side q t0 t1 hside _
    rw [hvalid side q t0 t1 hside]
    exact ⟨⟨fun _ => h0, fun _ => rfl⟩, fun hc => (by cases hc)⟩

/-- With candidates and no fees, `nb` has to be the best of the positive quotes with a size. -/
theorem paysBest_some {nb : ℚ} (hfee : x.Feeless) (h : x.candidates isBuy ≠ []) : x.PaysBest isBuy nb ↔
    nb ∈ x.sized isBuy ∧ 0 < nb ∧ ∀ p ∈ x.sized isBuy, 0 < p → keyOf isBuy nb ≤ keyOf isBuy p := by
  -- what any order pays
  have hroute : ∀ side q t0 t1, isBuySide side = isBuy → (x.routeOrder side q .bestPrice t0 t1).1.valid ∧
      ∃ p ∈ x.sized isBuy, 0 < p ∧ (∀ p' ∈ x.sized isBuy, 0 < p' → keyOf isBuy p ≤ keyOf isBuy p') ∧
        (x.routeOrder side q .bestPrice t0 t1).1.price = p := by
    intro side q t0 t1 hside
    rcases x.routeOrder_bestPrice side q t0 t1 hside with ⟨hc, -⟩ | ⟨i, hi, hbest, hvalid, hprice⟩
    · exact absurd hc h
    · obtain ⟨hmem, hpos⟩ := mem_sized.mpr ⟨i, hi, rfl⟩
      refine ⟨hvalid, _, hmem, hpos, fun p' hp' h0 => ?_, hprice⟩
      obtain ⟨j, hj, rfl⟩ := mem_sized.mp ⟨hp', h0⟩
      rw [← rank_feeless hfee hi, ← rank_feeless hfee hj]
      exact hbest j hj
  constructor
  · intro hp
    obtain ⟨side, hside⟩ := exists_side isBuy
    obtain ⟨hvalid, p, hmem, hpos, hbest, hprice⟩ := hroute side 1 0 0 hside
    rw [← (hp side 1 0 0 hside Int.one_pos).2 hvalid, hprice]
    exact ⟨hmem, hpos, hbest⟩
  · intro hnb side q t0 t1 hside _
    obtain ⟨hmem, hpos, hbest⟩ := hnb
    obtain ⟨hvalid, p, hmem', hpos', hbest', hprice⟩ := hroute side q t0 t1 hside
    have heq : p = nb := by
      have h1 := hbest p hmem' hpos'
      have h2 := hbest' nb hmem hpos
      cases isBuy
      · exact le_antisymm (neg_le_neg_iff.mp h1) (neg_le_neg_iff.mp h2)
      · exact le_antisymm h2 h1
    rw [hvalid, hprice, heq]
    exact ⟨⟨fun hc => (by cases hc), fun hc => absurd hc hpos.ne'⟩, fun _ => rfl⟩

theorem candidates_nil_iff : x.candidates isBuy = [] ↔ ∀ p ∈ x.sized isBuy, p ≤ 0 := by
  constructor
  · intro h p hp
    refine not_lt.mp fun h0 => ?_
    obtain ⟨i, hi, -⟩ := mem_sized.mp ⟨hp, h0⟩
    rw [h] at hi
    cases hi
  · intro h
    refine eq_nil_iff_forall_not_mem.mpr fun i hi => ?_
    obtain ⟨hp, h0⟩ := mem_sized.mpr ⟨i, hi, rfl⟩
    exact absurd h0 (not_lt.mpr (h _ hp))

/-- The offer is what a BUY pays if and only if the asks with a size are all positive, or all 0. -/
theorem paysBest_ask (hfee : x.Feeless) : x.PaysBest true x.nationalBestAsk ↔
    (∀ p ∈ x.sized true, 0 < p) ∨ ∀ p ∈ x.sized true, p = 0 := by
  rw [nationalBestAsk_eq]
  cases hbest : firstBest id (x.sized true) with
  | none =>
    have hnil := (firstBest_none _).mp hbest
    rw [Option.getD_none, paysBest_none (candidates_nil_iff.mpr (by simp [hnil]))]
    simp [hnil]
  | some m =>
    obtain ⟨hmem, hle⟩ := firstBest_best hbest
    rw [Option.getD_some]
    by_cases hc : x.candidates true = []
    · have hnonpos := candidates_nil_iff.mp hc
      rw [paysBest_none hc]
      constructor
      · intro hm
        refine .inr fun p hp => le_antisymm (hnonpos p hp) ?_
        rw [← hm]
        exact hle p hp
      · intro hcond
        rcases hcond with hpos | hzero
        · exact absurd (hpos m hmem) (not_lt.mpr (hnonpos m hmem))
        · exact hzero m hmem
    · rw [paysBest_some hfee hc]
      constructor
      · intro hm
        exact .inl fun p hp => hm.2.1.trans_le (hle p hp)
      · intro hcond
        rcases hcond with hpos | hzero
        · exact ⟨hmem, hpos m hmem, fun p hp _ => hle p hp⟩
        · exact absurd (candidates_nil_iff.mpr fun p hp => (hzero p hp).le) hc

theorem paysBest_bid (hfee : x.Feeless) : x.PaysBest false x.nationalBestBid := by
  rw [nationalBestBid_eq]
  set m := (x.sized false).foldl (fun b j => if -j < -b then j else b) 0
  have hmem : m ∈ 0 :: x.sized false := foldl_best_mem _ _
  have hle : ∀ p ∈ 0 :: x.sized false, -m ≤ -p := @foldl_best_le ℚ ℚ _ _ (- ·) _ (fun _ _ => Iff.rfl) _ _
  have hnonneg : 0 ≤ m := neg_le_neg_iff.mp (hle 0 mem_cons_self)
  by_cases hc : x.candidates false = []
  · rw [paysBest_none hc]
    rcases mem_cons.mp hmem with hm | hm
    · exact hm
    · exact le_antisymm (candidates_nil_iff.mp hc m hm) hnonneg
  · rw [paysBest_some hfee hc]
    have hpos : 0 < m := by
      refine lt_of_le_of_ne hnonneg fun h0 => hc (candidates_nil_iff.mpr fun p hp => ?_)
      rw [h0]
      exact neg_le_neg_iff.mp (hle p (mem_cons_of_mem _ hp))
    rcases mem_cons.mp hmem with hm | hm
    · exact absurd hm hpos.ne'
    · exact ⟨hm, hpos, fun p hp _ => hle p (mem_cons_of_mem _ hp)⟩

/-- In every state of a router without fees, orders for the best price pay the NBBO if and only if the asks with a size
    on active venues are all positive, or all 0. The bids need no condition. -/
theorem nbbo_iff (defaultStrategy : RoutingStrategy) (splitThreshold : Int) (ops : List Op)
    (hops : ∀ op ∈ ops, op.feeless = true) :
    let x := (fresh defaultStrategy splitThreshold).run ops
    (x.PaysBest true x.nationalBestAsk ∧ x.PaysBest false x.nationalBestBid) ↔
      (∀ p ∈ x.sized true, 0 < p) ∨ ∀ p ∈ x.sized true, p = 0 := by
  intro x
  have hfee : x.Feeless := run_feeless (fun v hv => by cases hv) hops
  rw [paysBest_ask hfee, and_iff_left (paysBest_bid hfee)]

/-- Two offers, and one that was withdrawn by its size. -/
theorem nbbo_small :
    let x := (fresh .bestPrice 500).run [.addVenue { name := "A" }, .addVenue { name := "B" }, .addVenue { name := "C" },
      .updateQuote "A" 99 101 300 300, .updateQuote "B" 98 100 400 400, .updateQuote "C" 99 0 200 0]
    x.PaysBest true x.nationalBestAsk ∧ x.PaysBest false x.nationalBestBid :=
  (nbbo_iff .bestPrice 500 _ (by decide +kernel)).mpr (.inl (by decide +kernel))

/-- An ask of 0 with a size left makes the offer 0, and a BUY is routed all the same. -/
theorem zero_ask_is_no_offer : ¬
    let x := (fresh .bestPrice 500).run [.addVenue { name := "A" }, .addVenue { name := "B" },
      .updateQuote "A" 99 101 300 300, .updateQuote "B" 98 0 400 400]
    x.PaysBest true x.nationalBestAsk ∧ x.PaysBest false x.nationalBestBid := by
  intro h
  exact absurd ((h.1 "BUY" 100 0 0 (by decide) (by decide)).1.mpr (by decide +kernel)) (by decide +kernel)

end

end SmartOrderRouter

end HftLab.Router
