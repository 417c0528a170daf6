/-
  HftLab.OrderBook.BestPrice — the cached best prices.

  The two caches are treated as one, by side: `Core.best`, and `Side.rank`, which counts prices from
  the best one on for either side. `refreshBest_spec`: what a scan of the levels finds.
  `BestAt V b s`: the cache of side `s` is the best price at which an order of that side rests. The
  scans look at the sums of the levels, not at the orders; so a scan is right when from its start on
  only orders of its side rest and a level shows quantity exactly when it is not empty (`scan_exact`).
-/

import HftLab.OrderBook.Continuous

namespace HftLab.OrderBook

open Lib List

variable {s : Side} {p : Int} {b : Book} {t : Nat}

/-! ## Sides -/

def Side.other : Side → Side
  | .buy => .sell
  | .sell => .buy

/-- The lower the rank of a price, the better it is for an order resting on the side. -/
def Side.rank : Side → Int → Int
  | .buy, p => -p
  | .sell, p => p

/-- The next worse price. -/
def Side.worse : Side → Int → Int
  | .buy, p => p - 1
  | .sell, p => p + 1

/-- `NO_BID_TICKS`, `NO_ASK_TICKS`. -/
def Side.noBest : Side → Int
  | .buy => NO_BID_TICKS
  | .sell => NO_ASK_TICKS

theorem Side.rank_worse (s : Side) (p : Int) : s.rank (s.worse p) = s.rank p + 1 := by
  cases s
  · show -(p - 1) = -p + 1
    omega
  · rfl

theorem Side.rank_other (s : Side) (p : Int) : s.other.rank p = -s.rank p := by
  cases s
  · show p = - -p
    omega
  · rfl

theorem Side.rank_inj {q : Int} (h : s.rank p = s.rank q) : p = q := by
  cases s
  · have h' : -p = -q := h
    omega
  · exact h

theorem Side.other_other (s : Side) : s.other.other = s := by cases s <;> rfl

theorem Side.other_ne (s : Side) : s.other ≠ s := by cases s <;> decide

theorem Side.eq_other_of_ne {u : Side} (h : u ≠ s) : u = s.other := by
  cases s <;> cases u <;> first | rfl | exact absurd rfl h

theorem Side.not_inRange_noBest (V : Env) (s : Side) : ¬ inRange V s.noBest := by
  have h1 := V.levels_pos
  have h2 := V.levels_int32
  rintro ⟨h3, h4⟩
  cases s
  · exact absurd h3 (by decide)
  · have h5 : int32Max < V.LEVELS := h4
    omega

namespace Core

variable (V : Env) (c : Core)

def best : Side → Int
  | .buy => c.bestBid
  | .sell => c.bestAsk

def refreshBest (s : Side) (start : Int) : Core :=
  match s with
  | .buy => c.refreshBestBidFrom V start
  | .sell => c.refreshBestAskFrom V start

theorem refreshIfEmptied_side (s : Side) (p : Int) : c.refreshIfEmptied V s p =
    if (c.levels p).empty = true ∧ p = c.best s then c.refreshBest V s (s.worse p) else c := by
  unfold refreshIfEmptied
  by_cases he : (c.levels p).empty
  · rw [if_pos he]
    cases s
    · dsimp only
      by_cases hp : p = c.bestBid
      · rw [if_pos hp, if_pos ⟨he, hp⟩]
        rfl
      · rw [if_neg hp, if_neg fun h => hp h.2]
    · dsimp only
      by_cases hp : p = c.bestAsk
      · rw [if_pos hp, if_pos ⟨he, hp⟩]
        rfl
      · rw [if_neg hp, if_neg fun h => hp h.2]
  · rw [if_neg he, if_neg fun h => he h.1]

theorem refreshBest_other (s : Side) (start : Int) : (c.refreshBest V s start).best s.other = c.best s.other := by
  cases s <;> rfl

theorem refreshBest_rest (s : Side) (start : Int) :
    c.refreshBest V s start = { c with bestBid := (c.refreshBest V s start).bestBid, bestAsk := (c.refreshBest V s start).bestAsk } := by
  cases s <;> rfl

end Core

theorem advanceBest_side (V : Env) (b : Book) (s : Side) (p : Int) : b.advanceBest V s.other p =
    if (b.core.levels p).empty = true then b.mapCore fun c => c.refreshBest V s (i32 (s.worse (c.best s))) else b := by
  cases s <;> rfl

/-- The level an order of the other side matches next. -/
theorem nextLevel_side (hs : (b.order t).side = s.other) : b.nextLevel t =
    if b.core.best s ≠ s.noBest ∧ s.rank (b.core.best s) ≤ s.rank (b.order t).priceTicks then some (b.core.best s) else none := by
  unfold Book.nextLevel
  dsimp only
  rw [hs]
  cases s with
  | buy =>
    have hiff : (b.core.hasBid = true ∧ (b.order t).priceTicks ≤ b.core.bestBid) ↔
        b.core.best .buy ≠ Side.buy.noBest ∧ Side.buy.rank (b.core.best .buy) ≤ Side.buy.rank (b.order t).priceTicks := by
      simp [Core.hasBid, Core.best, Side.noBest, Side.rank]
    exact if_congr hiff rfl rfl
  | sell =>
    have hiff : (b.core.hasAsk = true ∧ b.core.bestAsk ≤ (b.order t).priceTicks) ↔
        b.core.best .sell ≠ Side.sell.noBest ∧ Side.sell.rank (b.core.best .sell) ≤ Side.sell.rank (b.order t).priceTicks := by
      simp [Core.hasAsk, Core.best, Side.noBest, Side.rank]
    exact if_congr hiff rfl rfl

theorem nextLevel_some (h : b.nextLevel t = some p) (hs : (b.order t).side = s.other) : b.core.best s = p ∧ p ≠ s.noBest := by
  rw [nextLevel_side hs] at h
  split at h
  · rename_i hc
    cases h
    exact ⟨rfl, hc.1⟩
  · cases h

theorem nextLevel_none (h : b.nextLevel t = none) (hs : (b.order t).side = s.other) :
    b.core.best s = s.noBest ∨ s.rank (b.order t).priceTicks < s.rank (b.core.best s) := by
  rw [nextLevel_side hs] at h
  split at h
  · cases h
  · rename_i hc
    by_cases hb : b.core.best s = s.noBest
    · exact .inl hb
    · exact .inr (not_le.mp fun hle => hc ⟨hb, hle⟩)

theorem wouldCross_side (c : Core) (s : Side) (p : Int) :
    c.wouldCross s.other p = true ↔ c.best s ≠ s.noBest ∧ s.rank (c.best s) ≤ s.rank p := by
  cases s with
  | buy => simp [Core.wouldCross, Side.other, Core.hasBid, Core.best, Side.noBest, Side.rank]
  | sell => simp [Core.wouldCross, Side.other, Core.hasAsk, Core.best, Side.noBest, Side.rank]

theorem raiseBest_side (c : Core) (s : Side) (p : Int) :
    (c.raiseBest s p).best s.other = c.best s.other ∧
    (c.raiseBest s p).best s = if c.best s = s.noBest ∨ s.rank p < s.rank (c.best s) then p else c.best s := by
  cases s with
  | buy =>
    have hiff : (c.bestBid = NO_BID_TICKS ∨ c.bestBid < p) ↔
        c.best .buy = Side.buy.noBest ∨ Side.buy.rank p < Side.buy.rank (c.best .buy) := by
      simp [Core.best, Side.noBest, Side.rank]
    unfold Core.raiseBest
    by_cases h : c.bestBid = NO_BID_TICKS ∨ c.bestBid < p
    · rw [if_pos h, if_pos (hiff.mp h)]
      exact ⟨rfl, rfl⟩
    · rw [if_neg h, if_neg fun h' => h (hiff.mpr h')]
      exact ⟨rfl, rfl⟩
  | sell =>
    unfold Core.raiseBest
    dsimp only
    by_cases h : c.bestAsk = NO_ASK_TICKS ∨ p < c.bestAsk
    · rw [if_pos h, if_pos (by exact h)]
      exact ⟨rfl, rfl⟩
    · rw [if_neg h, if_neg (by exact h)]
      exact ⟨rfl, rfl⟩

/-! ## Scans -/

/-- `x` is the first level from `start` on, as side `s` counts, that shows quantity. -/
def FirstShowing (V : Env) (levels : Int → PriceLevel) (s : Side) (start x : Int) : Prop :=
  (x = s.noBest ∧ ∀ p, inRange V p → s.rank start ≤ s.rank p → ¬ 0 < (levels p).totalQty) ∨
  (inRange V x ∧ s.rank start ≤ s.rank x ∧ 0 < (levels x).totalQty ∧
    ∀ p, inRange V p → s.rank start ≤ s.rank p → s.rank p < s.rank x → ¬ 0 < (levels p).totalQty)

theorem scanBid_spec (levels : Int → PriceLevel) (n : Nat) :
    (Core.scanBid levels n = NO_BID_TICKS ∧ ∀ p : Int, 0 ≤ p → p < n → ¬ 0 < (levels p).totalQty) ∨
    (0 ≤ Core.scanBid levels n ∧ Core.scanBid levels n < n ∧ 0 < (levels (Core.scanBid levels n)).totalQty ∧
      ∀ p, Core.scanBid levels n < p → p < n → ¬ 0 < (levels p).totalQty) := by
  induction n with
  | zero => exact .inl ⟨rfl, fun p h1 h2 => by omega⟩
  | succ n ih =>
    unfold Core.scanBid
    by_cases hn : 0 < (levels n).totalQty
    · rw [if_pos hn]
      exact .inr ⟨by omega, by omega, hn, fun p h1 h2 => by omega⟩
    · rw [if_neg hn]
      rcases ih with ⟨h1, h2⟩ | ⟨h1, h2, h3, h4⟩
      · refine .inl ⟨h1, fun p hp hpn => ?_⟩
        by_cases e : p = n
        · rw [e]
          exact hn
        · exact h2 p hp (by omega)
      · refine .inr ⟨h1, by omega, h3, fun p hp hpn => ?_⟩
        by_cases e : p = n
        · rw [e]
          exact hn
        · exact h4 p hp (by omega)

theorem scanAsk_spec (levels : Int → PriceLevel) (top : Int) (n : Nat) :
    (Core.scanAsk levels top n = NO_ASK_TICKS ∧ ∀ p, top - n ≤ p → p < top → ¬ 0 < (levels p).totalQty) ∨
    (top - n ≤ Core.scanAsk levels top n ∧ Core.scanAsk levels top n < top ∧
      0 < (levels (Core.scanAsk levels top n)).totalQty ∧
      ∀ p, top - n ≤ p → p < Core.scanAsk levels top n → ¬ 0 < (levels p).totalQty) := by
  induction n with
  | zero => exact .inl ⟨rfl, fun p h1 h2 => by omega⟩
  | succ n ih =>
    unfold Core.scanAsk
    by_cases hn : 0 < (levels (top - (n + 1))).totalQty
    · rw [if_pos hn]
      exact .inr ⟨by omega, by omega, hn, fun p h1 h2 => by omega⟩
    · rw [if_neg hn]
      rcases ih with ⟨h1, h2⟩ | ⟨h1, h2, h3, h4⟩
      · refine .inl ⟨h1, fun p hp hpn => ?_⟩
        by_cases e : p = top - (n + 1)
        · rw [e]
          exact hn
        · exact h2 p (by omega) hpn
      · refine .inr ⟨by omega, h2, h3, fun p hp hpn => ?_⟩
        by_cases e : p = top - (n + 1)
        · rw [e]
          exact hn
        · exact h4 p (by omega) hpn

/-- A refresh from a start in the grid, or beyond its end, finds the first level that shows quantity. -/
theorem refreshBest_spec (V : Env) (c : Core) (s : Side) (start : Int)
    (h : inRange V start ∨ ∀ p, inRange V p → s.rank p < s.rank start) :
    FirstShowing V c.levels s start ((c.refreshBest V s start).best s) := by
  by_cases hr : inRange V start
  · obtain ⟨h1, h2⟩ := hr
    cases s with
    | buy =>
      have he : (c.refreshBest V .buy start).best .buy = Core.scanBid c.levels (start.toNat + 1) := if_pos ⟨h1, h2⟩
      rw [he]
      rcases scanBid_spec c.levels (start.toNat + 1) with ⟨h3, h4⟩ | ⟨h3, h4, h5, h6⟩
      · refine .inl ⟨h3, fun p hp hrank => h4 p hp.1 ?_⟩
        have hrank' : -start ≤ -p := hrank
        omega
      · refine .inr ⟨⟨h3, by omega⟩, ?_, h5, fun p hp hrank hrank2 => h6 p ?_ ?_⟩
        · show -start ≤ -_
          omega
        · have hrank' : -p < -Core.scanBid c.levels (start.toNat + 1) := hrank2
          omega
        · have hrank' : -start ≤ -p := hrank
          omega
    | sell =>
      have he : (c.refreshBest V .sell start).best .sell = Core.scanAsk c.levels V.LEVELS (V.LEVELS - start).toNat :=
        if_pos ⟨h1, h2⟩
      have hn : V.LEVELS - ((V.LEVELS - start).toNat : Int) = start := by omega
      rw [he]
      have hspec := scanAsk_spec c.levels V.LEVELS (V.LEVELS - start).toNat
      rw [hn] at hspec
      rcases hspec with ⟨h3, h4⟩ | ⟨h3, h4, h5, h6⟩
      · exact .inl ⟨h3, fun p hp hrank => h4 p hrank hp.2⟩
      · exact .inr ⟨⟨by omega, h4⟩, h3, h5, fun p hp hrank hrank2 => h6 p hrank hrank2⟩
  · refine .inl ⟨?_, fun p hp hrank => ?_⟩
    · cases s
      · exact if_neg hr
      · exact if_neg hr
    · rcases h with h | h
      · exact absurd h hr
      · have := h p hp
        omega

/-! ## The caches against the queues -/

/-- An order of side `s` rests at `p`. -/
def Core.Rests (V : Env) (c : Core) (s : Side) (p : Int) : Prop := ∃ i ∈ c.queue V p, (c.body i).side = s

/-- The sum of level `p` tells whether an order rests there. -/
def Core.Tells (V : Env) (c : Core) (p : Int) : Prop := 0 < (c.levels p).totalQty ↔ c.queue V p ≠ []

/-- The cache of side `s` is the best price at which an order of side `s` rests. -/
def Core.BestAt (V : Env) (c : Core) (s : Side) : Prop :=
  (c.best s = s.noBest ∧ ∀ p, ¬ c.Rests V s p) ∨
  (c.Rests V s (c.best s) ∧ ∀ p, c.Rests V s p → s.rank (c.best s) ≤ s.rank p)

/-- Nobody bids what another asks, or more. -/
def Core.Uncrossed (V : Env) (c : Core) : Prop := ∀ p q, c.Rests V .buy p → c.Rests V .sell q → p < q

section

variable {V : Env} {c d : Core} {s : Side} {p start : Int}

theorem Core.Rests.congr (hq : d.queue V = c.queue V) (hb : d.body = c.body) : d.Rests V s p ↔ c.Rests V s p := by
  unfold Core.Rests
  rw [hq, hb]

theorem Core.rests_of_mem {i : Nat} (h : i ∈ c.queue V p) (hs : ¬ c.Rests V s.other p) : c.Rests V s p := by
  refine ⟨i, h, ?_⟩
  by_contra hne
  exact hs ⟨i, h, Side.eq_other_of_ne hne⟩

/-- Either side's prices rank behind the other side's. -/
theorem Core.Uncrossed.rank (h : c.Uncrossed V) {q : Int} (hp : c.Rests V s p) (hq : c.Rests V s.other q) :
    s.rank q < s.rank p := by
  cases s with
  | buy =>
    have := h p q hp hq
    show -q < -p
    omega
  | sell => exact h q p hq hp

theorem Core.refreshBest_queue : (c.refreshBest V s start).queue V = c.queue V := by
  rw [Core.refreshBest_rest]
  rfl

theorem Core.refreshBest_body : (c.refreshBest V s start).body = c.body := by
  rw [Core.refreshBest_rest]
  rfl

theorem refreshBest_off (h : ¬ inRange V start) : (c.refreshBest V s start).best s = s.noBest := by
  cases s
  · exact if_neg h
  · exact if_neg h

/-- The price after one in the grid is in the grid or beyond its end. -/
theorem worse_start (s : Side) (hp : inRange V p) :
    inRange V (s.worse p) ∨ ∀ q, inRange V q → s.rank q < s.rank (s.worse p) := by
  obtain ⟨h1, h2⟩ := hp
  cases s with
  | buy =>
    by_cases e : p = 0
    · refine .inr fun q hq => ?_
      show -q < -(p - 1)
      have := hq.1
      omega
    · exact .inl ⟨by show 0 ≤ p - 1; omega, by show p - 1 < V.LEVELS; omega⟩
  | sell =>
    by_cases e : p + 1 = V.LEVELS
    · refine .inr fun q hq => ?_
      show q < p + 1
      have := hq.2
      omega
    · exact .inl ⟨by show 0 ≤ p + 1; omega, by show p + 1 < V.LEVELS; omega⟩

theorem i32_worse (s : Side) (hp : inRange V p) : i32 (s.worse p) = s.worse p := by
  obtain ⟨h1, h2⟩ := hp
  have h3 := V.levels_int32
  refine i32_eq ?_
  unfold int32Max at h3
  cases s
  · constructor
    · show int32Min ≤ p - 1
      unfold int32Min
      omega
    · show p - 1 ≤ int32Max
      unfold int32Max
      omega
  · constructor
    · show int32Min ≤ p + 1
      unfold int32Min
      omega
    · show p + 1 ≤ int32Max
      unfold int32Max
      omega

theorem noBest_worse (V : Env) (s : Side) : ¬ inRange V (i32 (s.worse s.noBest)) := by
  cases s
  · exact fun h => absurd h.1 (by decide)
  · exact fun h => absurd h.1 (by decide)

/-- A scan is right when from its start on only orders of its side rest, all of them, and the sums tell. -/
theorem scan_exact (hstart : inRange V start ∨ ∀ p, inRange V p → s.rank p < s.rank start)
    (hgrid : ∀ p, c.queue V p ≠ [] → inRange V p) (hall : ∀ p, c.Rests V s p → s.rank start ≤ s.rank p)
    (honly : ∀ p, s.rank start ≤ s.rank p → ¬ c.Rests V s.other p)
    (htell : ∀ p, s.rank start ≤ s.rank p → c.Tells V p) : (c.refreshBest V s start).BestAt V s := by
  have hrests : ∀ p, (c.refreshBest V s start).Rests V s p ↔ c.Rests V s p := fun p =>
    Core.Rests.congr Core.refreshBest_queue Core.refreshBest_body
  have hne : ∀ p, c.Rests V s p → c.queue V p ≠ [] := by
    rintro p ⟨i, hi, -⟩ hnil
    rw [hnil] at hi
    cases hi
  have hshow : ∀ p, c.Rests V s p → inRange V p ∧ 0 < (c.levels p).totalQty := fun p hp =>
    ⟨hgrid p (hne p hp), (htell p (hall p hp)).mpr (hne p hp)⟩
  rcases refreshBest_spec V c s start hstart with ⟨h1, h2⟩ | ⟨h1, h2, h3, h4⟩
  · refine .inl ⟨h1, fun p hp => ?_⟩
    have hp' := (hrests p).mp hp
    exact h2 p (hshow p hp').1 (hall p hp') (hshow p hp').2
  · refine .inr ⟨?_, fun p hp => ?_⟩
    · rw [hrests]
      obtain ⟨i, hi⟩ := exists_mem_of_ne_nil _ ((htell _ h2).mp h3)
      exact Core.rests_of_mem hi (honly _ h2)
    · have hp' := (hrests p).mp hp
      by_contra hlt
      exact h4 p (hshow p hp').1 (hall p hp') (by omega) (hshow p hp').2

theorem Core.BestAt.congr (h : c.BestAt V s) (hb : d.best s = c.best s) (hr : ∀ r, d.Rests V s r ↔ c.Rests V s r) :
    d.BestAt V s := by
  unfold Core.BestAt
  rw [hb]
  simp only [hr]
  exact h

/-- The order in slot `i` joins the queue of `p`. -/
theorem Core.rests_push {i : Nat} {q : Int} (hQ : d.queue V = Function.update (c.queue V) p (c.queue V p ++ [i]))
    (hB : ∀ r, ∀ j ∈ c.queue V r, (d.body j).side = (c.body j).side) :
    d.Rests V s q ↔ c.Rests V s q ∨ (q = p ∧ (d.body i).side = s) := by
  unfold Core.Rests
  rw [hQ]
  by_cases e : q = p
  · subst e
    rw [Function.update_self]
    constructor
    · rintro ⟨j, hj, hs⟩
      rcases mem_append.mp hj with hj | hj
      · exact .inl ⟨j, hj, (hB q j hj).symm.trans hs⟩
      · rw [mem_singleton.mp hj] at hs
        exact .inr ⟨rfl, hs⟩
    · rintro (⟨j, hj, hs⟩ | ⟨-, hs⟩)
      · exact ⟨j, mem_append_left _ hj, (hB q j hj).trans hs⟩
      · exact ⟨i, by simp, hs⟩
  · rw [Function.update_of_ne e]
    constructor
    · rintro ⟨j, hj, hs⟩
      exact .inl ⟨j, hj, (hB q j hj).symm.trans hs⟩
    · rintro (⟨j, hj, hs⟩ | ⟨h, -⟩)
      · exact ⟨j, hj, (hB q j hj).trans hs⟩
      · exact absurd h e

/-- An order of side `s` came to rest at `p` and the cache of its side was raised: both caches are right again. -/
theorem Core.BestAt.raised (hb : ∀ u, c.BestAt V u) (hgrid : ¬ c.Rests V s s.noBest)
    (hr : ∀ u q, d.Rests V u q ↔ c.Rests V u q ∨ (q = p ∧ s = u)) (ho : d.best s.other = c.best s.other)
    (hs : d.best s = if c.best s = s.noBest ∨ s.rank p < s.rank (c.best s) then p else c.best s) (u : Side) :
    d.BestAt V u := by
  by_cases e : u = s
  · subst e
    unfold Core.BestAt
    simp only [hr, hs]
    rcases hb u with ⟨h1, h2⟩ | ⟨h1, h2⟩
    · rw [if_pos (.inl h1)]
      refine .inr ⟨.inr ⟨rfl, trivial⟩, ?_⟩
      rintro q (hq | ⟨rfl, -⟩)
      · exact absurd hq (h2 q)
      · exact le_rfl
    · right
      split
      · rename_i hc
        refine ⟨.inr ⟨rfl, trivial⟩, ?_⟩
        rintro q (hq | ⟨rfl, -⟩)
        · have h3 := h2 q hq
          rcases hc with hc | hc
          · rw [hc] at h1
            exact absurd h1 hgrid
          · omega
        · exact le_rfl
      · rename_i hc
        refine ⟨.inl h1, ?_⟩
        rintro q (hq | ⟨rfl, -⟩)
        · exact h2 q hq
        · by_contra hlt
          exact hc (.inr (by omega))
  · obtain rfl := Side.eq_other_of_ne e
    refine (hb s.other).congr ho fun q => ?_
    rw [hr]
    constructor
    · rintro (h | ⟨-, h⟩)
      · exact h
      · exact absurd h.symm (Side.other_ne _)
    · exact .inl

end

/-! ## The caches stay on the grid -/

def Core.OnGrid (V : Env) (c : Core) : Prop := ∀ s, c.best s = s.noBest ∨ inRange V (c.best s)

section

variable {V : Env} {b b' : Book} {c d : Core} {p : Int}

theorem onGrid_iff : c.OnGrid V ↔
    (c.bestBid = NO_BID_TICKS ∨ inRange V c.bestBid) ∧ (c.bestAsk = NO_ASK_TICKS ∨ inRange V c.bestAsk) := by
  constructor
  · intro h
    exact ⟨h .buy, h .sell⟩
  · rintro ⟨hbid, hask⟩ s
    cases s with
    | buy => exact hbid
    | sell => exact hask

theorem Side.rank_lt_noBest (hp : inRange V p) (s : Side) : s.rank p < s.rank s.noBest := by
  obtain ⟨h1, h2⟩ := hp
  have h3 := V.levels_int32
  cases s with
  | buy =>
    show -p < - -1
    omega
  | sell =>
    show p < int32Max
    omega

theorem Core.OnGrid.rank_le (h : c.OnGrid V) (s : Side) : s.rank (c.best s) ≤ s.rank s.noBest := by
  rcases h s with h1 | h1
  · rw [h1]
  · exact (Side.rank_lt_noBest h1 s).le

/-- A refresh lands on the grid, or finds nothing. -/
theorem refreshBest_grid (c : Core) (s : Side) (start : Int) :
    (c.refreshBest V s start).best s = s.noBest ∨ inRange V ((c.refreshBest V s start).best s) := by
  by_cases hr : inRange V start
  · rcases refreshBest_spec V c s start (.inl hr) with ⟨h, -⟩ | ⟨h, -⟩
    · exact .inl h
    · exact .inr h
  · exact .inl (refreshBest_off hr)

theorem Core.OnGrid.refreshBest (h : c.OnGrid V) (s : Side) (start : Int) : (c.refreshBest V s start).OnGrid V := by
  intro u
  by_cases e : u = s
  · subst e
    exact refreshBest_grid c u start
  · rw [Side.eq_other_of_ne e, Core.refreshBest_other]
    exact h _

theorem Core.OnGrid.of_best (h : c.OnGrid V) (hb : d.best = c.best) : d.OnGrid V := by
  intro u
  rw [hb]
  exact h u

theorem Core.OnGrid.refreshed (h : c.OnGrid V) (s : Side) (p : Int) : (c.refreshIfEmptied V s p).OnGrid V := by
  unfold Core.refreshIfEmptied
  split
  · cases s with
    | buy =>
      dsimp only
      split
      · exact h.refreshBest .buy _
      · exact h
    | sell =>
      dsimp only
      split
      · exact h.refreshBest .sell _
      · exact h
  · exact h

/-- An order leaves its level. -/
theorem Core.OnGrid.unlinked (h : c.OnGrid V) (i : Nat) (s : Side) (p : Int) :
    ((c.unlinkFromLevel i).refreshIfEmptied V s p).OnGrid V := (h.of_best (d := c.unlinkFromLevel i) rfl).refreshed s p

theorem cancelInternal_onGrid (h : b.core.OnGrid V) (i : Nat) (e : Bool) : (b.cancelInternal V i e).core.OnGrid V := by
  unfold Book.cancelInternal
  dsimp only
  split
  · exact h
  · have hleft := h.unlinked i (b.order i).side (b.order i).priceTicks
    cases e with
    | false => exact hleft.of_best rfl
    | true => exact hleft.of_best rfl

/-- A better price of the grid becomes the cached one. -/
theorem Core.OnGrid.raise (h : c.OnGrid V) (s : Side) (hp : inRange V p) : (c.raiseBest s p).OnGrid V := by
  obtain ⟨hbid, hask⟩ := onGrid_iff.mp h
  unfold Core.raiseBest
  cases s with
  | buy =>
    dsimp only
    split
    · exact onGrid_iff.mpr ⟨.inr hp, hask⟩
    · exact h
  | sell =>
    dsimp only
    split
    · exact onGrid_iff.mpr ⟨hbid, .inr hp⟩
    · exact h

theorem Core.OnGrid.follow (h : c.OnGrid V) (s : Side) (hp : inRange V p) : (c.followPeg s p).OnGrid V := by
  obtain ⟨hbid, hask⟩ := onGrid_iff.mp h
  unfold Core.followPeg
  cases s with
  | buy =>
    refine onGrid_iff.mpr ⟨?_, hask⟩
    dsimp only
    split
    · exact .inr hp
    · exact hbid
  | sell =>
    refine onGrid_iff.mpr ⟨hbid, ?_⟩
    dsimp only
    split
    · exact .inr hp
    · exact hask

theorem advanceBest_onGrid (h : b.core.OnGrid V) (s : Side) (p : Int) : (b.advanceBest V s p).core.OnGrid V := by
  unfold Book.advanceBest
  split
  · cases s with
    | buy => exact h.refreshBest .sell _
    | sell => exact h.refreshBest .buy _
  · exact h

end

end HftLab.OrderBook
