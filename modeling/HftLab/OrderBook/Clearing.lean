/-
  HftLab.OrderBook.Clearing — the clearing search of the call auction.

  The search runs over the prices between the two cached best prices and adds up both sides anew at each of them. In a gathered
  book nothing lies outside that range that could trade, and the sums fit: the sums of the code are `Book.demand` and
  `Book.supply` (`cumBid_eq`, `cumAsk_eq`), and the search finds the price of the largest volume, of those the one with the
  least surplus, of those the lowest (`Clears`).
-/

import HftLab.Lib.Allotment
import HftLab.OrderBook.CallBook
import Mathlib.Algebra.BigOperators.Intervals
import Mathlib.Algebra.Order.BigOperators.Group.Finset
import Mathlib.Data.Int.ConditionallyCompleteOrder
import Mathlib.Data.Int.Interval

namespace HftLab.OrderBook

open Lib List

/-- What can trade at `p`. -/
def Book.volume (V : Env) (b : Book) (p : Int) : Int := min (b.demand V p) (b.supply V p)

/-- What is wanted more on one side than on the other at `p`. -/
def Book.surplus (V : Env) (b : Book) (p : Int) : Int := |b.demand V p - b.supply V p|

/-- The quantity of side `s` at the one price `p`. -/
def Book.levelQty (V : Env) (b : Book) (s : Side) (p : Int) : Int :=
  (((b.core.queue V p).filter fun i => (b.order i).side = s).map fun i => (b.order i).remainingQty).sum

section

variable {V : Env} {b : Book} {arrived : Nat → Nat} {n : Nat} {p lo hi : Int} {i : Nat} {s : Side}

theorem Wf.remaining_pos (h : Wf V b) (hi : i ∈ b.core.queue V p) : 0 < (b.core.body i).remainingQty := by
  have hleft := (h.resting hi).left
  unfold Order.remainingQty
  omega

theorem Wf.levelQty_nonneg (h : Wf V b) (s : Side) (p : Int) : 0 ≤ b.levelQty V s p := by
  refine sum_nonneg fun x hx => ?_
  obtain ⟨i, hi, rfl⟩ := mem_map.mp hx
  exact Int.le_of_lt (h.remaining_pos (mem_filter.mp hi).1)

theorem levelQty_zero (h : ¬ b.core.Rests V s p) : b.levelQty V s p = 0 := by
  have hnil : ((b.core.queue V p).filter fun i => (b.order i).side = s) = [] := by
    refine filter_eq_nil_iff.mpr fun i hi hs => h ⟨i, hi, ?_⟩
    exact of_decide_eq_true hs
  unfold Book.levelQty
  rw [hnil]
  rfl

/-- The orders of a side, price by price. -/
theorem Wf.sideQty_eq (h : Wf V b) (s : Side) (P : Int → Bool) :
    b.sideQty V s P = ∑ x ∈ Finset.Ico 0 V.LEVELS, if P x then b.levelQty V s x else 0 := by
  have hlevel : ∀ p : Int, (((b.core.queue V p).filter fun i => (b.order i).side = s && P (b.order i).priceTicks).map
      fun i => (b.order i).remainingQty).sum = if P p then b.levelQty V s p else 0 := by
    intro p
    have hprice : ∀ i ∈ b.core.queue V p, (b.order i).priceTicks = p := fun i hi => h.price hi
    split
    · rename_i hP
      congr 2
      refine filter_congr fun i hi => ?_
      rw [hprice i hi, hP, Bool.and_true]
    · rename_i hP
      have hnil : ((b.core.queue V p).filter fun i => (b.order i).side = s && P (b.order i).priceTicks) = [] := by
        refine filter_eq_nil_iff.mpr fun i hi hs => hP ?_
        rw [hprice i hi, Bool.and_eq_true] at hs
        exact hs.2
      rw [hnil]
      rfl
  have hsum : b.sideQty V s P = ∑ k ∈ Finset.range V.LEVELS.toNat, if P (k : Int) then b.levelQty V s k else 0 := by
    unfold Book.sideQty Core.restingSlots
    rw [sum_range_flatMap]
    exact Finset.sum_congr rfl fun k _ => hlevel k
  rw [hsum]
  refine Finset.sum_nbij' (fun k : Nat => (k : Int)) Int.toNat ?_ ?_ ?_ ?_ ?_
  · intro k hk
    rw [Finset.mem_range] at hk
    rw [Finset.mem_Ico]
    omega
  · intro x hx
    rw [Finset.mem_Ico] at hx
    rw [Finset.mem_range]
    omega
  · intro k _
    rfl
  · intro x hx
    rw [Finset.mem_Ico] at hx
    exact Int.toNat_of_nonneg hx.1
  · intro k _
    rfl

theorem Wf.sideQty_nonneg (h : Wf V b) (s : Side) (P : Int → Bool) : 0 ≤ b.sideQty V s P := by
  rw [h.sideQty_eq]
  refine Finset.sum_nonneg fun x _ => ?_
  split
  · exact h.levelQty_nonneg s x
  · exact Int.le_refl 0

theorem Gathered.sideQty_le (h : Gathered V arrived n b) (hf : b.AuctionFits V) (s : Side) (P : Int → Bool) :
    b.sideQty V s P ≤ int32Max := by
  have hle : b.sideQty V s P ≤ b.sideQty V s fun _ => true := by
    rw [h.wf.sideQty_eq, h.wf.sideQty_eq]
    refine Finset.sum_le_sum fun x _ => ?_
    split
    · exact Int.le_refl _
    · exact h.wf.levelQty_nonneg s x
  cases s with
  | buy => exact Int.le_trans hle hf.2.1
  | sell => exact Int.le_trans hle hf.2.2

/-- Only the orders between two prices count, if the others are none. -/
theorem Gathered.sideQty_between (h : Gathered V arrived n b) {P : Int → Bool} (h0 : 0 ≤ lo) (hL : hi < V.LEVELS)
    (hin : ∀ x, lo ≤ x → x ≤ hi → P x) (hout : ∀ x, P x → b.core.Rests V s x → lo ≤ x ∧ x ≤ hi) :
    b.sideQty V s P = ∑ x ∈ Finset.Icc lo hi, b.levelQty V s x := by
  rw [h.wf.sideQty_eq]
  symm
  refine Finset.sum_subset_zero_on_sdiff ?_ ?_ ?_
  · intro x hx
    rw [Finset.mem_Icc] at hx
    rw [Finset.mem_Ico]
    omega
  · intro x hx
    rw [Finset.mem_sdiff, Finset.mem_Icc] at hx
    split
    · rename_i hP
      exact levelQty_zero fun hr => hx.2 (hout x hP hr)
    · rfl
  · intro x hx
    rw [Finset.mem_Icc] at hx
    rw [if_pos (hin x hx.1 hx.2)]

/-! ## The sums of the search -/

theorem Gathered.addDisplayed_eq (h : Gathered V arrived n b) (s : Side) (p x : Int) :
    b.core.addDisplayed V s p (i32 x) = i32 (x + b.levelQty V s p) := by
  have hfold : ∀ (l : List Nat) (x : Int), (∀ i ∈ l, i ∈ b.core.queue V p) →
      l.foldl (fun cum i => if (b.core.pool i).side = s ∧ (b.core.pool i).isActive = true then
        i32 (cum + (b.core.pool i).displayedQty) else cum) (i32 x) =
      i32 (x + ((l.filter fun i => (b.order i).side = s).map fun i => (b.order i).remainingQty).sum) := by
    intro l
    induction l with
    | nil =>
      intro x _
      simp
    | cons i l ih =>
      intro x hl
      have hi := hl i mem_cons_self
      have hl' : ∀ j ∈ l, j ∈ b.core.queue V p := fun j hj => hl j (mem_cons_of_mem _ hj)
      have hact : (b.core.pool i).isActive := (h.wf.resting hi).active
      have hshown : (b.core.pool i).displayedQty = (b.order i).remainingQty := by
        have h1 : (b.order i).displayedQty = (b.order i).totalQty := (h.untouched p i hi).shown
        have h2 : (b.order i).filledQty = 0 := (h.untouched p i hi).filled
        unfold Order.remainingQty
        rw [h2, Int.sub_zero]
        exact h1
      rw [foldl_cons]
      by_cases hs : (b.order i).side = s
      · rw [if_pos ⟨hs, hact⟩, i32_add_left, hshown, ih _ hl', filter_cons_of_pos (by exact decide_eq_true hs), map_cons,
          sum_cons, Int.add_assoc]
      · rw [if_neg (fun hc => hs hc.1), ih _ hl', filter_cons_of_neg (by simpa using hs)]
  exact hfold _ x fun _ hi => hi

theorem Gathered.cumBid_eq (h : Gathered V arrived n b) (hi : Int) (k : Nat) :
    b.core.cumBid V hi k = i32 (∑ x ∈ Finset.Icc (hi - k + 1) hi, b.levelQty V .buy x) := by
  induction k with
  | zero =>
    rw [Finset.Icc_eq_empty (by simp)]
    rfl
  | succ k ih =>
    unfold Core.cumBid at ih ⊢
    rw [range_succ, foldl_append, ih]
    have hsplit : Finset.Icc (hi - ((k + 1 : Nat) : Int) + 1) hi = insert (hi - k) (Finset.Icc (hi - k + 1) hi) := by
      ext x
      rw [Finset.mem_insert, Finset.mem_Icc, Finset.mem_Icc]
      omega
    rw [hsplit, Finset.sum_insert (by rw [Finset.mem_Icc]; omega), Int.add_comm (b.levelQty V .buy (hi - k))]
    exact h.addDisplayed_eq .buy (hi - k) _

theorem Gathered.cumAsk_eq (h : Gathered V arrived n b) (lo : Int) (k : Nat) :
    b.core.cumAsk V lo k = i32 (∑ x ∈ Finset.Icc lo (lo + k - 1), b.levelQty V .sell x) := by
  induction k with
  | zero =>
    rw [Finset.Icc_eq_empty (by simp)]
    rfl
  | succ k ih =>
    unfold Core.cumAsk at ih ⊢
    rw [range_succ, foldl_append, ih]
    have hsplit : Finset.Icc lo (lo + ((k + 1 : Nat) : Int) - 1) = insert (lo + k) (Finset.Icc lo (lo + k - 1)) := by
      ext x
      rw [Finset.mem_insert, Finset.mem_Icc, Finset.mem_Icc]
      omega
    rw [hsplit, Finset.sum_insert (by rw [Finset.mem_Icc]; omega), Int.add_comm (b.levelQty V .sell (lo + k))]
    exact h.addDisplayed_eq .sell (lo + k) _

/-! ## The search -/

/-- The range of the search, between prices of the grid, holds everything that can trade. -/
structure Spanned (V : Env) (b : Book) (lo hi : Int) : Prop where
  nonneg : 0 ≤ lo
  top : hi < V.LEVELS
  nonempty : lo ≤ hi
  bids : ∀ x, b.core.Rests V .buy x → x ≤ hi
  asks : ∀ x, b.core.Rests V .sell x → lo ≤ x

theorem Gathered.spanned (h : Gathered V arrived n b) (hb : b.core.hasBid) (ha : b.core.hasAsk) :
    Spanned V b (min b.core.bestBid b.core.bestAsk) (max b.core.bestBid b.core.bestAsk) := by
  have hbid : inRange V b.core.bestBid := by
    rcases h.grid .buy with e | hin
    · exact absurd e (of_decide_eq_true hb)
    · exact hin
  have hask : inRange V b.core.bestAsk := by
    rcases h.grid .sell with e | hin
    · exact absurd e (of_decide_eq_true ha)
    · exact hin
  have h1 := hbid.1
  have h2 := hbid.2
  have h3 := hask.1
  have h4 := hask.2
  refine ⟨by omega, by omega, by omega, fun x hx => ?_, fun x hx => ?_⟩
  · have hle : -b.core.bestBid ≤ -x := h.ahead .buy x hx
    omega
  · have hle : b.core.bestAsk ≤ x := h.ahead .sell x hx
    omega

theorem Spanned.demand_above (hs : Spanned V b lo hi) (h : Gathered V arrived n b) (hp : hi < p) : b.demand V p = 0 := by
  unfold Book.demand
  rw [h.wf.sideQty_eq]
  refine Finset.sum_eq_zero fun x _ => ?_
  split
  · rename_i hx
    have hx := of_decide_eq_true hx
    exact levelQty_zero fun hr => by have := hs.bids x hr; omega
  · rfl

theorem Spanned.supply_below (hs : Spanned V b lo hi) (h : Gathered V arrived n b) (hp : p < lo) : b.supply V p = 0 := by
  unfold Book.supply
  rw [h.wf.sideQty_eq]
  refine Finset.sum_eq_zero fun x _ => ?_
  split
  · rename_i hx
    have hx := of_decide_eq_true hx
    exact levelQty_zero fun hr => by have := hs.asks x hr; omega
  · rfl

theorem Spanned.cumBid (hs : Spanned V b lo hi) (h : Gathered V arrived n b) (hf : b.AuctionFits V) (h1 : lo ≤ p) (h2 : p ≤ hi) :
    b.core.cumBid V hi (hi - p + 1).toNat = b.demand V p := by
  have h0 := hs.nonneg
  have hsum : b.demand V p = ∑ x ∈ Finset.Icc p hi, b.levelQty V .buy x := by
    refine h.sideQty_between (by omega) hs.top (fun x hx _ => decide_eq_true hx) fun x hx hr => ?_
    exact ⟨of_decide_eq_true hx, hs.bids x hr⟩
  have hp : hi - ((hi - p + 1).toNat : Int) + 1 = p := by omega
  rw [h.cumBid_eq, hp, ← hsum]
  refine i32_eq ⟨?_, h.sideQty_le hf _ _⟩
  have hnn : 0 ≤ b.demand V p := h.wf.sideQty_nonneg _ _
  unfold int32Min
  omega

theorem Spanned.cumAsk (hs : Spanned V b lo hi) (h : Gathered V arrived n b) (hf : b.AuctionFits V) (h1 : lo ≤ p) (h2 : p ≤ hi) :
    b.core.cumAsk V lo (p - lo + 1).toNat = b.supply V p := by
  have htop := hs.top
  have hsum : b.supply V p = ∑ x ∈ Finset.Icc lo p, b.levelQty V .sell x := by
    refine h.sideQty_between hs.nonneg (by omega) (fun x _ hx => decide_eq_true hx) fun x hx hr => ?_
    exact ⟨hs.asks x hr, of_decide_eq_true hx⟩
  have hp : lo + ((p - lo + 1).toNat : Int) - 1 = p := by omega
  rw [h.cumAsk_eq, hp, ← hsum]
  refine i32_eq ⟨?_, h.sideQty_le hf _ _⟩
  have hnn : 0 ≤ b.supply V p := h.wf.sideQty_nonneg _ _
  unfold int32Min
  omega

/-- The running choice of the code, for the price chosen so far. -/
def Book.clearingAt (V : Env) (b : Book) : Option Int → Core.Clearing
  | none => {}
  | some p => ⟨p, b.volume V p, b.surplus V p, b.demand V p - b.volume V p, b.supply V p - b.volume V p⟩

theorem Gathered.volume_nonneg (h : Gathered V arrived n b) (p : Int) : 0 ≤ b.volume V p :=
  le_min (h.wf.sideQty_nonneg ..) (h.wf.sideQty_nonneg ..)

theorem Spanned.tryClearing (hs : Spanned V b lo hi) (h : Gathered V arrived n b) (hf : b.AuctionFits V) (h1 : lo ≤ p) (h2 : p ≤ hi)
    (o : Option Int) :
    b.core.tryClearing V lo hi (b.clearingAt V o) p = b.clearingAt V (prefer (b.volume V) (b.surplus V) o p) := by
  have hd0 : 0 ≤ b.demand V p := h.wf.sideQty_nonneg _ _
  have hs0 : 0 ≤ b.supply V p := h.wf.sideQty_nonneg _ _
  have hd1 : b.demand V p ≤ int32Max := h.sideQty_le hf _ _
  have hs1 : b.supply V p ≤ int32Max := h.sideQty_le hf _ _
  have hv : b.volume V p = min (b.demand V p) (b.supply V p) := rfl
  have hsur : i32 (((i32 (b.demand V p - b.supply V p)).natAbs : Nat) : Int) = b.surplus V p := by
    have hin : i32 (b.demand V p - b.supply V p) = b.demand V p - b.supply V p := by
      refine i32_eq ⟨?_, ?_⟩
      · unfold int32Min
        unfold int32Max at hd1 hs1
        omega
      · omega
    rw [hin]
    have habs : ((b.demand V p - b.supply V p).natAbs : Int) = b.surplus V p := Int.natCast_natAbs _
    rw [habs]
    refine i32_eq ⟨?_, ?_⟩ <;> rw [← habs]
    · unfold int32Min
      omega
    · omega
  have h32 : ∀ x y : Int, 0 ≤ y → y ≤ x → x ≤ int32Max → i32 (x - y) = x - y := by
    intro x y hy hyx hx
    refine i32_eq ⟨?_, by omega⟩
    unfold int32Min
    omega
  unfold Core.tryClearing
  dsimp only
  rw [hs.cumBid h hf h1 h2, hs.cumAsk h hf h1 h2, hsur, ← hv, h32 _ _ (h.volume_nonneg p) (min_le_left ..) hd1,
    h32 _ _ (h.volume_nonneg p) (min_le_right ..) hs1]
  cases o with
  | none =>
    have := h.volume_nonneg p
    exact if_pos (.inl (by show (-1 : Int) < _; omega))
  | some q =>
    show (if b.volume V q < b.volume V p ∨ (b.volume V p = b.volume V q ∧ b.surplus V p < b.surplus V q) then _ else _) = _
    unfold prefer
    dsimp only
    split <;> rfl

/-- The prices that the search runs over. -/
def spanOf (lo hi : Int) : List Int := (List.range (hi - lo + 1).toNat).map fun (k : Nat) => lo + k

theorem mem_spanOf {x : Int} : x ∈ spanOf lo hi ↔ lo ≤ x ∧ x ≤ hi := by
  unfold spanOf
  rw [mem_map]
  constructor
  · rintro ⟨k, hk, rfl⟩
    rw [mem_range] at hk
    omega
  · intro hx
    exact ⟨(x - lo).toNat, mem_range.mpr (by omega), by omega⟩

theorem Spanned.search (hs : Spanned V b lo hi) (h : Gathered V arrived n b) (hf : b.AuctionFits V) :
    ∃ a, (List.range (hi - lo + 1).toNat).foldl (fun best (k : Nat) => b.core.tryClearing V lo hi best (lo + k)) {} =
        b.clearingAt V (some a) ∧ Chosen (b.volume V) (b.surplus V) (spanOf lo hi) a := by
  have hfold : ∀ (l : List Int) (o : Option Int), (∀ x ∈ l, lo ≤ x ∧ x ≤ hi) →
      l.foldl (fun best x => b.core.tryClearing V lo hi best x) (b.clearingAt V o) =
        b.clearingAt V (l.foldl (prefer (b.volume V) (b.surplus V)) o) := by
    intro l
    induction l with
    | nil => exact fun _ _ => rfl
    | cons x l ih =>
      intro o hl
      have hx := hl x mem_cons_self
      rw [foldl_cons, foldl_cons, hs.tryClearing h hf hx.1 hx.2]
      exact ih _ fun y hy => hl y (mem_cons_of_mem _ hy)
  have hsorted : (spanOf lo hi).Pairwise (· < ·) := by
    refine pairwise_map.mpr (pairwise_lt_range.imp ?_)
    intro j k hjk
    omega
  have hne : spanOf lo hi ≠ [] := by
    have := hs.nonempty
    exact ne_nil_of_mem (mem_spanOf.mpr ⟨Int.le_refl lo, this⟩)
  have hseek : ∃ a, seek (b.volume V) (b.surplus V) (spanOf lo hi) = some a ∧ Chosen (b.volume V) (b.surplus V) (spanOf lo hi) a :=
    seek_chosen hsorted hne
  obtain ⟨a, ha, hc⟩ := hseek
  refine ⟨a, ?_, hc⟩
  have hrun := hfold (spanOf lo hi) none fun x hx => mem_spanOf.mp hx
  unfold spanOf at hrun
  rw [foldl_map] at hrun
  unfold seek at ha
  unfold spanOf at ha
  rw [ha] at hrun
  exact hrun

/-- Of all prices of the grid: the one where most can trade, of those the one with the least surplus, of those the lowest. -/
structure Clears (V : Env) (b : Book) (a : Int) : Prop where
  grid : inRange V a
  most : ∀ p, inRange V p → b.volume V p ≤ b.volume V a
  least : ∀ p, inRange V p → b.volume V p = b.volume V a → b.surplus V a ≤ b.surplus V p
  lowest : ∀ p, inRange V p → b.volume V p = b.volume V a → b.surplus V p = b.surplus V a → a ≤ p

/-- Outside the range of the search nothing can trade. -/
theorem Spanned.volume_outside (hs : Spanned V b lo hi) (h : Gathered V arrived n b) (hp : ¬ (lo ≤ p ∧ p ≤ hi)) :
    b.volume V p = 0 := by
  have hd : 0 ≤ b.demand V p := h.wf.sideQty_nonneg _ _
  have hsup : 0 ≤ b.supply V p := h.wf.sideQty_nonneg _ _
  unfold Book.volume
  by_cases hlt : p < lo
  · rw [hs.supply_below h hlt]
    exact min_eq_right hd
  · rw [hs.demand_above h (by omega)]
    exact min_eq_left hsup

theorem Spanned.clears {a : Int} (hs : Spanned V b lo hi) (h : Gathered V arrived n b)
    (hc : Chosen (b.volume V) (b.surplus V) (spanOf lo hi) a) (hpos : 0 < b.volume V a) : Clears V b a := by
  have ha := mem_spanOf.mp hc.mem
  have h0 := hs.nonneg
  have h1 := hs.top
  have hin : ∀ p, b.volume V p = b.volume V a → p ∈ spanOf lo hi := by
    intro p hp
    by_contra hn
    rw [hs.volume_outside h (fun hx => hn (mem_spanOf.mpr hx))] at hp
    omega
  refine ⟨⟨by omega, by omega⟩, fun p _ => ?_, fun p _ e => hc.cheapest p (hin p e) e, fun p _ e e' => hc.lowest p (hin p e) e e'⟩
  by_cases hp : p ∈ spanOf lo hi
  · exact hc.best p hp
  · rw [hs.volume_outside h fun hx => hp (mem_spanOf.mpr hx)]
    exact Int.le_of_lt hpos

/-- A side that its cache takes for empty is empty. -/
theorem Gathered.side_empty (h : Gathered V arrived n b) (hb : b.core.best s = s.noBest) (P : Int → Bool) : b.sideQty V s P = 0 := by
  rw [h.wf.sideQty_eq]
  refine Finset.sum_eq_zero fun x _ => ?_
  split
  · refine levelQty_zero fun hr => ?_
    have hahead := h.ahead s x hr
    obtain ⟨i, hi, -⟩ := hr
    have hlt := s.rank_noBest (h.wf.links.grid x i hi)
    rw [hb] at hahead
    omega
  · rfl

/-- The search finds the clearing price, or nothing can trade at any price. -/
theorem Gathered.indicative (h : Gathered V arrived n b) (hf : b.AuctionFits V) :
    ((b.core.indicativeAuctionInfo V).executed = false ∧ ∀ p, b.volume V p = 0) ∨
    (b.core.hasBid = true ∧ b.core.hasAsk ∧ ∃ a, Clears V b a ∧ 0 < b.volume V a ∧
      b.core.indicativeAuctionInfo V =
        ⟨a, b.volume V a, b.demand V a - b.volume V a, b.supply V a - b.volume V a, true⟩) := by
  by_cases hboth : b.core.hasBid ∧ b.core.hasAsk
  · obtain ⟨hb, ha⟩ := hboth
    have hs := h.spanned hb ha
    obtain ⟨a, hsearch, hc⟩ := hs.search h hf
    unfold Core.indicativeAuctionInfo
    rw [if_pos (by rw [hb, ha]; rfl)]
    dsimp only
    rw [hsearch]
    by_cases hpos : 0 < b.volume V a
    · right
      rw [if_neg (by show ¬ b.volume V a ≤ 0; omega)]
      exact ⟨hb, ha, a, hs.clears h hc hpos, hpos, rfl⟩
    · left
      rw [if_pos (by show b.volume V a ≤ 0; omega)]
      refine ⟨rfl, fun p => ?_⟩
      have hnn := h.volume_nonneg p
      by_cases hp : p ∈ spanOf (min b.core.bestBid b.core.bestAsk) (max b.core.bestBid b.core.bestAsk)
      · have := hc.best p hp
        omega
      · exact hs.volume_outside h fun hx => hp (mem_spanOf.mpr hx)
  · left
    have hoff : (b.core.hasBid && b.core.hasAsk) = false := by simpa using hboth
    unfold Core.indicativeAuctionInfo
    rw [if_neg (by rw [hoff]; decide)]
    refine ⟨rfl, fun p => ?_⟩
    have hd : 0 ≤ b.demand V p := h.wf.sideQty_nonneg _ _
    have hsup : 0 ≤ b.supply V p := h.wf.sideQty_nonneg _ _
    unfold Book.volume
    by_cases hb : b.core.hasBid
    · have ha : ¬ b.core.hasAsk := fun ha => hboth ⟨hb, ha⟩
      have hnone : b.core.best .sell = Side.noBest .sell := by
        by_contra hne
        exact ha (decide_eq_true hne)
      rw [show b.supply V p = 0 from h.side_empty hnone _]
      exact min_eq_right hd
    · have hnone : b.core.best .buy = Side.noBest .buy := by
        by_contra hne
        exact hb (decide_eq_true hne)
      rw [show b.demand V p = 0 from h.side_empty hnone _]
      exact min_eq_left hsup

end

end HftLab.OrderBook
