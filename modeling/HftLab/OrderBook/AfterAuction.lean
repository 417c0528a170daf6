/-
  HftLab.OrderBook.AfterAuction — the best prices that an auction leaves.

  After the executions the caches are rescanned from the ends of the grid, each to the first level that shows anything. The
  highest such level and the lowest one are never those of a BUY side below a SELL side: with any order left the best prices
  are wrong (`rescanned_consistent_iff`). So the auction leaves a consistent book only if it served every order in full, or,
  when nothing could trade, if the caches were right before (`auction_consistent_iff`).
-/

import HftLab.OrderBook.Cross
import Mathlib.Algebra.Order.Group.Defs

namespace HftLab.OrderBook

open Lib List

/-- The best prices are those of the resting orders, and the BUY side is below the SELL side. -/
structure Book.Consistent (V : Env) (b : Book) : Prop where
  best : ∀ s, b.core.BestAt V s
  spread : (∃ p, b.core.Rests V .buy p) → (∃ q, b.core.Rests V .sell q) → b.core.bestBid < b.core.bestAsk

/-- Every BUY order meets every SELL order, and there is as much of the one as of the other. -/
def Book.Even (V : Env) (b : Book) : Prop :=
  (∀ p q, b.core.Rests V .buy p → b.core.Rests V .sell q → q ≤ p) ∧
    b.sideQty V .buy (fun _ => true) = b.sideQty V .sell (fun _ => true)

/-- Each cached price is that of an order of its own side, or says that there is none. -/
def Book.CachesOwn (V : Env) (b : Book) : Prop := ∀ s, b.core.best s = s.noBest ∨ b.core.Rests V s (b.core.best s)

section

variable {V : Env} {b b' : Book} {F : List (Nat × Int)} {arrived : Nat → Nat} {n : Nat} {p a lo hi : Int} {i : Nat} {s : Side}

/-! ## Rescanning -/

theorem rescanned_queue (b : Book) : (b.rescanned V).core.queue V = b.core.queue V := rfl

/-- The caches after a scan of the whole grid. -/
theorem rescanned_first (V : Env) (b : Book) :
    FirstShowing V b.core.levels .buy (V.LEVELS - 1) ((b.rescanned V).core.best .buy) ∧
      FirstShowing V b.core.levels .sell 0 ((b.rescanned V).core.best .sell) := by
  have hpos := V.levels_pos
  exact ⟨refreshBest_spec V b.core .buy (V.LEVELS - 1) (.inl ⟨by omega, by omega⟩),
    refreshBest_spec V (b.core.refreshBestBidFrom V (V.LEVELS - 1)) .sell 0 (.inl ⟨by omega, by omega⟩)⟩

/-- The rescanned book is consistent only if it is empty. -/
theorem rescanned_consistent_iff (hw : Wf V b) (ht : ∀ p, b.core.Tells V p) :
    (b.rescanned V).Consistent V ↔ ∀ p, b.core.queue V p = [] := by
  obtain ⟨hbuy, hsell⟩ := rescanned_first V b
  constructor
  · intro h p
    by_contra hne
    have hp : inRange V p := by
      obtain ⟨i, hi⟩ := exists_mem_of_ne_nil _ hne
      exact hw.links.grid p i hi
    have hshow : 0 < (b.core.levels p).totalQty := (ht p).mpr hne
    have hp1 : -(V.LEVELS - 1) ≤ -p := by have := hp.2; omega
    -- Both scans stop somewhere, so that both sides would rest there.
    rcases hbuy with ⟨-, hall⟩ | ⟨hx, -, hxs, hxb⟩
    · exact hall p hp hp1 hshow
    · rcases hsell with ⟨-, hall⟩ | ⟨hy, -, hys, hyb⟩
      · exact hall p hp hp.1 hshow
      · have hrest : ∀ s x, (b.rescanned V).core.best s = x → inRange V x → (b.rescanned V).core.Rests V s x := by
          intro s x e hin
          rcases h.best s with ⟨hnone, -⟩ | ⟨hr, -⟩
          · rw [← e, hnone] at hin
            exact absurd hin (Side.not_inRange_noBest V s)
          · exact e ▸ hr
        have hlt := h.spread ⟨_, hrest .buy _ rfl hx⟩ ⟨_, hrest .sell _ rfl hy⟩
        exact hyb _ hx hx.1 hlt hxs
  · intro hempty
    have hno : ∀ s p, ¬ (b.rescanned V).core.Rests V s p := by
      rintro s p ⟨i, hi, -⟩
      rw [rescanned_queue, hempty p] at hi
      cases hi
    have hzero : ∀ p, ¬ 0 < (b.core.levels p).totalQty := fun p hp => (ht p).mp hp (hempty p)
    refine ⟨fun s => .inl ⟨?_, hno s⟩, ?_⟩
    · cases s with
      | buy =>
        rcases hbuy with ⟨hx, -⟩ | ⟨-, -, hxs, -⟩
        · exact hx
        · exact absurd hxs (hzero _)
      | sell =>
        rcases hsell with ⟨hx, -⟩ | ⟨-, -, hxs, -⟩
        · exact hx
        · exact absurd hxs (hzero _)
    · rintro ⟨p, hp⟩ -
      exact absurd hp (hno .buy p)

/-! ## Who is left -/

/-- What an untouched order shows after `F`: all that is left of it. -/
theorem Filled.shown (h : Filled V a b F b') (hg : Gathered V arrived n b) (hF : ∀ x ∈ F, 0 < x.2) (hi : i ∈ b'.core.queue V p) :
    i ∈ b.core.queue V p ∧ (b'.core.body i).displayedQty = (b.core.body i).displayedQty - taken F i ∧
      0 < (b'.core.body i).displayedQty ∧ (b'.core.body i).totalQty - (b'.core.body i).filledQty = (b'.core.body i).displayedQty := by
  rw [h.queue] at hi
  obtain ⟨hi, hlt⟩ := mem_filter.mp hi
  have hlt := of_decide_eq_true hlt
  have h1 := (hg.untouched p i hi).filled
  have h2 := (hg.untouched p i hi).shown
  have h3 := taken_nonneg hF i
  unfold Order.remainingQty at hlt
  rw [h.body]
  split
  · exact ⟨hi, by omega, by omega, by omega⟩
  · have hshown : ((b.core.body i).crossed (taken F i)).displayedQty = (b.core.body i).displayedQty - taken F i := by
      show (b.core.body i).displayedQty - min (taken F i) (b.core.body i).displayedQty = _
      omega
    have htotal : ((b.core.body i).crossed (taken F i)).totalQty - ((b.core.body i).crossed (taken F i)).filledQty =
        (b.core.body i).totalQty - ((b.core.body i).filledQty + taken F i) := rfl
    rw [hshown, htotal]
    exact ⟨hi, rfl, by omega, by omega⟩

theorem Filled.tells (h : Filled V a b F b') (hg : Gathered V arrived n b) (hf : b.SumsFit V) (hF : ∀ x ∈ F, 0 < x.2) (p : Int) :
    b'.core.Tells V p := by
  have hvis : b'.AllVisible V := by
    intro r i hi
    obtain ⟨-, -, h1, h2⟩ := h.shown hg hF hi
    exact ⟨h1, fun _ => Int.le_of_eq h2⟩
  refine (h.summed hg.summed).tells h.wf hvis (fun k hk => ?_) p
  refine Int.le_trans ?_ (hf k hk)
  have hle : ∀ i ∈ b'.core.queue V k, (b'.core.body i).displayedQty ≤ (b.core.body i).displayedQty := by
    intro i hi
    have h1 := (h.shown hg hF hi).2.1
    have h2 := taken_nonneg hF i
    omega
  have hsub : (b'.core.queue V k).Sublist (b.core.queue V k) := by
    rw [h.queue]
    exact filter_sublist
  calc ((b'.core.queue V k).map fun i => (b'.core.body i).displayedQty).sum
      ≤ ((b'.core.queue V k).map fun i => (b.core.body i).displayedQty).sum := sum_le_sum hle
    _ ≤ ((b.core.queue V k).map fun i => (b.core.body i).displayedQty).sum := by
      refine (hsub.map _).sum_le_sum fun x hx => ?_
      obtain ⟨i, hi, rfl⟩ := mem_map.mp hx
      exact (hg.wf.resting hi).shown

theorem Gathered.levelQty_pos (h : Gathered V arrived n b) (hr : b.core.Rests V s p) : 0 < b.levelQty V s p := by
  obtain ⟨i, hi, hs⟩ := hr
  refine sum_pos _ (fun x hx => ?_) ?_
  · obtain ⟨j, hj, rfl⟩ := mem_map.mp hx
    exact h.wf.remaining_pos (mem_filter.mp hj).1
  · intro hnil
    have hmem : i ∈ (b.core.queue V p).filter fun j => (b.order j).side = s := mem_filter.mpr ⟨hi, decide_eq_true hs⟩
    rw [map_eq_nil_iff.mp hnil] at hmem
    cases hmem

/-- A part of a side is all of it only if every order of the side belongs to it. -/
theorem Gathered.sideQty_all_iff (h : Gathered V arrived n b) (s : Side) (P : Int → Bool) :
    b.sideQty V s P = b.sideQty V s (fun _ => true) ↔ ∀ p, b.core.Rests V s p → P p := by
  have hle : ∀ x ∈ Finset.Ico 0 V.LEVELS, (if P x then b.levelQty V s x else 0) ≤ b.levelQty V s x := by
    intro x _
    split
    · exact Int.le_refl _
    · exact h.wf.levelQty_nonneg s x
  rw [h.wf.sideQty_eq, h.wf.sideQty_eq]
  simp only [if_true]
  rw [Finset.sum_eq_sum_iff_of_le hle]
  constructor
  · intro hall p hp
    have hin : inRange V p := by
      obtain ⟨i, hi, -⟩ := hp
      exact h.wf.links.grid p i hi
    have hx := hall p (Finset.mem_Ico.mpr hin)
    by_contra hn
    rw [if_neg hn] at hx
    have := h.levelQty_pos hp
    omega
  · intro hall x _
    split
    · rfl
    · rename_i hn
      exact (levelQty_zero fun hr => hn (hall x hr)).symm

/-- Some price allows a trade if the sides cross. -/
theorem Gathered.volume_pos_iff (h : Gathered V arrived n b) :
    (∃ p, 0 < b.volume V p) ↔ ∃ p q, b.core.Rests V .buy p ∧ b.core.Rests V .sell q ∧ q ≤ p := by
  have hpart : ∀ {s P x}, b.core.Rests V s x → P x → 0 < b.sideQty V s P := by
    intro s P x hx hP
    have hin : inRange V x := by
      obtain ⟨i, hi, -⟩ := hx
      exact h.wf.links.grid x i hi
    rw [h.wf.sideQty_eq]
    refine Finset.sum_pos' (fun y _ => ?_) ⟨x, Finset.mem_Ico.mpr hin, ?_⟩
    · split
      · exact h.wf.levelQty_nonneg s y
      · exact Int.le_refl _
    · rw [if_pos hP]
      exact h.levelQty_pos hx
  have hsome : ∀ {s P}, 0 < b.sideQty V s P → ∃ x, b.core.Rests V s x ∧ P x := by
    intro s P hpos
    by_contra hn
    have hzero : b.sideQty V s P = 0 := by
      rw [h.wf.sideQty_eq]
      refine Finset.sum_eq_zero fun x _ => ?_
      split
      · rename_i hP
        exact levelQty_zero fun hr => hn ⟨x, hr, hP⟩
      · rfl
    omega
  constructor
  · rintro ⟨p, hp⟩
    obtain ⟨hd, hsup⟩ := lt_min_iff.mp hp
    obtain ⟨x, hx, hxp⟩ := hsome hd
    obtain ⟨y, hy, hyp⟩ := hsome hsup
    have h1 := of_decide_eq_true hxp
    have h2 := of_decide_eq_true hyp
    exact ⟨x, y, hx, hy, by omega⟩
  · rintro ⟨p, q, hp, hq, hle⟩
    exact ⟨p, lt_min (hpart hp (decide_eq_true (Int.le_refl p))) (hpart hq (decide_eq_true hle))⟩

theorem taken_of_mem {q : Int} (hn : (F.map Prod.fst).Nodup) (h : (i, q) ∈ F) : taken F i = q := by
  induction F with
  | nil => cases h
  | cons x F ih =>
    rw [map_cons] at hn
    obtain ⟨hx, hn⟩ := nodup_cons.mp hn
    have hcons : taken (x :: F) i = taken [x] i + taken F i := taken_append [x] F i
    rw [hcons, taken_singleton]
    rcases mem_cons.mp h with rfl | h
    · rw [if_pos rfl, taken_eq_zero fun r hr => hx (mem_map.mpr ⟨_, hr, rfl⟩), Int.add_zero]
    · have hne : x.1 ≠ i := by
        rintro rfl
        exact hx (mem_map.mpr ⟨_, h, rfl⟩)
      rw [ih hn h, if_neg hne, Int.zero_add]

/-- The orders of a side that accept the price. -/
theorem Gathered.wanted_all_iff (h : Gathered V arrived n b) (s : Side) (a : Int) :
    b.wanted V s a = b.sideQty V s (fun _ => true) ↔ ∀ p, b.core.Rests V s p → s.accepts p a := by
  cases s with
  | buy => simpa [Side.accepts, Book.wanted, Book.demand] using h.sideQty_all_iff .buy fun q => decide (a ≤ q)
  | sell => simpa [Side.accepts, Book.wanted, Book.supply] using h.sideQty_all_iff .sell fun q => decide (q ≤ a)

theorem Gathered.wanted_bounds (h : Gathered V arrived n b) (s : Side) (a : Int) :
    b.volume V a ≤ b.wanted V s a ∧ b.wanted V s a ≤ b.sideQty V s fun _ => true := by
  have hle : ∀ P, b.sideQty V s P ≤ b.sideQty V s fun _ => true := by
    intro P
    rw [h.wf.sideQty_eq, h.wf.sideQty_eq]
    refine Finset.sum_le_sum fun x _ => ?_
    split
    · exact Int.le_refl _
    · exact h.wf.levelQty_nonneg s x
  cases s with
  | buy => exact ⟨min_le_left .., hle fun q => decide (a ≤ q)⟩
  | sell => exact ⟨min_le_right .., hle fun q => decide (q ≤ a)⟩

/-- An order of side `s` lines up if it accepts the price. -/
theorem Spanned.lineUp_iff (hs : Spanned V b lo hi) (hm : i ∈ b.core.queue V p) (hside : (b.core.body i).side = s) (hw : Wf V b) :
    i ∈ b.lineUp V s (Book.auctionPrices s lo hi a) ↔ s.accepts p a := by
  constructor
  · intro h
    obtain ⟨r, hr, hir, -⟩ := mem_lineUp h
    rw [hw.links.unique hm hir]
    have hr := mem_auctionPrices.mp hr
    cases s with
    | buy => exact hr.1
    | sell => exact hr.2
  · intro h
    refine mem_flatMap.mpr ⟨p, mem_auctionPrices.mpr ?_, mem_filter.mpr ⟨hm, decide_eq_true hside⟩⟩
    cases s with
    | buy => exact ⟨h, hs.bids p ⟨i, hm, hside⟩⟩
    | sell => exact ⟨hs.asks p ⟨i, hm, hside⟩, h⟩

/-- Everyone is served in full if each side has just the volume. -/
theorem Spanned.all_served_iff (hs : Spanned V b lo hi) (h : Gathered V arrived n b) (h1 : lo ≤ a) (h2 : a ≤ hi)
    (hc : Crossed V arrived b a (b.sideFills V .buy lo hi a ++ b.sideFills V .sell lo hi a) b') :
    (∀ p, b'.core.queue V p = []) ↔ ∀ s, b.sideQty V s (fun _ => true) = b.volume V a := by
  have hmem : ∀ {s} {x : Nat × Int}, x ∈ b.sideFills V s lo hi a → x ∈ b.sideFills V .buy lo hi a ++ b.sideFills V .sell lo hi a := by
    intro s x hx
    cases s with
    | buy => exact mem_append_left _ hx
    | sell => exact mem_append_right _ hx
  have hline : ∀ s, (b.lineUp V s (Book.auctionPrices s lo hi a)).Nodup := by
    intro s
    refine (h.lineUp_sorted s lo hi a).imp ?_
    intro i j hij
    rintro rfl
    exact goesBefore_asymm _ _ _ _ _ hij hij
  have hfull := fun s => allot_full_iff (hline s) h.wf.lineUp_pos (h.volume_nonneg a)
  constructor
  · intro hempty s
    obtain ⟨hlow, hhigh⟩ := h.wanted_bounds s a
    -- Nobody of the side is left, so that each was served, and in full.
    have hserved : ∀ p, ∀ i ∈ b.core.queue V p, (b.core.body i).side = s → (i, b.left i) ∈ b.sideFills V s lo hi a := by
      intro p i hm hside
      have hgone : ¬ taken (b.sideFills V .buy lo hi a ++ b.sideFills V .sell lo hi a) i < (b.order i).remainingQty := by
        intro hlt
        have hmem : i ∈ b'.core.queue V p := by
          rw [hc.queue]
          exact mem_filter.mpr ⟨hm, decide_eq_true hlt⟩
        rw [hempty p] at hmem
        cases hmem
      have hpos : 0 < (b.order i).remainingQty := h.wf.remaining_pos hm
      have hex : ∃ q, (i, q) ∈ b.sideFills V .buy lo hi a ++ b.sideFills V .sell lo hi a := by
        by_contra hn
        rw [taken_eq_zero fun q hq => hn ⟨q, hq⟩] at hgone
        omega
      obtain ⟨q, hq⟩ := hex
      obtain ⟨-, -, -, hle, -⟩ := hc.within _ hq
      rw [taken_of_mem hc.once hq] at hgone
      have hqe : q = b.left i := by
        show q = (b.order i).remainingQty
        dsimp only at hle
        omega
      rw [← hqe]
      rcases mem_append.mp hq with hq' | hq' <;>
        obtain ⟨-, -, -, hs'⟩ := mem_lineUp (mem_allot h.wf.lineUp_pos hq').1 <;> rw [← hside, hs'] <;> exact hq'
    have hall : b.wanted V s a = b.sideQty V s fun _ => true := by
      refine (h.wanted_all_iff s a).mpr ?_
      rintro p ⟨i, hm, hside⟩
      exact (hs.lineUp_iff hm hside h.wf).mp (mem_allot h.wf.lineUp_pos (hserved p i hm hside)).1
    have hsum := (hfull s).mp fun i hm => by
      obtain ⟨p, -, hq, hside⟩ := mem_lineUp hm
      exact hserved p i hq hside
    rw [hs.lineUp_sum h h1 h2] at hsum
    omega
  · intro htotal p
    rw [hc.queue]
    refine filter_eq_nil_iff.mpr fun i hm hlt => ?_
    have hlt := of_decide_eq_true hlt
    obtain ⟨hlow, hhigh⟩ := h.wanted_bounds (b.core.body i).side a
    have hall := (h.wanted_all_iff (b.core.body i).side a).mp (by have := htotal (b.core.body i).side; omega)
    have hin := (hs.lineUp_iff hm rfl h.wf).mpr (hall p ⟨i, hm, rfl⟩)
    have hsum := (hfull (b.core.body i).side).mpr (by
      rw [hs.lineUp_sum h h1 h2]
      have := htotal (b.core.body i).side
      omega)
    have htaken := taken_of_mem hc.once (hmem (hsum i hin))
    rw [htaken] at hlt
    exact absurd hlt (Int.lt_irrefl _)

/-- At the clearing price each side has just the volume if all BUY orders meet all SELL orders, and the sides are equal. -/
theorem Clears.even_iff (hc : Clears V b a) (h : Gathered V arrived n b) (hx : ∃ q, b.core.Rests V .sell q) :
    (∀ s, b.sideQty V s (fun _ => true) = b.volume V a) ↔ b.Even V := by
  constructor
  · intro htotal
    have hall : ∀ s p, b.core.Rests V s p → s.accepts p a := fun s => (h.wanted_all_iff s a).mp (by
      have := h.wanted_bounds s a
      have := htotal s
      omega)
    refine ⟨fun p q hp hq => ?_, (htotal .buy).trans (htotal .sell).symm⟩
    have h1 : a ≤ p := hall .buy p hp
    have h2 : q ≤ a := hall .sell q hq
    omega
  · rintro ⟨hmeet, heq⟩
    have hgrid : ∀ {s q}, b.core.Rests V s q → inRange V q := by
      rintro s q ⟨i, hi, -⟩
      exact h.wf.links.grid q i hi
    obtain ⟨q, hq, hmax⟩ := Int.exists_greatest_of_bdd ⟨V.LEVELS, fun z hz => Int.le_of_lt (hgrid hz).2⟩ hx
    -- At the highest SELL price everything can trade.
    have hd : b.demand V q = b.sideQty V .buy fun _ => true := (h.wanted_all_iff .buy q).mpr fun p hp => hmeet p q hp hq
    have hsup : b.supply V q = b.sideQty V .sell fun _ => true := (h.wanted_all_iff .sell q).mpr fun p hp => hmax p hp
    have hmost := hc.most q (hgrid hq)
    have hvol : b.volume V q = b.sideQty V .buy fun _ => true := by
      unfold Book.volume
      rw [hd, hsup, heq, min_self]
    have hbuy := h.wanted_bounds .buy a
    intro s
    cases s with
    | buy => omega
    | sell => omega

/-- The caches of a gathered book are right if each is the price of an order of its own side. -/
theorem Gathered.bestAt_iff (h : Gathered V arrived n b) : (∀ s, b.core.BestAt V s) ↔ b.CachesOwn V := by
  constructor
  · intro hb s
    rcases hb s with ⟨e, -⟩ | ⟨hr, -⟩
    · exact .inl e
    · exact .inr hr
  · intro hb s
    rcases hb s with e | hr
    · refine .inl ⟨e, fun p hp => ?_⟩
      have hahead := h.ahead s p hp
      obtain ⟨i, hi, -⟩ := hp
      have hlt := s.rank_noBest (h.wf.links.grid p i hi)
      rw [e] at hahead
      omega
    · exact .inr ⟨hr, h.ahead s⟩

theorem Gathered.consistent_iff (h : Gathered V arrived n b) (hu : b.core.Uncrossed V) : b.Consistent V ↔ b.CachesOwn V := by
  rw [← h.bestAt_iff]
  refine ⟨fun hc => hc.best, fun hb => ⟨hb, ?_⟩⟩
  rintro ⟨p, hp⟩ ⟨q, hq⟩
  have hbuy : b.core.Rests V .buy b.core.bestBid := by
    rcases hb .buy with ⟨-, hn⟩ | ⟨hr, -⟩
    · exact absurd hp (hn p)
    · exact hr
  have hsell : b.core.Rests V .sell b.core.bestAsk := by
    rcases hb .sell with ⟨-, hn⟩ | ⟨hr, -⟩
    · exact absurd hq (hn q)
    · exact hr
  exact hu _ _ hbuy hsell

end

/-- Orders are collected, the auction mode is left and the auction is run. The book is consistent afterwards just if: the sides crossed,
every BUY order met every SELL order and there was as much of the one as of the other; or they did not cross and the cached prices
were those of orders of their own sides. -/
theorem auction_consistent_iff {V : Env} {arrived : Nat → Nat} {n : Nat} {b : Book} (h : Gathers V arrived n b) :
    ∃ res b', (∀ m, (b.setAuction false).runAuction V (m + 1) = some (res, b')) ∧
      (b'.Consistent V ↔ if b.crossed V then b.Even V else b.CachesOwn V) := by
  have hg : Gathered V _ _ (b.setAuction false) := h.gathered.same rfl rfl rfl rfl
  have hcross : (∃ p, 0 < b.volume V p) ↔ b.crossed V = true := by
    rw [h.gathered.volume_pos_iff]
    have hu := h.gathered.wf.uncrossed_iff
    constructor
    · rintro ⟨p, q, hp, hq, hle⟩
      by_contra hn
      have := hu.mpr (by simpa using hn) p q hp hq
      omega
    · intro hc
      by_contra hn
      have hun : b.core.Uncrossed V := by
        intro p q hp hq
        by_contra hge
        exact hn ⟨p, q, hp, hq, by omega⟩
      rw [hu.mp hun] at hc
      cases hc
  rcases hg.runAuction h.fits with ⟨res, -, -, hvol, hrun⟩ | ⟨a, b₂, hc, hpos, hb, ha, hfilled, hrun⟩
  · have hno : ¬ b.crossed V = true := by
      rw [← hcross]
      rintro ⟨p, hp⟩
      have : b.volume V p = 0 := hvol p
      omega
    refine ⟨res, b.setAuction false, hrun, ?_⟩
    rw [if_neg hno]
    exact hg.consistent_iff (h.gathered.wf.uncrossed_iff.mpr (by simpa using hno))
  · have hs := hg.spanned hb ha
    have hin : min (b.setAuction false).core.bestBid (b.setAuction false).core.bestAsk ≤ a ∧
        a ≤ max (b.setAuction false).core.bestBid (b.setAuction false).core.bestAsk := by
      by_contra hn
      rw [hs.volume_outside hg hn] at hpos
      omega
    have hyes : b.crossed V = true := hcross.mp ⟨a, hpos⟩
    obtain ⟨-, q, -, hq, -⟩ := h.gathered.volume_pos_iff.mp ⟨a, hpos⟩
    refine ⟨_, _, hrun, ?_⟩
    rw [if_pos hyes, rescanned_consistent_iff hfilled.wf (hfilled.tells hg h.fits.1 ?_)]
    · exact (hs.all_served_iff hg hin.1 hin.2 (hs.crossed hg hin.1 hin.2 hfilled)).trans (hc.even_iff hg ⟨q, hq⟩)
    · intro x hx
      rcases List.mem_append.mp hx with hx | hx <;> exact (mem_allot hg.wf.lineUp_pos hx).2.1

/-- One BUY order against one SELL order of the same size. -/
def sampleEven : List Op :=
  [.setAuctionMode true,
   .submit { side := .buy, priceTicks := 5, qty := 3 },
   .submit { side := .sell, priceTicks := 4, qty := 3 }]

/-- The sides meet evenly, read off the list of resting orders. -/
theorem Wf.even_of_slots {V : Env} {b : Book} (h : Wf V b)
    (hm : ∀ i ∈ b.core.restingSlots V, ∀ j ∈ b.core.restingSlots V, (b.order i).side = .buy → (b.order j).side = .sell →
      (b.order j).priceTicks ≤ (b.order i).priceTicks)
    (he : b.sideQty V .buy (fun _ => true) = b.sideQty V .sell (fun _ => true)) : b.Even V := by
  refine ⟨?_, he⟩
  rintro p q ⟨i, hi, hsi⟩ ⟨j, hj, hsj⟩
  have hp : (b.order i).priceTicks = p := h.price hi
  have hq : (b.order j).priceTicks = q := h.price hj
  have := hm i (h.mem_restingSlots.mpr ⟨p, hi⟩) j (h.mem_restingSlots.mpr ⟨q, hj⟩) hsi hsj
  omega

theorem auction_consistent_iff_sample : ∃ b b', Book.gather smallEnv 20 sampleEven = some b ∧ b.Even smallEnv ∧
    (∃ res, (b.setAuction false).runAuction smallEnv 1 = some (res, b')) ∧ b'.Consistent smallEnv := by
  obtain ⟨b, hb⟩ : ∃ b, Book.gather smallEnv 20 sampleEven = some b := Option.isSome_iff_exists.mp (by decide +kernel)
  obtain ⟨arrived, n, hg⟩ := Gathers.ofRun hb
  have hval : (Book.gather smallEnv 20 sampleEven).all (fun b => b.crossed smallEnv ∧
      (∀ i ∈ b.core.restingSlots smallEnv, ∀ j ∈ b.core.restingSlots smallEnv, (b.order i).side = .buy →
        (b.order j).side = .sell → (b.order j).priceTicks ≤ (b.order i).priceTicks) ∧
      b.sideQty smallEnv .buy (fun _ => true) = b.sideQty smallEnv .sell (fun _ => true)) = true := by decide +kernel
  rw [hb, Option.all_some, decide_eq_true_eq] at hval
  obtain ⟨hc, hm, he⟩ := hval
  have heven := hg.gathered.wf.even_of_slots hm he
  obtain ⟨res, b', hrun, hiff⟩ := auction_consistent_iff hg
  rw [if_pos hc] at hiff
  exact ⟨b, b', hb, heven, ⟨res, hrun 0⟩, hiff.mpr heven⟩

/-- A BUY order at 5 and SELL orders at 4 and 6. -/
def sampleLeft : List Op :=
  [.setAuctionMode true,
   .submit { side := .buy, priceTicks := 5, qty := 3 },
   .submit { side := .sell, priceTicks := 4, qty := 3 },
   .submit { side := .sell, priceTicks := 6, qty := 3 }]

/-- The order at 6 is the only one left, and a SELL order; it is taken for the best bid as well. -/
theorem auction_leaves_wrong_bid : ∃ b arrived n res b', Gathers smallEnv arrived n b ∧
    (b.setAuction false).runAuction smallEnv 1 = some (res, b') ∧ b'.core.bestBid = 6 ∧ b'.core.bestAsk = 6 ∧
    ¬ b'.Consistent smallEnv := by
  obtain ⟨b, hb⟩ : ∃ b, Book.gather smallEnv 20 sampleLeft = some b := Option.isSome_iff_exists.mp (by decide +kernel)
  obtain ⟨arrived, n, hg⟩ := Gathers.ofRun hb
  obtain ⟨⟨res, b'⟩, hrun⟩ : ∃ x, (b.setAuction false).runAuction smallEnv 1 = some x := by
    have hsome : ((Book.gather smallEnv 20 sampleLeft).bind fun b => (b.setAuction false).runAuction smallEnv 1).isSome := by
      decide +kernel
    rw [hb, Option.bind_some] at hsome
    exact Option.isSome_iff_exists.mp hsome
  have hval : ((Book.gather smallEnv 20 sampleLeft).bind fun b => (b.setAuction false).runAuction smallEnv 1).all (fun x =>
      x.2.core.bestBid = 6 ∧ x.2.core.bestAsk = 6 ∧ ∀ i ∈ x.2.core.queue smallEnv 6, (x.2.core.body i).side ≠ .buy) = true := by
    decide +kernel
  rw [hb, Option.bind_some, hrun, Option.all_some, decide_eq_true_eq] at hval
  obtain ⟨hbid, hask, hnone⟩ := hval
  refine ⟨b, arrived, n, res, b', hg, hrun, hbid, hask, fun hc => ?_⟩
  have hbest : b'.core.best .buy = 6 := hbid
  rcases hc.best .buy with ⟨e, -⟩ | ⟨⟨i, hi, hside⟩, -⟩
  · rw [hbest] at e
    cases e
  · rw [hbest] at hi
    exact hnone i hi hside

end HftLab.OrderBook
