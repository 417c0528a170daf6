/-
  HftLab.OrderBook.Blanks — trades are well formed as long as no taker gets to an order that shows nothing.

  `match_at_level` executes what a maker displays. A HIDDEN order displays nothing, nor does an iceberg that was reduced in
  place by all it displayed: a taker that gets to such an order, on either side, trades a quantity of 0 with it. Neither the
  best prices nor the sums of the levels tell of these orders, so a book may hold any number of them and be right about all
  others: `Fronts`. `reachesBlank` says whether an order will get to one, from what is displayed before it.
-/

import HftLab.OrderBook.FillEvents
import HftLab.OrderBook.Simulation

namespace HftLab.OrderBook

open Lib Function List

/-! ## The orders that show themselves -/

/-- Each order shows all it should or nothing, and the cached best prices are right about those that show something: each
    is as good as these on its own side, and none of the other side's is as good as it. -/
structure Fronts (V : Env) (b : Book) : Prop where
  shown : ∀ p, ∀ i ∈ b.core.queue V p, (b.core.body i).Visible ∨ (b.core.body i).displayedQty = 0
  summed : b.Summed V
  grid : b.core.OnGrid V
  near : ∀ s p, b.core.Shows V s p → s.rank (b.core.best s) ≤ s.rank p
  apart : ∀ s p, b.core.Shows V s p → s.other.rank p < s.other.rank (b.core.best s.other)

section

variable {V : Env} {b b' b₀ : Book} {p q limit x : Int} {t ts i n : Nat} {s : Side} {r : Request} {c d : Core} {l B : List Nat}

theorem Core.Shows.grid {c : Core} {X : List Nat} (h : c.Shows V s p) (hl : Links V c X) : inRange V p := by
  obtain ⟨i, hi, -⟩ := h
  exact hl.grid p i hi

/-- The sum of a level whose orders can be summed is positive if one of them shows something. -/
theorem Fronts.tells (h : Fronts V b) (hw : Wf V b) (hf : b.SumsFit V) (hs : b.core.Shows V s p) : 0 < (b.core.levels p).totalQty := by
  obtain ⟨hp0, hp1⟩ := hs.grid hw.links
  obtain ⟨i, hi, -, hpos⟩ := hs
  have hmax := hf p.toNat (mem_range.mpr (by omega))
  rw [Int.toNat_of_nonneg hp0] at hmax
  have hle : (b.core.body i).displayedQty ≤ shownSum b.core.body (b.core.queue V p) := by
    refine single_le_sum (fun x hx => ?_) _ (mem_map.mpr ⟨i, hi, rfl⟩)
    obtain ⟨j, hj, rfl⟩ := mem_map.mp hx
    exact (hw.resting hj).shown
  have hsum : (b.core.levels p).totalQty = i32 (shownSum b.core.body (b.core.queue V p)) := congrArg Tally.qty (h.summed p)
  rw [hsum, i32_eq ⟨by unfold int32Min; omega, hmax⟩]
  omega

/-- Less is shown and the best prices stay. -/
theorem Fronts.fewer (h : Fronts V b) (hsh : ∀ p, ∀ i ∈ b'.core.queue V p, (b'.core.body i).Visible ∨ (b'.core.body i).displayedQty = 0)
    (hsum : b'.Summed V) (hb : b'.core.best = b.core.best) (hs : ∀ s p, b'.core.Shows V s p → b.core.Shows V s p) : Fronts V b' where
  shown := hsh
  summed := hsum
  grid s := by
    rw [hb]
    exact h.grid s
  near s p hp := by
    rw [hb]
    exact h.near s p (hs s p hp)
  apart s p hp := by
    rw [hb]
    exact h.apart s p (hs s p hp)

theorem Unmoved.shows (h : Unmoved V b b') : b'.core.Shows V s p ↔ b.core.Shows V s p := by
  unfold Core.Shows
  rw [h.queue]
  exact exists_congr fun i => and_congr_right fun hi => by rw [h.body p i hi]

theorem Unmoved.fronts (h : Unmoved V b b') (hf : Fronts V b) (hsum : b'.Summed V) : Fronts V b' := by
  refine hf.fewer (fun p i hi => ?_) hsum h.best fun s p => h.shows.mp
  rw [h.queue] at hi
  rw [h.body p i hi]
  exact hf.shown p i hi

/-- The best level of side `s`, at `p`, was emptied and the cache moved on to the first level beyond that shows quantity. -/
theorem Fronts.moved (h : Fronts V b) (hp : b.core.best s = p) (hr : inRange V p) (hq : b'.core.queue V = b.core.queue V)
    (hbody : b'.core.body = b.core.body) (hsum : b'.Summed V) (ho : b'.core.best s.other = b.core.best s.other)
    (hs : FirstShowing V b.core.levels s (s.worse p) (b'.core.best s)) (hnil : b.core.queue V p = [])
    (hgrid : ∀ r, b.core.Shows V s r → inRange V r) (ht : ∀ r, r ≠ p → b.core.Shows V s r → 0 < (b.core.levels r).totalQty) :
    Fronts V b' := by
  have hsh : ∀ u r, b'.core.Shows V u r ↔ b.core.Shows V u r := by
    intro u r
    unfold Core.Shows
    rw [hq, hbody]
  have hbeyond : s.rank p < s.rank (b'.core.best s) := by
    have hw := Side.rank_worse s p
    rcases hs with ⟨hx, -⟩ | ⟨-, hx, -⟩
    · rw [hx]
      exact Side.rank_lt_noBest hr s
    · omega
  refine ⟨fun r i hi => ?_, hsum, fun u => ?_, fun u r hu => ?_, fun u r hu => ?_⟩
  · rw [hq] at hi
    rw [hbody]
    exact h.shown r i hi
  · by_cases e : u = s
    · subst e
      rcases hs with ⟨hx, -⟩ | ⟨hx, -⟩
      · exact .inl hx
      · exact .inr hx
    · rw [Side.eq_other_of_ne e, ho]
      exact h.grid s.other
  · rw [hsh] at hu
    by_cases e : u = s
    · subst e
      have hne : r ≠ p := by
        rintro rfl
        obtain ⟨i, hi, -⟩ := hu
        rw [hnil] at hi
        cases hi
      have hle := h.near u r hu
      rw [hp] at hle
      have hlt : u.rank p < u.rank r := lt_of_le_of_ne hle fun e => hne (Side.rank_inj e).symm
      have hstart : u.rank (u.worse p) ≤ u.rank r := by
        rw [Side.rank_worse]
        omega
      have hpos := ht r hne hu
      rcases hs with ⟨-, hnone⟩ | ⟨-, -, -, hfirst⟩
      · exact absurd hpos (hnone r (hgrid r hu) hstart)
      · exact not_lt.mp fun hlt => hfirst r (hgrid r hu) hstart hlt hpos
    · rw [Side.eq_other_of_ne e] at hu ⊢
      rw [ho]
      exact h.near s.other r hu
  · rw [hsh] at hu
    by_cases e : u = s
    · subst e
      rw [ho]
      exact h.apart u r hu
    · rw [Side.eq_other_of_ne e] at hu ⊢
      have hlt := h.apart s.other r hu
      rw [Side.other_other, hp] at hlt
      rw [Side.other_other]
      exact hlt.trans hbeyond

/-! ## What keeps the best prices right -/

/-- An order is cancelled. -/
theorem Fronts.cancel (h : Fronts V b) (hw : Wf V b) (hf : b.SumsFit V) (hi : i ∈ b.core.queue V p) (e : Bool) :
    Fronts V (b.cancelInternal V i e) := by
  have hv := hw.cancelInternal_view hi e
  have haside := cancel_aside hw hi e
  obtain ⟨hw', hsum⟩ := cancelInternal_summed hw h.summed hi e
  have hne : ∀ {r j}, j ∈ (b.cancelInternal V i e).core.queue V r → j ≠ i := by
    intro r j hj hji
    exact hw.not_queued_of_erase hi (queue_of_view hv) ⟨r, hji ▸ hj⟩
  have hbody : ∀ {r j}, j ∈ (b.cancelInternal V i e).core.queue V r → (b.cancelInternal V i e).core.body j = b.core.body j := by
    intro r j hj
    rw [body_of_view hv]
    exact update_of_ne (hne hj) _ _
  have hshown : ∀ r, ∀ j ∈ (b.cancelInternal V i e).core.queue V r, ((b.cancelInternal V i e).core.body j).Visible ∨
      ((b.cancelInternal V i e).core.body j).displayedQty = 0 := by
    intro r j hj
    rw [hbody hj]
    exact h.shown r j (haside.sub r j hj)
  have hsub : ∀ u r, (b.cancelInternal V i e).core.Shows V u r → b.core.Shows V u r := by
    intro u r hu
    obtain ⟨j, hj, hjs, hjd⟩ := hu
    rw [hbody hj] at hjs hjd
    exact ⟨j, haside.sub r j hj, hjs, hjd⟩
  obtain ⟨hother, hbest⟩ := cancel_best hw hi rfl e
  by_cases hc : (b.cancelInternal V i e).core.queue V p = [] ∧ p = b.core.best (b.core.body i).side
  · -- the cache moves on from the book in which the level was emptied and nothing else done
    rw [if_pos hc] at hbest
    have hr := hw.links.grid p i hi
    let c : Core := { (b.cancelInternal V i e).core with bestBid := b.core.bestBid, bestAsk := b.core.bestAsk }
    have hc' : Fronts V { b.cancelInternal V i e with core := c } :=
      h.fewer hshown hsum (by funext u; cases u <;> rfl) hsub
    refine hc'.moved (s := (b.core.body i).side) ?_ hr rfl rfl hsum ?_ ?_ hc.1 (fun r hu => (hsub _ _ hu).grid hw.links) ?_
    · exact Eq.trans (by cases (b.core.body i).side <;> rfl) hc.2.symm
    · exact hother.trans (by cases (b.core.body i).side <;> rfl)
    · rw [hbest]
      exact refreshBest_spec V _ _ _ (worse_start _ hr)
    · intro r hne hu
      rw [haside.levels r hne]
      exact h.tells hw hf (hsub _ _ hu)
  · rw [if_neg hc] at hbest
    refine h.fewer hshown hsum ?_ hsub
    funext u
    by_cases eu : u = (b.core.body i).side
    · rw [eu, hbest]
    · rw [Side.eq_other_of_ne eu, hother]

/-- An order is reduced in place, perhaps by all it showed. -/
theorem Fronts.reduce (h : Fronts V b) (hw : Wf V b) {k : Nat} (hk : b.core.find k = some i) (hi : i ∈ b.core.queue V p)
    {newQty : Int} (hlt : newQty < (b.core.body i).totalQty) (hq : (b.core.body i).filledQty < newQty) :
    Fronts V (b.reduceInPlace k i newQty) := by
  have hv := hw.reduceInPlace_view (i := i) k newQty
  have hact : Act V .reduce b (b.reduceInPlace k i newQty) := .reduce p k i newQty hi hk hlt hq
  have hd : ((b.core.body i).reduced newQty).displayedQty =
    (b.core.body i).displayedQty - min ((b.core.body i).totalQty - newQty) (b.core.body i).displayedQty := rfl
  refine h.fewer (fun r j hj => ?_) (hact.summed trivial hw h.summed) (by funext u; cases u <;> rfl) fun u r hu => ?_
  · rw [queue_of_view hv] at hj
    rw [body_of_view hv]
    show (update b.core.body i _ j).Visible ∨ (update b.core.body i _ j).displayedQty = 0
    by_cases e : j = i
    · subst e
      rw [update_self]
      rcases h.shown r j hj with hvis | h0
      · by_cases hle : (b.core.body j).displayedQty ≤ (b.core.body j).totalQty - newQty
        · exact .inr (by omega)
        · refine .inl ⟨by omega, fun hty => ?_⟩
          have := hvis.whole hty
          show newQty - (b.core.body j).filledQty ≤ _
          omega
      · exact .inr (by omega)
    · rw [update_of_ne e]
      exact h.shown r j hj
  · obtain ⟨j, hj, hjs, hjd⟩ := hu
    rw [queue_of_view hv] at hj
    rw [body_of_view hv] at hjs hjd
    refine ⟨j, hj, ?_⟩
    change (update b.core.body i _ j).side = u at hjs
    change 0 < (update b.core.body i _ j).displayedQty at hjd
    by_cases e : j = i
    · subst e
      rw [update_self] at hjs hjd
      exact ⟨hjs, by omega⟩
    · rw [update_of_ne e] at hjs hjd
      exact ⟨hjs, hjd⟩

/-- What is left of an order comes to rest, where it is not hidden beyond the other side's best price. -/
theorem Fronts.rest (h : Fronts V b) (hw : Wf V b) (hi : i ∈ b.inFlight) (hr : inRange V (b.core.body i).priceTicks)
    (hlt : (b.core.body i).filledQty < (b.core.body i).totalQty) (hsum : (b.restOrder i).Summed V)
    (hcom : (b.core.body i).type ≠ .hidden → (b.core.body i).Coming ∧ (b.core.body i).side.other.rank (b.core.body i).priceTicks <
      (b.core.body i).side.other.rank (b.core.best (b.core.body i).side.other))
    (hhid : (b.core.body i).type = .hidden → (b.core.body i).displayedQty = 0) : Fronts V (b.restOrder i) := by
  have hv := hw.restOrder_view hi hr
  have hfilled := ((hw.placed i).flying hi).filled
  have hmem : ∀ {r j}, j ∈ (b.restOrder i).core.queue V r → j ≠ i → j ∈ b.core.queue V r := by
    intro r j hj e
    rw [queue_of_view hv] at hj
    exact (mem_update_push e).mp hj
  have hbody : ∀ j, j ≠ i → (b.restOrder i).core.body j = b.core.body j := by
    intro j e
    rw [body_of_view hv]
    exact update_of_ne e _ _
  have hself : (b.restOrder i).core.body i = (b.core.body i).atRest := by
    rw [body_of_view hv]
    exact update_self ..
  by_cases hty : (b.core.body i).type = .hidden
  · have h0 : (b.core.body i).atRest.displayedQty = 0 := by
      have hleft : 0 < (b.core.body i).remainingQty := by
        show 0 < (b.core.body i).totalQty - (b.core.body i).filledQty
        omega
      have := hhid hty
      unfold Order.atRest
      split
      · show min _ _ = (0 : Int)
        omega
      · exact this
    refine h.fewer (fun r j hj => ?_) hsum ?_ fun u r hu => ?_
    · by_cases e : j = i
      · rw [e, hself]
        exact .inr h0
      · rw [hbody j e]
        exact h.shown r j (hmem hj e)
    · have h1 : (b.order i).atRest.type = .hidden := by
        unfold Order.atRest
        split
        · exact hty
        · exact hty
      unfold Book.restOrder
      rw [if_pos h1]
      funext u
      cases u <;> rfl
    · obtain ⟨j, hj, hjs, hjd⟩ := hu
      by_cases e : j = i
      · rw [e, hself] at hjd
        omega
      · rw [hbody j e] at hjs hjd
        exact ⟨j, hmem hj e, hjs, hjd⟩
  · obtain ⟨hc, hlim⟩ := hcom hty
    obtain ⟨ho, hs⟩ := rest_best (s := (b.core.body i).side) hty rfl
    have hvis := hc.atRest hfilled hlt
    have hside : (b.core.body i).atRest.side = (b.core.body i).side := by
      unfold Order.atRest
      split <;> rfl
    have hsh : ∀ {u r}, (b.restOrder i).core.Shows V u r →
        b.core.Shows V u r ∨ r = (b.core.body i).priceTicks ∧ u = (b.core.body i).side := by
      intro u r hu
      obtain ⟨j, hj, hjs, hjd⟩ := hu
      by_cases e : j = i
      · subst e
        rw [hself, hside] at hjs
        rw [queue_of_view hv] at hj
        refine .inr ⟨?_, hjs.symm⟩
        by_contra hne
        change j ∈ update (b.core.queue V) (b.core.body j).atRest.priceTicks _ r at hj
        rw [Order.atRest_price, update_of_ne hne] at hj
        exact hw.flying_ne_queued hj hi rfl
      · rw [hbody j e] at hjs hjd
        exact .inl ⟨j, hmem hj e, hjs, hjd⟩
    refine ⟨fun r j hj => ?_, hsum, fun u => ?_, fun u r hu => ?_, fun u r hu => ?_⟩
    · by_cases e : j = i
      · rw [e, hself]
        exact .inl hvis
      · rw [hbody j e]
        exact h.shown r j (hmem hj e)
    · by_cases e : u = (b.core.body i).side
      · subst e
        rw [hs]
        split
        · exact .inr hr
        · exact h.grid _
      · rw [Side.eq_other_of_ne e, ho]
        exact h.grid _
    · by_cases e : u = (b.core.body i).side
      · subst e
        rw [hs]
        rcases hsh hu with hold | ⟨rfl, -⟩
        · have hnear := h.near _ r hold
          split
          · rename_i hraise
            rcases hraise with hno | hraise
            · rw [hno] at hnear
              exact absurd (Side.rank_lt_noBest (hold.grid hw.links) _) (not_lt.mpr hnear)
            · exact hraise.le.trans hnear
          · exact hnear
        · split
          · exact le_rfl
          · rename_i hraise
            exact not_lt.mp fun hlt => hraise (.inr hlt)
      · rw [Side.eq_other_of_ne e] at hu ⊢
        rw [ho]
        rcases hsh hu with hold | ⟨-, hse⟩
        · exact h.near _ r hold
        · exact absurd hse (Side.other_ne _)
    · by_cases e : u = (b.core.body i).side
      · subst e
        rw [ho]
        rcases hsh hu with hold | ⟨rfl, -⟩
        · exact h.apart _ r hold
        · exact hlim
      · rw [Side.eq_other_of_ne e] at hu ⊢
        rw [Side.other_other]
        rcases hsh hu with hold | ⟨-, hse⟩
        · have hapart := h.apart _ r hold
          rw [Side.other_other] at hapart
          rw [hs]
          split
          · have hbeyond := hlim.trans_le (h.near _ r hold)
            rw [Side.rank_other, Side.rank_other] at hbeyond
            exact Int.neg_lt_neg_iff.mp hbeyond
          · exact hapart
        · exact absurd hse (Side.other_ne _)

/-! ## Which orders a taker gets to -/

/-- A taker with `q` left gets to an order of the list that shows nothing. -/
def Core.blankWithin (c : Core) : List Nat → Int → Bool
  | [], _ => false
  | i :: l, q => decide (0 < q) &&
      (decide ((c.body i).displayedQty = 0) || c.blankWithin l (q - (c.body i).displayedQty))

/-- What the orders of side `s` at `p` that show something have left, shown or in reserve. -/
def Core.worth (V : Env) (c : Core) (s : Side) (p : Int) : Int :=
  ((c.queue V p).map fun i => if (c.body i).side = s ∧ 0 < (c.body i).displayedQty then
    (c.body i).totalQty - (c.body i).filledQty else 0).sum

/-- The same at all prices better than `p`. -/
def Core.before (V : Env) (c : Core) (s : Side) (p : Int) : Int :=
  (((ladder V s).filter fun r => s.rank r < s.rank p).map (c.worth V s)).sum

/-- An order for `q` with the limit `limit` gets to a level of side `s` where an order shows nothing, and to that order. -/
def Core.reachesBlank (V : Env) (c : Core) (s : Side) (limit q : Int) : Bool :=
  (ladder V s).any fun p =>
    decide (s.rank (c.best s) ≤ s.rank p ∧ s.rank p ≤ s.rank limit ∧ (p = c.best s ∨ 0 < (c.levels p).totalQty)) &&
      c.blankWithin (c.queue V p) (q - c.before V s p)

theorem blankWithin_done (h : q ≤ 0) (l : List Nat) : c.blankWithin l q = false := by
  cases l with
  | nil => rfl
  | cons i l =>
    unfold Core.blankWithin
    rw [decide_eq_false (not_lt.mpr h)]
    rfl

theorem blankWithin_congr (h : ∀ i ∈ l, d.body i = c.body i) (q : Int) : d.blankWithin l q = c.blankWithin l q := by
  induction l generalizing q with
  | nil => rfl
  | cons i l ih =>
    unfold Core.blankWithin
    rw [h i mem_cons_self, ih fun j hj => h j (mem_cons_of_mem i hj)]

/-- The head of the list shows something, and the rest is as clear for what is left then. -/
theorem blankWithin_head (h : c.blankWithin (i :: l) q = false) (hq : 0 < q) :
    (c.body i).displayedQty ≠ 0 ∧ c.blankWithin l (q - (c.body i).displayedQty) = false := by
  unfold Core.blankWithin at h
  rw [decide_eq_true hq, Bool.true_and, Bool.or_eq_false_iff] at h
  exact ⟨of_decide_eq_false h.1, h.2⟩

/-- An order that shows something joins the list. -/
theorem blankWithin_push (hi : (c.body i).displayedQty ≠ 0) (h : c.blankWithin l q = false) : c.blankWithin (l ++ [i]) q = false := by
  induction l generalizing q with
  | nil =>
    show (decide (0 < q) && (decide ((c.body i).displayedQty = 0) || false)) = false
    rw [decide_eq_false hi, Bool.or_false, Bool.and_false]
  | cons j l ih =>
    rw [cons_append]
    by_cases hq : 0 < q
    · obtain ⟨hj, hl⟩ := blankWithin_head h hq
      unfold Core.blankWithin
      rw [decide_eq_false hj, ih hl, Bool.or_false, Bool.and_false]
    · exact blankWithin_done (not_lt.mp hq) _

theorem worth_nonneg (hw : Wf V b) (s : Side) (p : Int) : 0 ≤ b.core.worth V s p := by
  refine sum_nonneg fun x hx => ?_
  obtain ⟨i, hi, rfl⟩ := mem_map.mp hx
  have := (hw.resting hi).left
  split
  · omega
  · exact le_rfl

theorem before_nonneg (hw : Wf V b) (s : Side) (p : Int) : 0 ≤ b.core.before V s p := by
  refine sum_nonneg fun x hx => ?_
  obtain ⟨r, -, rfl⟩ := mem_map.mp hx
  exact worth_nonneg hw s r

/-- No order that shows something is worth nothing. -/
theorem worth_eq_zero (h : ¬ c.Shows V s p) : c.worth V s p = 0 := by
  refine sum_eq_zero fun x hx => ?_
  obtain ⟨i, hi, rfl⟩ := mem_map.mp hx
  exact if_neg fun hc => h ⟨i, hi, hc⟩

/-- Before the best price there is nothing. -/
theorem Fronts.before_best (h : Fronts V b) (s : Side) : b.core.before V s (b.core.best s) = 0 := by
  refine sum_eq_zero fun x hx => ?_
  obtain ⟨r, hr, rfl⟩ := mem_map.mp hx
  have hlt : s.rank r < s.rank (b.core.best s) := by simpa using (mem_filter.mp hr).2
  exact worth_eq_zero fun hs => absurd (h.near s r hs) (not_le.mpr hlt)

theorem worth_congr (hq : d.queue V p = c.queue V p) (h : ∀ i ∈ c.queue V p, d.body i = c.body i) :
    d.worth V s p = c.worth V s p := by
  unfold Core.worth
  rw [hq]
  exact congrArg List.sum (map_congr_left fun i hi => by rw [h i hi])

/-- One price of the list is worth `x` less, all others the same. -/
theorem sum_map_less {f g : Int → Int} {L : List Int} (hn : L.Nodup) (hp : p ∈ L) (hx : g p = f p - x)
    (h : ∀ r ∈ L, r ≠ p → g r = f r) : (L.map g).sum = (L.map f).sum - x := by
  induction L with
  | nil => cases hp
  | cons r L ih =>
    rw [nodup_cons] at hn
    rw [map_cons, map_cons, sum_cons, sum_cons]
    by_cases e : r = p
    · subst e
      have hrest : L.map g = L.map f := by
        refine map_congr_left fun k hk => h k (mem_cons_of_mem r hk) ?_
        rintro rfl
        exact hn.1 hk
      rw [hx, hrest]
      omega
    · have hpL := (mem_cons.mp hp).resolve_left fun hc => e hc.symm
      rw [h r mem_cons_self e, ih hn.2 hpL fun k hk => h k (mem_cons_of_mem r hk)]
      omega

theorem ladder_nodup (V : Env) (s : Side) : (ladder V s).Nodup :=
  (ladder_sorted).imp fun h e => absurd (congrArg s.rank e) (ne_of_lt h)

theorem reachesBlank_eq_false : c.reachesBlank V s limit q = false ↔ ∀ p, inRange V p → s.rank (c.best s) ≤ s.rank p →
    s.rank p ≤ s.rank limit → (p = c.best s ∨ 0 < (c.levels p).totalQty) →
      c.blankWithin (c.queue V p) (q - c.before V s p) = false := by
  unfold Core.reachesBlank
  rw [any_eq_false]
  refine forall_congr' fun p => ?_
  rw [mem_ladder]
  refine imp_congr_right fun _ => ?_
  rw [Bool.and_eq_true, decide_eq_true_eq, not_and, Bool.not_eq_true]
  exact ⟨fun h h1 h2 h3 => h ⟨h1, h2, h3⟩, fun h h1 => h h1.1 h1.2.1 h1.2.2⟩

/-- What a taker gets to depends on the orders in the levels. -/
theorem blankAt_congr (hq : d.queue V = c.queue V) (h : ∀ p, ∀ i ∈ c.queue V p, d.body i = c.body i) (p q : Int) :
    d.blankWithin (d.queue V p) (q - d.before V s p) = c.blankWithin (c.queue V p) (q - c.before V s p) := by
  have hbefore : d.before V s p = c.before V s p := by
    exact congrArg List.sum (map_congr_left fun r _ => worth_congr (congrFun hq r) (h r))
  rw [hbefore, hq, blankWithin_congr (h p)]

theorem reachesBlank_congr (hq : d.queue V = c.queue V) (hl : d.levels = c.levels) (hb : d.best = c.best)
    (h : ∀ p, ∀ i ∈ c.queue V p, d.body i = c.body i) : d.reachesBlank V s limit q = c.reachesBlank V s limit q := by
  refine congrArg _ (funext fun p => ?_)
  rw [blankAt_congr hq h, hl, hb]

/-- The book while an order with the limit `limit` and `q` left meets side `s`. -/
structure Facing (V : Env) (s : Side) (limit q : Int) (b : Book) : Prop where
  fronts : Fronts V b
  stp : b.gates.stpPolicy = .none
  tells : ∀ r, r ≠ b.core.best s → b.core.Shows V s r → 0 < (b.core.levels r).totalQty
  clear : b.core.reachesBlank V s limit q = false

/-- The maker at the head of the best level shows something, and is of the other side. -/
theorem Facing.head (h : Facing V s limit q b) (hw : Wf V b) (hq : b.core.queue V p = i :: B) (hp : b.core.best s = p)
    (hlim : s.rank p ≤ s.rank limit) (hpos : 0 < q) :
    0 < (b.core.body i).displayedQty ∧ (b.core.body i).Visible ∧ (b.core.body i).side = s ∧
      b.core.blankWithin B (q - (b.core.body i).displayedQty) = false := by
  have hi : i ∈ b.core.queue V p := by
    rw [hq]
    exact mem_cons_self
  have hclear := reachesBlank_eq_false.mp h.clear p (hw.links.grid p i hi) (by rw [hp]) hlim (.inl hp.symm)
  have hbefore := h.fronts.before_best s
  rw [hp] at hbefore
  rw [hq, hbefore, Int.sub_zero] at hclear
  obtain ⟨hne, hB⟩ := blankWithin_head hclear hpos
  have hshow : 0 < (b.core.body i).displayedQty := lt_of_le_of_ne (hw.resting hi).shown hne.symm
  refine ⟨hshow, (h.fronts.shown p i hi).resolve_right hne, ?_, hB⟩
  by_contra hs
  have hapart := h.fronts.apart s.other p ⟨i, hi, Side.eq_other_of_ne hs, hshow⟩
  rw [Side.other_other, hp] at hapart
  exact lt_irrefl _ hapart

/-- What an execution of `x` leaves of the maker at the head of the queue, if the taker is not done with it: nothing in the
    level, or an iceberg behind the others. -/
theorem Executed.gone {o o' : Order} {l' : List Nat} (h : Executed o (i :: B) i x o' l') (ho : o.Visible)
    (hx : x = o.displayedQty) (hle : o.displayedQty ≤ o.totalQty - o.filledQty) :
    (l' = B ∧ o.totalQty - o.filledQty = x) ∨
      (l' = B ++ [i] ∧ 0 < o'.displayedQty ∧ o'.totalQty - o'.filledQty = o.totalQty - o.filledQty - x) := by
  cases h with
  | refresh shown _ hpos =>
    refine .inr ⟨by rw [erase_cons_head], hpos, ?_⟩
    show o.totalQty - (o.filledQty + x) = _
    omega
  | complete hdone => exact .inl ⟨erase_cons_head .., by omega⟩
  | partial_ hlt hty =>
    have := ho.whole (hty hx.symm)
    omega

/-- The head of the best level is executed. -/
theorem Facing.exec (h : Facing V s limit q b) (htk : Taking V b t q) (hq : b.core.queue V p = i :: B) (hp : b.core.best s = p)
    (hlim : s.rank p ≤ s.rank limit) (hpos : 0 < q) (ts : Nat) :
    Facing V s limit (q - min q (b.core.body i).displayedQty) (b.executed V p t ts i (min q (b.core.body i).displayedQty)) ∧
      (q - min q (b.core.body i).displayedQty ≤ 0 ∨ B = [] ∨
        B.head? = ((b.executed V p t ts i (min q (b.core.body i).displayedQty)).core.queue V p).head?) := by
  have hw := htk.wf
  have ht := htk.flying
  obtain ⟨hshow, hvis, hside, hB⟩ := h.head hw hq hp hlim hpos
  have hi : i ∈ b.core.queue V p := by
    rw [hq]
    exact mem_cons_self
  have hw' := (Act.exec p t ts i q ⟨hi, ht, hpos, htk.left, .inl h.stp⟩).wf hw
  have hrest := hw.resting hi
  have hleft : (b.core.body i).displayedQty ≤ (b.core.body i).totalQty - (b.core.body i).filledQty := by
    have := hrest.hidden
    unfold Order.hiddenQty at this
    omega
  generalize hx : min q (b.core.body i).displayedQty = x at hw' ⊢
  have hxle : x ≤ (b.core.body i).displayedQty := by omega
  have hne := hw.flying_ne_queued hi ht
  have hbest := executed_best (V := V) (b := b) (p := p) hne ts x
  have haside := executed_aside hw hi ht ts x
  have hprint : Prints b (b.executed V p t ts i x) [.fill (b.order i) (b.order t) x] := executed_prints
  obtain ⟨o, l, hcase, hQ, hbody⟩ := hw.executed_cases hi ht ts x
  have hself : (b.executed V p t ts i x).core.body i = o := by
    rw [hbody, update_self]
  have hothers : ∀ {r j}, j ∈ b.core.queue V r → j ≠ i → (b.executed V p t ts i x).core.body j = b.core.body j := by
    intro r j hj e
    rw [hbody, update_of_ne e, update_of_ne (hw.flying_ne_queued hj ht)]
  have hsub : ∀ u r, (b.executed V p t ts i x).core.Shows V u r → b.core.Shows V u r := by
    intro u r hu
    obtain ⟨j, hj, hjs, hjd⟩ := hu
    have hj' := haside.sub r j hj
    rw [haside.side] at hjs
    by_cases e : j = i
    · subst e
      exact ⟨j, hj', hjs, hshow⟩
    · rw [hothers hj' e] at hjd
      exact ⟨j, hj', hjs, hjd⟩
  have hfronts : Fronts V (b.executed V p t ts i x) := by
    refine h.fronts.fewer (fun r j hj => ?_) (h.fronts.summed.exec hw hi ht ts hxle) hbest hsub
    have hj' := haside.sub r j hj
    by_cases e : j = i
    · subst e
      obtain rfl := hw.links.unique hj' hi
      rw [hQ, update_self] at hj
      rw [hself]
      exact .inl (hcase.visible (hw.links.level r).nodup hj hvis hxle)
    · rw [hothers hj' e]
      exact h.fronts.shown r j hj'
  have htells : ∀ r, r ≠ (b.executed V p t ts i x).core.best s → (b.executed V p t ts i x).core.Shows V s r →
      0 < ((b.executed V p t ts i x).core.levels r).totalQty := by
    intro r hr hs
    rw [hbest, hp] at hr
    rw [haside.levels r hr]
    exact h.tells r (by rwa [hp]) (hsub s r hs)
  by_cases hdone : q - x ≤ 0
  · refine ⟨⟨hfronts, hprint.stpPolicy.trans h.stp, htells, reachesBlank_eq_false.mpr fun r _ _ _ _ => ?_⟩, .inl hdone⟩
    have := before_nonneg hw' s r
    exact blankWithin_done (by omega) _
  · have hxd : x = (b.core.body i).displayedQty := by omega
    rw [hq] at hcase
    have hgone := hcase.gone hvis hxd hleft
    have hQp : (b.executed V p t ts i x).core.queue V p = l := by
      rw [hQ, update_self]
    have hBne : ∀ j ∈ B, j ∈ b.core.queue V p ∧ j ≠ i := by
      intro j hj
      refine ⟨by rw [hq]; exact mem_cons_of_mem i hj, ?_⟩
      rintro rfl
      have hnodup := (hw.links.level p).nodup
      rw [hq] at hnodup
      exact (nodup_cons.mp hnodup).1 hj
    have hBody : ∀ j ∈ B, (b.executed V p t ts i x).core.body j = b.core.body j := fun j hj =>
      hothers (hBne j hj).1 (hBne j hj).2
    have hworth : (b.executed V p t ts i x).core.worth V s p = b.core.worth V s p - x := by
      have hold : b.core.worth V s p = ((b.core.body i).totalQty - (b.core.body i).filledQty) + (B.map fun j =>
          if (b.core.body j).side = s ∧ 0 < (b.core.body j).displayedQty then
            (b.core.body j).totalQty - (b.core.body j).filledQty else 0).sum := by
        unfold Core.worth
        rw [hq, map_cons, sum_cons, if_pos ⟨hside, hshow⟩]
      have hB' : (B.map fun j => if ((b.executed V p t ts i x).core.body j).side = s ∧
            0 < ((b.executed V p t ts i x).core.body j).displayedQty then
            ((b.executed V p t ts i x).core.body j).totalQty - ((b.executed V p t ts i x).core.body j).filledQty else 0) =
          B.map fun j => if (b.core.body j).side = s ∧ 0 < (b.core.body j).displayedQty then
            (b.core.body j).totalQty - (b.core.body j).filledQty else 0 :=
        map_congr_left fun j hj => by rw [hBody j hj]
      rw [hold]
      unfold Core.worth
      rw [hQp]
      rcases hgone with ⟨rfl, hall⟩ | ⟨rfl, hpos', hrem⟩
      · rw [hB']
        omega
      · rw [map_append, sum_append, hB', map_singleton, sum_singleton, haside.side, hself,
          if_pos ⟨hside, hpos'⟩, hrem]
        omega
    refine ⟨⟨hfronts, hprint.stpPolicy.trans h.stp, htells, reachesBlank_eq_false.mpr fun r hr hge hle hvisit => ?_⟩, ?_⟩
    · rw [hbest, hp] at hge hvisit
      by_cases er : r = p
      · subst er
        have hbefore := hfronts.before_best s
        rw [hbest, hp] at hbefore
        rw [hbefore, Int.sub_zero, hQp]
        rw [← hxd] at hB
        have hBclear : (b.executed V r t ts i x).core.blankWithin B (q - x) = false := by
          rw [blankWithin_congr hBody]
          exact hB
        rcases hgone with ⟨rfl, -⟩ | ⟨rfl, hpos', -⟩
        · exact hBclear
        · exact blankWithin_push (by rw [hself]; omega) hBclear
      · have hlt : s.rank p < s.rank r := lt_of_le_of_ne hge fun e => er (Side.rank_inj e).symm
        rw [haside.levels r er] at hvisit
        have hold := reachesBlank_eq_false.mp h.clear r hr (by rw [hp]; exact hge) hle (by rw [hp]; exact hvisit)
        have hbefore : (b.executed V p t ts i x).core.before V s r = b.core.before V s r - x := by
          refine sum_map_less ((ladder_nodup V s).filter _) (mem_filter.mpr ⟨?_, decide_eq_true hlt⟩) hworth fun k _ hk => ?_
          · exact mem_ladder.mpr (hw.links.grid p i hi)
          · exact worth_congr (haside.queue k hk) fun j hj => hothers hj fun e => hk (hw.links.unique (e ▸ hj) hi)
        rw [hbefore, haside.queue r er, blankWithin_congr fun j hj => hothers hj fun e => er (hw.links.unique (e ▸ hj) hi),
          show q - x - (b.core.before V s r - x) = q - b.core.before V s r by omega]
        exact hold
    · rw [hQp]
      rcases hgone with ⟨rfl, -⟩ | ⟨rfl, -⟩
      · exact .inr (.inr rfl)
      · cases B with
        | nil => exact .inr (.inl rfl)
        | cons j B => exact .inr (.inr rfl)

/-- The best level is empty and the cache moves on, or it is not and stays. -/
theorem Facing.advance (h : Facing V s limit q b) (hw : Wf V b) (hp : b.core.best s = p) (hr : inRange V p) :
    Facing V s limit q (b.advanceBest V s.other p) := by
  rw [advanceBest_side]
  by_cases hnil : b.core.queue V p = []
  · rw [if_pos ((hw.links.empty_iff p).mpr hnil)]
    have hfirst := refreshBest_spec V b.core s (s.worse p) (worse_start s hr)
    have ho : (b.core.refreshBest V s (s.worse p)).best s.other = b.core.best s.other := Core.refreshBest_other ..
    obtain ⟨x, y, he⟩ : ∃ x y, b.core.refreshBest V s (s.worse p) = { b.core with bestBid := x, bestAsk := y } :=
      ⟨_, _, Core.refreshBest_rest ..⟩
    show Facing V s limit q { b with core := b.core.refreshBest V s (i32 (s.worse (b.core.best s))) }
    rw [hp, i32_worse s hr]
    rw [he] at hfirst ho ⊢
    have hempty : ¬ b.core.Shows V s p := by
      rintro ⟨i, hi, -⟩
      rw [hnil] at hi
      cases hi
    refine ⟨h.fronts.moved hp hr rfl rfl h.fronts.summed ho hfirst hnil (fun r hs => hs.grid hw.links)
      fun r hne => h.tells r (by rwa [hp]), h.stp, fun r hne hs => ?_, reachesBlank_eq_false.mpr fun r hrr hge hle hvisit => ?_⟩
    · exact h.tells r (fun e => hempty (by rw [← hp, ← e]; exact hs)) hs
    · change s.rank ({ b.core with bestBid := x, bestAsk := y }.best s) ≤ s.rank r at hge
      have hw' := Side.rank_worse s p
      refine Eq.trans (blankAt_congr (by rfl) (fun _ _ _ => by rfl) r q)
        (reachesBlank_eq_false.mp h.clear r hrr ?_ hle (.inr ?_))
      · rw [hp]
        rcases hfirst with ⟨hx, -⟩ | ⟨-, hx, -⟩
        · rw [hx] at hge
          exact absurd (Side.rank_lt_noBest hrr s) (not_lt.mpr hge)
        · omega
      · rcases hvisit with rfl | hpos
        · rcases hfirst with ⟨hx, -⟩ | ⟨-, -, hpos, -⟩
          · rw [hx] at hrr
            exact absurd hrr (Side.not_inRange_noBest V s)
          · exact hpos
        · exact hpos
  · rw [if_neg fun he => hnil ((hw.links.empty_iff p).mp he)]
    exact h

/-! ## The match -/

/-- An execution of something, at a price the taker's limit allows, against the other side. -/
def Report.sound : Report → Bool
  | .fill m t q => decide (0 < q ∧ m.side = t.side.other ∧ m.side.rank m.priceTicks ≤ m.side.rank t.priceTicks)
  | _ => true

/-- The order in slot `t` came from `b₀` to `b` against makers of side `s`, with `q` left; all executions were sound. -/
structure Meeting (V : Env) (s : Side) (t : Nat) (b₀ : Book) (q : Int) (b : Book) : Prop
    extends Facing V s (b₀.core.body t).priceTicks q b where
  taking : Taking V b t q
  took : ∃ x, b.core.body t = (b₀.core.body t).tookBy x
  left : q = (b.core.body t).remainingQty
  sound : ∀ e ∈ b.log, e.sound = true

/-- The taker executes the head of the best level; the loop goes on at the next head, or the level is done. -/
theorem Meeting.exec (h : Meeting V s t b₀ q b) (hside : (b₀.core.body t).side = s.other) (hq : b.core.queue V p = i :: B)
    (hp : b.core.best s = p) (hlim : s.rank p ≤ s.rank (b₀.core.body t).priceTicks) (hpos : 0 < q) (ts : Nat) :
    Meeting V s t b₀ (q - min q (b.core.body i).displayedQty) (b.executed V p t ts i (min q (b.core.body i).displayedQty)) ∧
      (q - min q (b.core.body i).displayedQty ≤ 0 ∨ b.core.next i = none ∨ b.core.next i =
        ((b.executed V p t ts i (min q (b.core.body i).displayedQty)).core.queue V p).head?) := by
  have hw := h.taking.wf
  have hi : i ∈ b.core.queue V p := by
    rw [hq]
    exact mem_cons_self
  obtain ⟨hshow, -, hms, -⟩ := h.toFacing.head hw hq hp hlim hpos
  obtain ⟨hfacing, hnext⟩ := h.toFacing.exec h.taking hq hp hlim hpos ts
  obtain ⟨x, hx⟩ := h.took
  have htaker : (b.executed V p t ts i (min q (b.core.body i).displayedQty)).core.body t =
      (b.core.body t).tookBy (min q (b.core.body i).displayedQty) := executed_taker hw hi h.taking.flying
  have hact : Act V .exec b (b.executed V p t ts i (min q (b.core.body i).displayedQty)) :=
    .exec p t ts i q ⟨hi, h.taking.flying, hpos, h.taking.left, .inl h.stp⟩
  have hleft : q - min q (b.core.body i).displayedQty =
      ((b.executed V p t ts i (min q (b.core.body i).displayedQty)).core.body t).remainingQty := by
    rw [htaker, Order.tookBy_remaining, ← h.left]
  refine ⟨⟨hfacing, ⟨hact.wf hw, ?_, hleft.le⟩, ⟨x + min q (b.core.body i).displayedQty, ?_⟩, hleft, ?_⟩, ?_⟩
  · rw [executed_inFlight]
    exact h.taking.flying
  · rw [htaker, hx, tookBy_tookBy]
  · rw [Book.executed_log]
    intro e he
    rcases mem_cons.mp he with rfl | he
    · have hts : (b.order t).side = s.other := by
        show (b.core.body t).side = s.other
        rw [hx]
        exact hside
      have htp : (b.order t).priceTicks = (b₀.core.body t).priceTicks := by
        show (b.core.body t).priceTicks = _
        rw [hx]
        rfl
      have hmp : (b.order i).priceTicks = p := hw.price hi
      have hms' : (b.order i).side = s := hms
      unfold Report.sound
      rw [decide_eq_true_eq, hts, htp, hmp, hms', Side.other_other]
      exact ⟨lt_min hpos hshow, rfl, hlim⟩
    · exact h.sound e he
  · rw [hw.next_eq (A := []) hq]
    rcases hnext with h1 | rfl | h1
    · exact .inl h1
    · exact .inr (.inl rfl)
    · exact .inr (.inr h1)

/-- The FIFO loop over the best level. -/
theorem matchAtLevel_meeting {q' : Int} (h : Meeting V s t b₀ q b) (hside : (b₀.core.body t).side = s.other)
    (hp : b.core.best s = p) (hlim : s.rank p ≤ s.rank (b₀.core.body t).priceTicks)
    (hm : Book.matchAtLevel V p t ts n (b.core.levels p).head q b = some (q', b')) :
    Meeting V s t b₀ q' b' ∧ b'.core.best s = p := by
  refine matchAtLevel_rule
    (I := fun m q b => Meeting V s t b₀ q b ∧ b.core.best s = p ∧ (q ≤ 0 ∨ m = none ∨ m = (b.core.queue V p).head?))
    (J := fun q b => Meeting V s t b₀ q b ∧ b.core.best s = p) ?_ ?_ ?_ n _ q b q' b' ?_ hm
  · rintro i q b m q1 b2 ⟨hmt, hp, hat⟩ hpos hv
    obtain ⟨B, hB⟩ : ∃ B, b.core.queue V p = i :: B := by
      rcases hat with hle | hat | hat
      · omega
      · cases hat
      · exact ⟨_, (cons_head?_tail hat.symm).symm⟩
    have hi : i ∈ b.core.queue V p := by rw [hB]; exact mem_cons_self
    have hne := hmt.taking.wf.flying_ne_queued hi hmt.taking.flying
    have hcase := b.visitMaker_cases V p ts q hne
    rw [hv] at hcase
    cases hcase with
    | oldest hstp _ =>
      rw [hmt.stp] at hstp
      cases hstp
    | exec _ =>
      obtain ⟨hmt', hnext⟩ := hmt.exec hside hB hp hlim hpos ts
      refine ⟨hmt', ?_, hnext⟩
      rw [executed_best hne]
      exact hp
  · rintro i q b q1 b2 ⟨hmt, -, hat⟩ hpos hv
    have hi : i ∈ b.core.queue V p := by
      rcases hat with hle | hat | hat
      · omega
      · cases hat
      · exact mem_of_head? hat.symm
    have hcase := b.visitMaker_cases V p ts q (hmt.taking.wf.flying_ne_queued hi hmt.taking.flying)
    rw [hv] at hcase
    cases hcase with
    | newest hstp _ =>
      rw [hmt.stp] at hstp
      cases hstp
    | both hstp _ =>
      rw [hmt.stp] at hstp
      cases hstp
  · rintro m q b ⟨hmt, hp, -⟩ -
    exact ⟨hmt, hp⟩
  · exact ⟨h, hp, .inr (.inr (h.taking.wf.links.head_eq p))⟩

/-- The price loop: it ends with nothing left, or at the limit. -/
theorem priceLoop_meeting (h : Meeting V s t b₀ q b) (hside : (b₀.core.body t).side = s.other)
    (hm : Book.priceLoop V t ts n q b = some b') : ∃ q', Meeting V s t b₀ q' b' ∧ (q' ≤ 0 ∨ b'.nextLevel t = none) := by
  have hsd : ∀ {q b}, Meeting V s t b₀ q b → (b.order t).side = s.other ∧ (b.order t).priceTicks = (b₀.core.body t).priceTicks := by
    intro q b hmt
    obtain ⟨x, hx⟩ := hmt.took
    have h1 : (b.core.body t).side = (b₀.core.body t).side := by rw [hx]; rfl
    have h2 : (b.core.body t).priceTicks = (b₀.core.body t).priceTicks := by rw [hx]; rfl
    exact ⟨h1.trans hside, h2⟩
  refine priceLoop_rule
    (J := fun b => ∃ q', Meeting V s t b₀ q' b ∧ (q' ≤ 0 ∨ b.nextLevel t = none)) ?_ ?_ n q b b' h hm
  · intro k q b p q1 b1 hmt hpos hnext hl
    obtain ⟨hp, hne⟩ := nextLevel_some hnext (hsd hmt).1
    have hr : inRange V p := by
      rcases hmt.fronts.grid s with hno | hr
      · exact absurd (hp.symm.trans hno) hne
      · rwa [hp] at hr
    have hlim : s.rank p ≤ s.rank (b₀.core.body t).priceTicks := by
      rw [nextLevel_side (hsd hmt).1, (hsd hmt).2] at hnext
      split at hnext
      · rename_i hc
        rw [hp] at hc
        exact hc.2
      · cases hnext
    obtain ⟨hmt', hp'⟩ := matchAtLevel_meeting hmt hside hp hlim hl
    obtain ⟨x, y, hb⟩ := advanceBest_eq (b1.order t).side
    have hfacing := hmt'.toFacing.advance hmt'.taking.wf hp' hr
    rw [← (hsd hmt').1] at hfacing
    rw [hb] at hfacing ⊢
    exact ⟨hfacing, hmt'.taking.best x y, hmt'.took, hmt'.left, hmt'.sound⟩
  · intro q b hmt hend
    exact ⟨q, hmt, hend⟩

/-! ## Calls -/

/-- The request is accepted and matched, and the order gets to one that shows nothing. -/
def Book.meetsBlank (V : Env) (b : Book) (r : Request) : Bool :=
  (b.screen V r).isNone && !b.core.freeHead.isNone && decide (r.type ≠ .postOnly ∧ r.type ≠ .hidden) &&
    b.core.reachesBlank V r.side.other r.priceTicks r.qty

/-- A book between two calls, with sound executions. -/
structure Sound (V : Env) (b : Book) : Prop where
  cont : b.Continuous
  wf : Wf V b
  idle : b.inFlight = []
  stp : b.gates.stpPolicy = .none
  fronts : Fronts V b
  sound : ∀ e ∈ b.log, e.sound = true

theorem tookBy_zero (o : Order) : o.tookBy 0 = o := by
  unfold Order.tookBy
  rw [Int.add_zero]

theorem Fronts.atAll (h : Fronts V b) (hw : Wf V b) (hf : b.SumsFit V) (hstp : b.gates.stpPolicy = .none)
    (hc : b.core.reachesBlank V s limit q = false) : Facing V s limit q b :=
  ⟨h, hstp, fun _ _ hs => h.tells hw hf hs, hc⟩

/-- The accepted order is matched, if it is, and ends at the limit or with nothing left. -/
theorem Sound.matched {b1 b2 : Book} (h : Sound V b) (hf : b.SumsFit V) (hmk : r.type ≠ .market) (hc : b.meetsBlank V r = false)
    (hen : Entered V n r b b' i b1 b2) : Wf V b2 ∧ Fronts V b2 ∧ (∃ x, b2.core.body i = (b1.core.body i).tookBy x) ∧
      (∀ e ∈ b2.log, e.sound) ∧ b2.gates.stpPolicy = .none ∧ (r.type ≠ .hidden → (b2.core.body i).remainingQty ≤ 0 ∨
        r.side.other.rank r.priceTicks < r.side.other.rank (b2.core.best r.side.other)) := by
  obtain ⟨hq, -, hprev⟩ := screen_none hen.passed
  have ha := hen.accepted
  have hm := hen.matched
  have hact := hen.act
  have hw1 := hact.wf h.wf
  have hun := accept_unmoved h.wf ha
  have hfronts : Fronts V b1 := hun.fronts h.fronts (hact.summed trivial h.wf h.fronts.summed)
  have hbody := accept_body h.wf ha
  obtain ⟨hlog, -, -, hgates, -⟩ := Book.accept_rest ha
  have hprice : (b1.core.body i).priceTicks = r.priceTicks := by
    rw [hbody]
    rfl
  have hside : (b1.core.body i).side = r.side.other.other := by
    rw [hbody, Side.other_other]
    rfl
  have hrem : (b1.core.body i).remainingQty = r.qty := by
    rw [hbody]
    exact Int.sub_zero _
  have hsound1 : ∀ e ∈ b1.log, e.sound := by
    rw [hlog]
    intro e he
    rcases mem_cons.mp he with rfl | he
    · rfl
    · exact h.sound e he
  have hstp1 : b1.gates.stpPolicy = .none := by
    rw [hgates]
    exact h.stp
  have hin := screen_inRange hen.passed hmk
  unfold Book.matchEntry at hm
  split at hm
  · -- one clock reading, then the price loop
    rename_i hty
    have hw' := hw1.clock
    have hclear : b.core.reachesBlank V r.side.other r.priceTicks r.qty = false := by
      unfold Book.meetsBlank at hc
      rw [hen.passed, accept_slot ha, decide_eq_true hty] at hc
      exact hc
    have hclear1 : b1.core.reachesBlank V r.side.other (b1.core.body i).priceTicks (b1.core.body i).remainingQty = false := by
      rw [hprice, hrem, reachesBlank_congr hun.queue hun.levels hun.best hun.body]
      exact hclear
    have hf1 : b1.SumsFit V := by
      intro k hk
      have hshown : shownSum b1.core.body (b1.core.queue V k) = shownSum b.core.body (b.core.queue V k) := by
        rw [hun.queue]
        exact congrArg List.sum (map_congr_left fun j hj => by rw [hun.body _ j hj])
      rw [hshown]
      exact hf k hk
    have hfacing : Facing V r.side.other (b1.core.body i).priceTicks (b1.core.body i).remainingQty b1 :=
      hfronts.atAll hw1 hf1 hstp1 hclear1
    have hmt : Meeting V r.side.other i b1 (b1.core.body i).remainingQty (b1.monoNsNow V).2 :=
      ⟨⟨⟨hfacing.fronts.shown, hfacing.fronts.summed, hfacing.fronts.grid, hfacing.fronts.near, hfacing.fronts.apart⟩, hfacing.stp,
        hfacing.tells, hfacing.clear⟩, ⟨hw', hen.flying, le_rfl⟩, ⟨0, (tookBy_zero _).symm⟩, rfl, hsound1⟩
    obtain ⟨q', hmt', hend⟩ := priceLoop_meeting hmt hside hm
    refine ⟨hmt'.taking.wf, hmt'.fronts, hmt'.took, hmt'.sound, hmt'.stp, fun _ => ?_⟩
    rcases hend with hend | hend
    · exact .inl (hmt'.left ▸ hend)
    · obtain ⟨x, hx⟩ := hmt'.took
      have hside2 : (b2.core.body i).side = r.side.other.other := by
        rw [hx]
        exact hside
      have hprice2 : (b2.core.body i).priceTicks = r.priceTicks := by
        rw [hx]
        exact hprice
      rcases nextLevel_none hend hside2 with hno | hlim
      · rw [hno]
        exact .inr (Side.rank_lt_noBest hin _)
      · rw [show (b2.order i).priceTicks = r.priceTicks from hprice2] at hlim
        exact .inr hlim
  · rename_i hty
    cases hm
    refine ⟨hw1, hfronts, ⟨0, (tookBy_zero _).symm⟩, hsound1, hstp1, fun hhid => .inr ?_⟩
    have hpo : r.type = .postOnly := by
      by_contra hne
      exact hty ⟨hne, hhid⟩
    rw [hun.best]
    rcases postOnly_behind hprev hpo (Side.other_other _).symm with hno | hlim
    · rw [hno]
      exact Side.rank_lt_noBest hin _
    · exact hlim

/-- `submit` of an order that gets to no blank one. -/
theorem Sound.submit {x : Nat × RejectReason} (h : Sound V b) (hf : b.SumsFit V) (hmk : r.type ≠ .market)
    (hc : b.meetsBlank V r = false) (hs : Book.submit V n r b = some (x, b')) : Sound V b' := by
  have hcont := submit_continuous h.cont hs
  obtain ⟨l, hprints, -⟩ := submit_prints h.wf hs
  have hstp : b'.gates.stpPolicy = .none := hprints.stpPolicy.trans h.stp
  rcases submit_entered h.cont hs with ⟨reason, -, rfl, -⟩ | ⟨m, i, b1, b2, -, hen⟩
  · have hun : Unmoved V b (b.reject r reason) := ⟨rfl, rfl, rfl, fun _ _ _ => rfl⟩
    have hsame : SameSlots b (b.reject r reason) := .of_core rfl rfl
    exact ⟨hcont, h.wf.aside hsame, h.idle, hstp, hun.fronts h.fronts (hsame.summed h.fronts.summed), h.sound⟩
  · obtain ⟨hw2, hfronts, ⟨x, hx⟩, hsound, -, hend⟩ := h.matched hf hmk hc hen
    have hw1 := hen.act.wf h.wf
    have hflight : b2.inFlight = [i] := by
      rw [matchEntry_inFlight hw1 hen.flying hen.matched, accept_inFlight hen.accepted, h.idle]
    have hi : i ∈ b2.inFlight := by
      rw [hflight]
      exact mem_singleton_self i
    obtain ⟨hact, hidle, hcase⟩ := finish_cases hw2 hi hen.finished
    rw [hflight, erase_cons_head] at hidle
    obtain ⟨e, hlog, hnofill⟩ := finish_log hen.finished
    have hsum := hact.summed trivial hw2 hfronts.summed
    refine ⟨hcont, hact.wf hw2, hidle, hstp, ?_, ?_⟩
    · rcases hcase with ⟨hun, -⟩ | ⟨rfl, hlt, hr, -⟩
      · exact hun.fronts hfronts hsum
      · have hbody := accept_body h.wf hen.accepted
        have hq := (screen_none hen.passed).1
        have hty : (b2.core.body i).type = r.type := by
          rw [hx, hbody]
          rfl
        have hside : (b2.core.body i).side = r.side := by
          rw [hx, hbody]
          rfl
        have hprice : (b2.core.body i).priceTicks = r.priceTicks := by
          rw [hx, hbody]
          rfl
        refine hfronts.rest hw2 hi hr hlt hsum (fun hne => ⟨?_, ?_⟩) fun hhid => ?_
        · rw [hty] at hne
          have hcom := Request.order_coming hq hne (b.core.newId r.orderId) (V.clock b.asked)
          rw [hx, hbody]
          exact ⟨hcom.shown, hcom.whole⟩
        · rw [hty] at hne
          rw [hside, hprice]
          refine (hend hne).resolve_left fun hdone => ?_
          have : (b2.core.body i).remainingQty = (b2.core.body i).totalQty - (b2.core.body i).filledQty := rfl
          omega
        · rw [hty] at hhid
          rw [hx, hbody]
          show r.shown = 0
          unfold Request.shown
          rw [if_pos hhid]
    · rw [hlog]
      intro k hk
      rcases mem_cons.mp hk with rfl | hk
      · cases k with
        | fill m t q => exact absurd rfl (hnofill m t q)
        | _ => rfl
      · exact hsound k hk

/-- An order leaves the book, with a CANCEL event or without. -/
theorem Sound.cancel (h : Sound V b) (hf : b.SumsFit V) (hi : i ∈ b.core.queue V p) (e : Bool) :
    Sound V (b.cancelInternal V i e) := by
  obtain ⟨hlog, -, -, hgates, -⟩ := Book.cancelInternal_rest (V := V) e (h.wf.resting hi).active
  refine ⟨cancelInternal_continuous h.cont e, (cancelInternal_summed h.wf h.fronts.summed hi e).1,
    Book.cancelInternal_inFlight.trans h.idle, by rw [hgates]; exact h.stp, h.fronts.cancel h.wf hf hi e, ?_⟩
  rw [hlog]
  intro k hk
  rcases mem_cons.mp hk with rfl | hk
  · cases e <;> rfl
  · exact h.sound k hk

theorem Sound.reduce (h : Sound V b) {k : Nat} (hk : b.core.find k = some i) {newQty : Int}
    (hlt : newQty < (b.core.body i).totalQty) (hq : (b.core.body i).filledQty < newQty) : Sound V (b.reduceInPlace k i newQty) := by
  obtain ⟨p, hi⟩ := h.cont.queued h.wf hk
  have hact : Act V .reduce b (b.reduceInPlace k i newQty) := .reduce p k i newQty hi hk hlt hq
  refine ⟨h.cont.congr h.cont.gates rfl (fun hb => hb.congr (reduceInPlace_brackets hb)) rfl rfl, hact.wf h.wf, h.idle, h.stp,
    h.fronts.reduce h.wf hk hi hlt hq, ?_⟩
  intro e he
  rcases mem_cons.mp he with rfl | he
  · rfl
  · exact h.sound e he

/-! ## Runs -/

/-- The orders the rule is about. -/
def tradedType (t : OrderType) : Bool := t = .limit || t = .ioc || t = .fok || t = .postOnly || t = .iceberg || t = .hidden

/-- The calls that submit such orders, cancel and modify. -/
def Op.trades : Op → Bool
  | .submit r => tradedType r.type
  | .cancel _ | .modify .. => true
  | _ => false

/-- The call's order gets to no order that shows nothing; a modified order is taken out before it is matched. -/
def Book.sighted (V : Env) (b : Book) : Op → Bool
  | .submit r => !b.meetsBlank V r
  | .modify id newPrice newQty =>
    (b.core.find id).all fun i =>
      decide (newPrice = (b.order i).priceTicks ∧ newQty < (b.order i).totalQty ∧ (b.order i).filledQty < newQty) ||
        !(b.cancelInternal V i false).meetsBlank V ((b.order i).resubmit id newPrice newQty)
  | _ => true

/-- A trade of something, at the price of the maker `m`, which the limit of the taker `t` allows, between the two sides. -/
structure Trade.WellFormed (tr : Trade) (m t : Order) : Prop where
  maker : tr.makerOrderId = m.id
  taker : tr.takerOrderId = t.id
  qty : 0 < tr.qty
  price : tr.priceTicks = m.priceTicks
  limit : t.side.other.rank tr.priceTicks ≤ t.side.other.rank t.priceTicks
  opposite : m.side = t.side.other

theorem Op.trades.enters {op : Op} (h : op.trades) : op.Enters fun k => tradedType k.1 = true := by
  cases op with
  | submit r => exact h
  | cancel k => rfl
  | modify k p q => rfl
  | _ => cases h

theorem tradedType_not_market {t : OrderType} (h : tradedType t) : t ≠ .market := by
  rintro rfl
  cases h

/-- What the calls must meet: the displayed quantities of each level fit in 32 bits, and the order gets to no blank one. -/
def Book.clearFor (V : Env) (b : Book) (op : Op) : Prop := b.SumsFit V ∧ op.trades = true ∧ b.sighted V op = true

instance (V : Env) (b : Book) (op : Op) : Decidable (b.clearFor V op) := inferInstanceAs (Decidable (_ ∧ _))

theorem Sound.exec {op : Op} {a : Outcome} (h : Sound V b) (hty : b.Typed V fun k => tradedType k.1 = true)
    (hp : b.clearFor V op) (he : Book.exec V n op b = some (a, b')) : Sound V b' := by
  obtain ⟨hf, hop, hsee⟩ := hp
  cases op with
  | submit r =>
    obtain ⟨y, hs⟩ := Book.returned he fun _ => rfl
    have hsee' : (!b.meetsBlank V r) := hsee
    exact h.submit hf (tradedType_not_market hop) (by simpa using hsee') hs
  | cancel k =>
    cases he
    rw [cancel_eq h.cont h.wf]
    cases hk : b.core.find k with
    | none => exact h
    | some i =>
      obtain ⟨p, hi⟩ := h.cont.queued h.wf hk
      exact h.cancel hf hi true
  | modify k newPrice newQty =>
    obtain ⟨y, hs⟩ := Book.returned he fun _ => rfl
    rw [modify_eq h.cont h.wf] at hs
    simp only [Book.sighted] at hsee
    cases hk : b.core.find k with
    | none =>
      rw [hk] at hs
      cases hs
      exact h
    | some i =>
      rw [hk] at hs hsee
      obtain ⟨p, hi⟩ := h.cont.queued h.wf hk
      dsimp only at hs
      split at hs
      · rename_i hc
        cases hs
        exact h.reduce hk hc.2.1 hc.2.2
      · rename_i hc
        have hclear : (b.cancelInternal V i false).meetsBlank V ((b.order i).resubmit k newPrice newQty) = false := by
          rw [Option.all_some, decide_eq_false hc, Bool.false_or] at hsee
          simpa using hsee
        exact (h.cancel hf hi false).submit (SumsFit.cancel hf h.wf hi false) (tradedType_not_market (hty.queued p i hi)) hclear hs
  | _ => cases hop

theorem fresh_sound (V : Env) : Sound V (fresh V) := by
  have hord := fresh_orderly V
  have hnone : ∀ s p, ¬ (fresh V).core.Shows V s p := by
    rintro s p ⟨i, hi, -⟩
    rw [fresh_queue] at hi
    cases hi
  refine ⟨hord.cont, hord.wf, rfl, rfl, ⟨fun p i hi => ?_, hord.summed, fun s => ?_, fun s p hs => absurd hs (hnone s p),
    fun s p hs => absurd hs (hnone s p)⟩, fun e he => (by cases he)⟩
  · exact .inl (hord.visible p i hi)
  · exact .inl (by cases s <;> rfl)

theorem Sound.reach (h : Book.Reach V (fun b op _ => b.clearFor V op) b) : Sound V b := by
  induction h with
  | init => exact fresh_sound V
  | step hr hs hp ih =>
    obtain ⟨n, hn⟩ := hs
    have hreach := Reach.mono (fun b op b' (hp : b.clearFor V op) => Op.trades.enters hp.2.1) hr
    exact ih.exec (Reach.moved hreach trivial fun _ _ _ _ => trivial).1 hp hn

/-- In a run whose orders get to none that shows nothing, every trade is well formed. -/
theorem trades_well_formed {V : Env} {b : Book} (h : Book.Reach V (fun b op _ => b.clearFor V op) b) :
    ∀ tr ∈ b.tape.trades, ∃ m t q, .fill m t q ∈ b.log ∧ tr.WellFormed m t := by
  have hsound := (Sound.reach h).sound
  have htold := Reach.told (Reach.mono (fun b op b' (hp : b.clearFor V op) => (Op.trades.enters hp.2.1).entry) h)
  intro tr htr
  have hmem : tr.print ∈ b.log.reverse.filterMap Report.print := by
    rw [← htold.trades]
    exact List.mem_map_of_mem htr
  obtain ⟨e, he, hprint⟩ := List.mem_filterMap.mp hmem
  rw [List.mem_reverse] at he
  cases e with
  | fill m t q =>
    have hs : decide (0 < q ∧ m.side = t.side.other ∧ m.side.rank m.priceTicks ≤ m.side.rank t.priceTicks) = true :=
      hsound _ he
    obtain ⟨hq, hside, hlim⟩ := of_decide_eq_true hs
    have hp : (m.id, t.id, m.priceTicks, q, t.side) = tr.print := Option.some.inj hprint
    unfold Trade.print at hp
    obtain ⟨h1, h2, h3, h4, -⟩ := by simpa using hp
    refine ⟨m, t, q, he, h1.symm, h2.symm, h4 ▸ hq, h3.symm, ?_, hside⟩
    rw [← h3, ← hside]
    exact hlim
  | _ => cases hprint

end

/-- An iceberg and a limit order trade in front of a hidden order no order gets to. -/
theorem trades_well_formed_small : ∃ b, Book.Reach smallEnv (fun b op _ => b.clearFor smallEnv op) b ∧
    b.tape.trades.map (fun tr => (tr.makerOrderId, tr.takerOrderId, tr.qty)) = [(2, 3, 2), (2, 3, 1), (4, 5, 2)] ∧
    ∀ tr ∈ b.tape.trades, ∃ m t q, .fill m t q ∈ b.log ∧ tr.WellFormed m t := by
  have hrun : (Book.runIf smallEnv 20 (fun b op _ => decide (b.clearFor smallEnv op))
      [.submit { side := .sell, priceTicks := 5, qty := 5, type := .hidden },
       .submit { side := .sell, priceTicks := 3, qty := 5, type := .iceberg, displayedQty := 2 },
       .submit { side := .buy, priceTicks := 4, qty := 3 },
       .submit { side := .sell, priceTicks := 4, qty := 3 },
       .modify 2 3 4,
       .modify 2 4 4,
       .submit { side := .buy, priceTicks := 4, qty := 2, type := .ioc }] (fresh smallEnv)).any (fun b =>
        b.tape.trades.map (fun tr => (tr.makerOrderId, tr.takerOrderId, tr.qty)) = [(2, 3, 2), (2, 3, 1), (4, 5, 2)]) = true := by
    decide +kernel
  obtain ⟨b, -, hreach, hf⟩ := Reach.ofRun hrun fun _ _ _ h => of_decide_eq_true h
  exact ⟨b, hreach, of_decide_eq_true hf, trades_well_formed hreach⟩

/-- A buy order "trades" 0 with a hidden buy order that is ahead of the sell order at the price. -/
theorem hidden_trades_nothing : ∃ b, Book.Reach smallEnv (fun _ op _ => op.trades = true) b ∧
    ∃ tr ∈ b.tape.trades, tr.makerOrderId = 1 ∧ tr.takerOrderId = 3 ∧ tr.qty = 0 ∧ ¬ ∃ m t, tr.WellFormed m t := by
  have hrun : (Book.runIf smallEnv 20 (fun _ op _ => op.trades)
      [.submit { side := .buy, priceTicks := 3, qty := 5, type := .hidden },
       .submit { side := .sell, priceTicks := 3, qty := 5, type := .postOnly },
       .submit { side := .buy, priceTicks := 3, qty := 2, type := .ioc }] (fresh smallEnv)).any (fun b =>
        decide (∃ tr ∈ b.tape.trades, tr.makerOrderId = 1 ∧ tr.takerOrderId = 3 ∧ tr.qty = 0)) = true := by
    decide +kernel
  obtain ⟨b, -, hreach, hf⟩ := Reach.ofRun hrun fun _ _ _ h => h
  obtain ⟨tr, htr, hm, ht, hq⟩ := of_decide_eq_true hf
  refine ⟨b, hreach, tr, htr, hm, ht, hq, fun hw => ?_⟩
  obtain ⟨m, t, hw⟩ := hw
  exact absurd hw.qty (by rw [hq]; decide)

end HftLab.OrderBook
