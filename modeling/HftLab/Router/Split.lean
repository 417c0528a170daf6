/-
  HftLab.Router.Split — splitting an order over the venues: nobody fills it cheaper.

  What an order is sorted by is its rank, the all-in price of a BUY and its negative for a SELL, so that the
  lower is the better on both sides. The loop hands the quantity out along the candidates sorted by rank
  (`splitLoop_pays`), and who hands out the cheapest first cannot be beaten (`allot_cheapest`).

  Proved, for every set of venues, side and quantity from the threshold on: `split_exact`.
-/

import HftLab.Router.SmartRouter

namespace HftLab.Router

open Lib List

namespace SmartOrderRouter

variable {x : SmartOrderRouter} {isBuy : Bool} {i j : Nat} {n q t0 t1 : Int} {l : List Nat} {side : String}

/-- The lower, the better. -/
def rank (x : SmartOrderRouter) (isBuy : Bool) (i : Nat) : ℚ := if isBuy then x.eff isBuy i else -x.eff isBuy i

/-- The displayed size on the side an order takes. -/
def shown (x : SmartOrderRouter) (isBuy : Bool) (i : Nat) : Int := (x.venue i).size isBuy

/-- The shares sent to each venue between `x` and `x'`. -/
def sent (x x' : SmartOrderRouter) (i : Nat) : Int := (x'.venue i).routedShares - (x.venue i).routedShares

theorem beats_iff (x : SmartOrderRouter) (isBuy : Bool) (j i : Nat) :
    beats isBuy (x.eff isBuy j) (x.eff isBuy i) = true ↔ x.rank isBuy j < x.rank isBuy i := by
  unfold beats rank
  cases isBuy <;> simp

/-! ## Candidates -/

theorem mem_candidates : i ∈ x.candidates isBuy ↔
    i < x.venues.length ∧ (x.venue i).isActive ∧ (x.venue i).hasLiq isBuy := by
  simp [candidates]

theorem candidates_nodup (x : SmartOrderRouter) (isBuy : Bool) : (x.candidates isBuy).Nodup :=
  nodup_range.filter _

theorem shown_pos (h : i ∈ x.candidates isBuy) : 0 < x.shown isBuy i := by
  have hliq := (mem_candidates.mp h).2.2
  simp only [Venue.hasLiq, Bool.and_eq_true, decide_eq_true_eq] at hliq
  exact hliq.2

theorem candidates_eq_nil : x.candidates isBuy = [] ↔
    ∀ v ∈ x.venues, v.isActive → ¬ (0 < v.px isBuy ∧ 0 < v.size isBuy) := by
  rw [eq_nil_iff_forall_not_mem]
  simp only [mem_candidates, Venue.hasLiq, Bool.and_eq_true, decide_eq_true_eq]
  constructor
  · intro h v hv ha hliq
    obtain ⟨i, hi, rfl⟩ := getElem_of_mem hv
    have hvenue : x.venue i = x.venues[i] := by simp [venue, hi]
    refine h i ⟨hi, ?_⟩
    rw [hvenue]
    exact ⟨ha, hliq⟩
  · intro h i hi
    obtain ⟨hlt, ha, hliq⟩ := hi
    have hvenue : x.venue i = x.venues[i] := by simp [venue, hlt]
    rw [hvenue] at ha hliq
    exact h _ (getElem_mem hlt) ha hliq

theorem sorted_perm (x : SmartOrderRouter) (isBuy : Bool) (l : List Nat) : (x.sorted isBuy l).Perm l := exchangeSort_perm _ _

theorem sorted_sorted (x : SmartOrderRouter) (isBuy : Bool) (l : List Nat) :
    (x.sorted isBuy l).Pairwise fun i j => x.rank isBuy i ≤ x.rank isBuy j :=
  exchangeSort_sorted (x.beats_iff isBuy) (by omega)

/-! ## The records of a venue -/

theorem venue_record (hi : i < x.venues.length) (n : Int) (j : Nat) :
    (x.record i n).venue j = if i = j then (x.venue j).routed n else x.venue j := by
  simp only [venue, record, getD_eq_getElem?_getD, List.getElem?_modify]
  by_cases e : i = j
  · subst e
    simp [hi]
  · simp [e]

theorem px_record (hi : i < x.venues.length) (n : Int) (j : Nat) : ((x.record i n).venue j).px isBuy = (x.venue j).px isBuy := by
  rw [venue_record hi]
  split <;> rfl

theorem fee_record (hi : i < x.venues.length) (n : Int) (j : Nat) :
    ((x.record i n).venue j).feePerShare = (x.venue j).feePerShare := by
  rw [venue_record hi]
  split <;> rfl

theorem shown_record (hi : i < x.venues.length) (n : Int) : (x.record i n).shown isBuy = x.shown isBuy := by
  funext j
  unfold shown
  rw [venue_record hi]
  split <;> rfl

theorem routedShares_record (hi : i < x.venues.length) (n : Int) (j : Nat) :
    ((x.record i n).venue j).routedShares = (x.venue j).routedShares + if i = j then n else 0 := by
  rw [venue_record hi]
  split
  · rfl
  · rw [Int.add_zero]

theorem length_record (x : SmartOrderRouter) (i : Nat) (n : Int) : (x.record i n).venues.length = x.venues.length :=
  length_modify ..

/-! ## The loop -/

/-- The grants `ps` are paid out between `s` and `s'`. -/
structure Pays (isBuy : Bool) (ps : List (Nat × Int)) (s s' : Split) : Prop where
  filled : s'.filled = s.filled + (ps.map Prod.snd).sum
  venuesUsed : s'.venuesUsed = s.venuesUsed + ps.length
  priceSum : s'.priceSum = s.priceSum + (ps.map fun p => (p.2 : ℚ) * (s.router.venue p.1).px isBuy).sum
  feeSum : s'.feeSum = s.feeSum + (ps.map fun p => (p.2 : ℚ) * (s.router.venue p.1).feePerShare).sum
  routed : ∀ j, (s'.router.venue j).routedShares = (s.router.venue j).routedShares + share ps j

theorem Pays.nil (isBuy : Bool) (s : Split) : Pays isBuy [] s s := by
  constructor <;> simp [share]

/-- The loop after `n` shares for the venue `i`. -/
def Split.pay (s : Split) (isBuy : Bool) (i : Nat) (n : Int) : Split where
  router := s.router.record i n
  remaining := s.remaining - n
  filled := s.filled + n
  venuesUsed := s.venuesUsed + 1
  priceSum := s.priceSum + (s.router.venue i).px isBuy * n
  feeSum := s.feeSum + (s.router.venue i).feePerShare * n

theorem Pays.cons {s s' : Split} {ps : List (Nat × Int)} (hi : i < s.router.venues.length)
    (h : Pays isBuy ps (s.pay isBuy i n) s') : Pays isBuy ((i, n) :: ps) s s' := by
  obtain ⟨hfilled, hused, hprice, hfee, hrouted⟩ := h
  simp only [Split.pay, px_record hi, fee_record hi, routedShares_record hi] at hfilled hused hprice hfee hrouted
  constructor
  · rw [hfilled, map_cons, sum_cons]
    omega
  · rw [hused, length_cons]
    omega
  · rw [hprice, map_cons, sum_cons]
    ring
  · rw [hfee, map_cons, sum_cons]
    ring
  · intro j
    rw [hrouted, share_cons]
    omega

theorem splitLoop_cons {s : Split} (hr : 0 < s.remaining) (hp : 0 < s.router.shown isBuy i) (l : List Nat) :
    splitLoop isBuy (i :: l) s = splitLoop isBuy l (s.pay isBuy i (min (s.router.shown isBuy i) s.remaining)) := by
  unfold shown at hp
  have halloc : ¬ min s.remaining ((s.router.venue i).size isBuy) ≤ 0 := by omega
  conv_lhs => unfold splitLoop
  rw [if_pos hr]
  rw [if_neg halloc, Int.min_comm]
  rfl

theorem splitLoop_pays (s : Split) (hlt : ∀ i ∈ l, i < s.router.venues.length) (hpos : ∀ i ∈ l, 0 < s.router.shown isBuy i) :
    Pays isBuy (allot (s.router.shown isBuy) s.remaining l) s (splitLoop isBuy l s) := by
  induction l generalizing s with
  | nil => exact Pays.nil isBuy s
  | cons i l ih =>
    have hi := hlt i mem_cons_self
    have hp := hpos i mem_cons_self
    by_cases hr : 0 < s.remaining
    · rw [splitLoop_cons hr hp, allot_cons hr]
      have hrest := ih (s.pay isBuy i (min (s.router.shown isBuy i) s.remaining))
      simp only [Split.pay, length_record, shown_record hi] at hrest
      refine Pays.cons hi ?_
      exact hrest (fun j hj => hlt j (mem_cons_of_mem _ hj)) fun j hj => hpos j (mem_cons_of_mem _ hj)
    · have hstop : splitLoop isBuy (i :: l) s = s := by
        unfold splitLoop
        rw [if_neg hr]
      rw [hstop, allot_nonpos (by omega)]
      exact Pays.nil isBuy s


/-! ## The decision -/

/-- `d` is the split of an order of `q` between `x` and `x'`, and there is no better one. -/
structure SplitExact (x x' : SmartOrderRouter) (isBuy : Bool) (q : Int) (d : RouteDecision) : Prop where
  feasible : Feasible (x.shown isBuy) (x.candidates isBuy) (x.sent x')
  total : totalOf (x.candidates isBuy) (x.sent x') = d.quantity
  quantity : d.quantity = min q (totalOf (x.candidates isBuy) (x.shown isBuy))
  unfilled : d.quantity + d.unfilledQty = q
  numVenues : d.numVenues = ((x.candidates isBuy).filter fun i => x.sent x' i ≠ 0).length
  cost : costOf (x.eff isBuy) (x.candidates isBuy) (x.sent x') = d.effectivePrice * d.quantity
  best : ∀ b, Feasible (x.shown isBuy) (x.candidates isBuy) b → totalOf (x.candidates isBuy) b = d.quantity →
    if isBuy then d.effectivePrice * d.quantity ≤ costOf (x.eff isBuy) (x.candidates isBuy) b
    else costOf (x.eff isBuy) (x.candidates isBuy) b ≤ d.effectivePrice * d.quantity

theorem costOf_rank (x : SmartOrderRouter) (isBuy : Bool) (l : List Nat) (a : Nat → Int) :
    costOf (x.rank isBuy) l a = if isBuy then costOf (x.eff isBuy) l a else -costOf (x.eff isBuy) l a := by
  cases isBuy
  · exact costOf_neg _ _ _
  · rfl

theorem shown_sum_pos (h : x.candidates isBuy ≠ []) : 0 < totalOf (x.candidates isBuy) (x.shown isBuy) := by
  obtain ⟨i, l, hl⟩ := exists_cons_of_ne_nil h
  have hrest : 0 ≤ (l.map (x.shown isBuy)).sum := by
    refine sum_nonneg fun y hy => ?_
    obtain ⟨j, hj, rfl⟩ := mem_map.mp hy
    have hmem : j ∈ x.candidates isBuy := by
      rw [hl]
      exact mem_cons_of_mem _ hj
    exact (shown_pos hmem).le
  have hi : i ∈ x.candidates isBuy := by
    rw [hl]
    exact mem_cons_self
  have hpos := shown_pos hi
  rw [hl, totalOf, map_cons, sum_cons]
  omega

/-- The sums of the loop are what the shares cost: quotes and fees together make the all-in price. -/
theorem sums_eff (x : SmartOrderRouter) (isBuy : Bool) (ps : List (Nat × Int)) :
    (ps.map fun p => (p.2 : ℚ) * x.eff isBuy p.1).sum =
      if isBuy then (ps.map fun p => (p.2 : ℚ) * (x.venue p.1).px isBuy).sum +
        (ps.map fun p => (p.2 : ℚ) * (x.venue p.1).feePerShare).sum
      else (ps.map fun p => (p.2 : ℚ) * (x.venue p.1).px isBuy).sum -
        (ps.map fun p => (p.2 : ℚ) * (x.venue p.1).feePerShare).sum := by
  induction ps with
  | nil => simp
  | cons p ps ih =>
    simp only [map_cons, sum_cons]
    rw [ih]
    cases isBuy <;> simp only [eff, Venue.effectivePrice, Venue.px] <;> simp <;> ring

/-- What the loop grants along the sorted candidates. -/
def grants (x : SmartOrderRouter) (isBuy : Bool) (q : Int) : List (Nat × Int) :=
  allot (x.shown isBuy) q (x.sorted isBuy (x.candidates isBuy))

theorem sorted_priced (x : SmartOrderRouter) (isBuy : Bool) :
    Priced (x.rank isBuy) (x.shown isBuy) (x.candidates isBuy) (x.sorted isBuy (x.candidates isBuy)) :=
  ⟨x.sorted_perm isBuy _, x.candidates_nodup isBuy, fun _ hi => shown_pos hi, x.sorted_sorted isBuy _⟩

/-- A run of the loop that pays the grants makes an exact split. -/
theorem Pays.exact {s : Split} {d : RouteDecision} (h : Pays isBuy (x.grants isBuy q) { router := x, remaining := q } s)
    (hq : 0 ≤ q) (hs : s.filled ≠ 0) (hquantity : d.quantity = s.filled) (hunfilled : d.unfilledQty = q - s.filled)
    (hvenues : d.numVenues = s.venuesUsed)
    (heff : d.effectivePrice = if isBuy then (s.priceSum + s.feeSum) / s.filled else (s.priceSum - s.feeSum) / s.filled) :
    SplitExact x s.router isBuy q d := by
  obtain ⟨hfilled, hused, hprice, hfee, hrouted⟩ := h
  have hp := x.sorted_priced isBuy
  dsimp only at hfilled hused hprice hfee hrouted
  rw [Int.zero_add] at hfilled hused
  rw [zero_add] at hprice hfee
  have hsent : x.sent s.router = share (x.grants isBuy q) := by
    funext j
    unfold sent
    rw [hrouted]
    omega
  have hmin : s.filled = min q (totalOf (x.candidates isBuy) (x.shown isBuy)) := by
    rw [hfilled]
    exact hp.granted hq
  have hnz : (s.filled : ℚ) ≠ 0 := by exact_mod_cast hs
  have hcost : costOf (x.eff isBuy) (x.candidates isBuy) (share (x.grants isBuy q)) = d.effectivePrice * d.quantity := by
    rw [grants, hp.cost, ← grants, sums_eff, ← hprice, ← hfee, heff, hquantity]
    split <;> rw [div_mul_cancel₀ _ hnz]
  constructor
  · rw [hsent]
    exact hp.feasible q
  · rw [hsent, hquantity, hmin]
    exact hp.total hq
  · rw [hquantity, hmin]
  · rw [hquantity, hunfilled]
    omega
  · rw [hsent, hvenues, hused, grants, hp.count]
  · rw [hsent]
    exact hcost
  · intro b hb hsum
    have htotal : totalOf (x.candidates isBuy) b = totalOf (x.candidates isBuy) (share (x.grants isBuy q)) := by
      rw [hsum, hquantity, hmin]
      exact (hp.total hq).symm
    have hbest := hp.cheapest hb htotal
    rw [costOf_rank, costOf_rank, ← grants, hcost] at hbest
    cases isBuy
    · exact neg_le_neg_iff.mp hbest
    · exact hbest

/-- The totals of the router are not about its venues. -/
theorem SplitExact.account {x' : SmartOrderRouter} {d : RouteDecision} (h : SplitExact x x' isBuy q d) (d' : RouteDecision) :
    SplitExact x (x'.account d') isBuy q d :=
  ⟨h.feasible, h.total, h.quantity, h.unfilled, h.numVenues, h.cost, h.best⟩

theorem splitOrder_exact (t0 t1 : Int) (hne : x.candidates isBuy ≠ []) (hq : 0 < q) :
    (x.splitOrder (x.candidates isBuy) isBuy q t0 t1).1.valid = true ∧
      SplitExact x (x.splitOrder (x.candidates isBuy) isBuy q t0 t1).2 isBuy q
        (x.splitOrder (x.candidates isBuy) isBuy q t0 t1).1 := by
  have hp := x.sorted_priced isBuy
  have hlt : ∀ i ∈ x.sorted isBuy (x.candidates isBuy), i < x.venues.length :=
    fun i hi => (mem_candidates.mp (hp.perm.subset hi)).1
  have hpays : Pays isBuy (x.grants isBuy q) _ _ := splitLoop_pays { router := x, remaining := q } hlt hp.pos'
  have hfilled := hpays.filled
  have htotal := shown_sum_pos hne
  rw [grants, hp.granted hq.le] at hfilled
  unfold splitOrder
  dsimp only at hfilled ⊢
  rw [if_neg (by omega)]
  refine ⟨rfl, ?_⟩
  exact (hpays.exact hq.le (by omega) rfl rfl rfl rfl).account _

theorem routeOrder_split (hthr : x.splitThreshold ≤ q) : x.routeOrder side q .split t0 t1 =
    if (x.candidates (isBuySide side)).isEmpty then x.reject (if x.venues.isEmpty then .noVenues else .noLiquidity)
    else x.splitOrder (x.candidates (isBuySide side)) (isBuySide side) q t0 t1 := by
  unfold routeOrder
  dsimp only
  split
  · rfl
  · rw [if_pos ⟨rfl, hthr⟩]

/-- A split is refused only if nothing is shown on the side; otherwise it is exact and there is no better one. -/
theorem split_exact (x : SmartOrderRouter) (side : String) (q t0 t1 : Int) (hq : 0 < q) (hthr : x.splitThreshold ≤ q) :
    ((x.routeOrder side q .split t0 t1).1.valid = false ↔
        ∀ v ∈ x.venues, v.isActive = true → ¬ (0 < v.px (isBuySide side) ∧ 0 < v.size (isBuySide side))) ∧
      ((x.routeOrder side q .split t0 t1).1.valid = true →
        SplitExact x (x.routeOrder side q .split t0 t1).2 (isBuySide side) q (x.routeOrder side q .split t0 t1).1) := by
  rw [routeOrder_split hthr, ← candidates_eq_nil]
  by_cases hne : x.candidates (isBuySide side) = []
  · rw [hne, if_pos List.isEmpty_nil]
    exact ⟨⟨fun _ => rfl, fun _ => rfl⟩, fun hc => Bool.noConfusion hc⟩
  · rw [if_neg (by simpa using hne)]
    obtain ⟨hvalid, hexact⟩ := splitOrder_exact t0 t1 hne hq
    rw [hvalid]
    exact ⟨⟨fun hc => absurd hc (by decide), fun hc => absurd hc hne⟩, fun _ => hexact⟩

/-- Three venues: the second best has too little, the rebate of the third makes it the best. -/
def threeVenues : SmartOrderRouter where
  venues :=
    [{ name := "A", bestBid := 99, bestAsk := 101, bidSize := 300, askSize := 300 },
      { name := "B", bestBid := 100, bestAsk := 100, bidSize := 200, askSize := 200, feePerShare := 1 / 2 },
      { name := "C", bestBid := 99, bestAsk := 101, bidSize := 400, askSize := 400, feePerShare := -1 }]

theorem split_exact_three :
    (threeVenues.routeOrder "BUY" 700 .split 0 1).1.quantity = 700 ∧
      SplitExact threeVenues (threeVenues.routeOrder "BUY" 700 .split 0 1).2 true 700
        (threeVenues.routeOrder "BUY" 700 .split 0 1).1 := by
  have hexact := (split_exact threeVenues "BUY" 700 0 1 (by decide) (by decide)).2
  have hvalid : (threeVenues.routeOrder "BUY" 700 .split 0 1).1.valid = true := by decide +kernel
  exact ⟨by decide +kernel, hexact hvalid⟩

end SmartOrderRouter

end HftLab.Router
