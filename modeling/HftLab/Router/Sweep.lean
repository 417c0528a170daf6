/-
  HftLab.Router.Sweep — the sweep up to a limit, its cost, and the venues it touches.

  Each pass takes the first best of the unused venues within the limit (`bestUnused_eq`), so that the passes hand the
  shares out along the ranking of these venues: by all-in price, of equals by place (`picks`). Both loops do
  (`sweepLoop_eq`, `touchLoop_eq`), and the ranking is a sorted list as good as that of a split.

  Proved, for every set of venues, side, number of shares and limit: `sweep_exact`.
-/

import HftLab.Router.Split

namespace HftLab.Router

open Lib List

namespace SmartOrderRouter

variable {x : SmartOrderRouter} {isBuy : Bool} {i j : Nat} {limit : ℚ} {shares : Int}

/-- The venues with liquidity within the limit, by their places. -/
def within (x : SmartOrderRouter) (isBuy : Bool) (limit : ℚ) : List Nat :=
  (x.candidates isBuy).filter fun i => !past isBuy limit (x.eff isBuy i)

/-- The same by rank, of equals by place. -/
def ranking (x : SmartOrderRouter) (isBuy : Bool) (limit : ℚ) : List Nat :=
  picks (x.rank isBuy) x.venues.length (x.within isBuy limit)

theorem within_sorted (x : SmartOrderRouter) (isBuy : Bool) (limit : ℚ) : (x.within isBuy limit).Pairwise (· < ·) :=
  (pairwise_lt_range.sublist filter_sublist).sublist filter_sublist

theorem within_length (x : SmartOrderRouter) (isBuy : Bool) (limit : ℚ) : (x.within isBuy limit).length ≤ x.venues.length := by
  refine (length_filter_le ..).trans ((length_filter_le ..).trans ?_)
  rw [length_range]

theorem within_pos (h : i ∈ x.within isBuy limit) : 0 < x.shown isBuy i := shown_pos (mem_of_mem_filter h)

theorem ranking_perm (x : SmartOrderRouter) (isBuy : Bool) (limit : ℚ) :
    (x.ranking isBuy limit).Perm (x.within isBuy limit) :=
  (picks_sorted (x.within_sorted isBuy limit) (x.within_length isBuy limit)).1

theorem ranking_ahead (x : SmartOrderRouter) (isBuy : Bool) (limit : ℚ) :
    (x.ranking isBuy limit).Pairwise (Ahead (x.rank isBuy)) :=
  (picks_sorted (x.within_sorted isBuy limit) (x.within_length isBuy limit)).2

/-! ## The loops -/

/-- Whether a pass looks at the venue `i` at all. -/
def Open (x : SmartOrderRouter) (isBuy : Bool) (limit : ℚ) (used : Nat → Bool) (i : Nat) : Bool :=
  !used i && !past isBuy limit (x.eff isBuy i) && ((x.venue i).isActive && (x.venue i).hasLiq isBuy)

theorem filter_open (x : SmartOrderRouter) (isBuy : Bool) (limit : ℚ) (used : Nat → Bool) :
    (List.range x.venues.length).filter (x.Open isBuy limit used) = (x.within isBuy limit).filter fun i => !used i := by
  unfold within candidates
  rw [filter_filter, filter_filter]
  refine filter_congr fun i _ => ?_
  unfold Open
  cases used i <;> simp

theorem hasLiq_iff (v : Venue) (isBuy : Bool) : v.hasLiq isBuy ↔ ¬ (v.px isBuy ≤ 0 ∨ v.size isBuy ≤ 0) := by
  simp only [Venue.hasLiq, Bool.and_eq_true, decide_eq_true_eq, not_or, not_le]

/-- A pass finds the first best of what is left within the limit. -/
theorem bestUnused_eq (x : SmartOrderRouter) (isBuy : Bool) (limit : ℚ) (used : Nat → Bool) :
    x.bestUnused isBuy limit used =
      (firstBest (x.rank isBuy) ((x.within isBuy limit).filter fun i => !used i)).map fun i => (i, x.eff isBuy i) := by
  rw [← filter_open]
  unfold bestUnused firstBest
  rw [foldl_filter]
  change List.foldl _ (Option.map (fun i => (i, x.eff isBuy i)) none) _ = _
  refine foldl_hom (Option.map fun i => (i, x.eff isBuy i)) fun best i => ?_
  by_cases hopen : x.Open isBuy limit used i
  · rw [if_pos hopen]
    simp only [Open, Bool.and_eq_true, Bool.not_eq_true'] at hopen
    obtain ⟨⟨hused, hpast⟩, hactive, hliq⟩ := hopen
    rw [hasLiq_iff] at hliq
    dsimp only
    rw [hused, hactive, if_neg hliq, hpast]
    cases best with
    | none => rfl
    | some b =>
      by_cases hlt : x.rank isBuy i < x.rank isBuy b
      · simp [keepBest, hlt, (x.beats_iff isBuy i b).mpr hlt]
      · have hbeats : beats isBuy (x.eff isBuy i) (x.eff isBuy b) = false :=
          Bool.eq_false_iff.mpr fun hc => hlt ((x.beats_iff isBuy i b).mp hc)
        simp [keepBest, hlt, hbeats]
  · rw [if_neg hopen]
    dsimp only
    cases hused : used i with
    | true => rfl
    | false =>
      cases hactive : (x.venue i).isActive with
      | false => rfl
      | true =>
        by_cases hliq : (x.venue i).px isBuy ≤ 0 ∨ (x.venue i).size isBuy ≤ 0
        · rw [if_pos hliq]
          rfl
        · have hpast : past isBuy limit (x.eff isBuy i) := by
            rw [← hasLiq_iff] at hliq
            simpa [Open, hused, hactive, hliq] using hopen
          rw [if_neg hliq, hpast]
          rfl

theorem filter_update (l : List Nat) (used : Nat → Bool) (i : Nat) :
    (l.filter fun j => !Function.update used i true j) = (l.filter fun j => !used j).filter (· ≠ i) := by
  rw [filter_filter]
  refine filter_congr fun j _ => ?_
  by_cases e : j = i
  · simp [e]
  · simp [e]

theorem taken_eq (x : SmartOrderRouter) (isBuy : Bool) (i : Nat) (remaining : Int) :
    (if remaining < (x.venue i).size isBuy then remaining else (x.venue i).size isBuy) = min (x.shown isBuy i) remaining := by
  unfold shown
  omega

/-- The shares are handed out along the ranking of what is left. -/
theorem sweepLoop_eq (n : Nat) (used : Nat → Bool) (remaining filled : Int) (notional : ℚ) :
    x.sweepLoop isBuy limit n used remaining filled notional =
      (filled + ((allot (x.shown isBuy) remaining (picks (x.rank isBuy) n ((x.within isBuy limit).filter fun i => !used i))).map
          Prod.snd).sum,
        notional + ((allot (x.shown isBuy) remaining (picks (x.rank isBuy) n ((x.within isBuy limit).filter fun i => !used i))).map
          fun p => (p.2 : ℚ) * x.eff isBuy p.1).sum) := by
  induction n generalizing used remaining filled notional with
  | zero => simp [sweepLoop, picks, allot]
  | succ n ih =>
    unfold sweepLoop picks
    rw [bestUnused_eq]
    split
    · rename_i hr
      cases hbest : firstBest (x.rank isBuy) ((x.within isBuy limit).filter fun i => !used i) with
      | none => simp [allot]
      | some i =>
        dsimp only [Option.map_some]
        rw [ih, filter_update, allot_cons hr, taken_eq]
        rw [map_cons, sum_cons, map_cons, sum_cons]
        refine Prod.ext ?_ ?_
        · exact Int.add_assoc ..
        · ring
    · rename_i hr
      rw [allot_nonpos (not_lt.mp hr)]
      simp

theorem touchLoop_eq (n : Nat) (used : Nat → Bool) (remaining touched : Int) :
    x.touchLoop isBuy limit n used remaining touched =
      (remaining - ((allot (x.shown isBuy) remaining (picks (x.rank isBuy) n ((x.within isBuy limit).filter fun i => !used i))).map
          Prod.snd).sum,
        touched + (allot (x.shown isBuy) remaining (picks (x.rank isBuy) n ((x.within isBuy limit).filter fun i => !used i))).length) := by
  induction n generalizing used remaining touched with
  | zero => simp [touchLoop, picks, allot]
  | succ n ih =>
    unfold touchLoop picks
    rw [bestUnused_eq]
    split
    · rename_i hr
      cases hbest : firstBest (x.rank isBuy) ((x.within isBuy limit).filter fun i => !used i) with
      | none => simp [allot]
      | some i =>
        dsimp only [Option.map_some]
        rw [ih, filter_update, allot_cons hr, taken_eq]
        rw [map_cons, sum_cons, length_cons]
        refine Prod.ext ?_ ?_
        · exact Int.sub_sub ..
        · push_cast
          omega
    · rename_i hr
      rw [allot_nonpos (not_lt.mp hr)]
      simp

/-! ## Shares, cost and venues -/

theorem foldl_i32 (w : Nat → Int) (l : List Nat) (total : Int) :
    l.foldl (fun total i => i32 (total + w i)) (i32 total) = i32 (total + totalOf l w) := by
  induction l generalizing total with
  | nil => simp [totalOf]
  | cons i l ih =>
    have hcons : totalOf (i :: l) w = w i + totalOf l w := by
      unfold totalOf
      rw [map_cons, sum_cons]
    rw [foldl_cons, i32_add_left, ih, hcons, Int.add_assoc]

theorem totalOf_within_le (x : SmartOrderRouter) (isBuy : Bool) (limit : ℚ) :
    totalOf (x.within isBuy limit) (x.shown isBuy) ≤ totalOf (x.candidates isBuy) (x.shown isBuy) := by
  refine List.Sublist.sum_le_sum (filter_sublist.map _) fun y hy => ?_
  obtain ⟨i, hi, rfl⟩ := mem_map.mp hy
  exact (shown_pos hi).le

/-- The sizes within the limit, as far as 32 bits hold them. -/
theorem liquidityAtLimit_i32 (x : SmartOrderRouter) (isBuy : Bool) (limit : ℚ) :
    x.liquidityAtLimit isBuy limit = i32 (totalOf (x.within isBuy limit) (x.shown isBuy)) := by
  have hfold := foldl_i32 (x.shown isBuy) (x.within isBuy limit) 0
  rw [i32_zero, Int.zero_add] at hfold
  rw [← hfold]
  unfold liquidityAtLimit within candidates
  rw [filter_filter, foldl_filter]
  congr 1
  funext total i
  dsimp only
  cases (x.venue i).isActive
  · simp
  · cases (x.venue i).hasLiq isBuy
    · simp
    · simp [shown]

theorem totalOf_within_nonneg (x : SmartOrderRouter) (isBuy : Bool) (limit : ℚ) :
    0 ≤ totalOf (x.within isBuy limit) (x.shown isBuy) := by
  refine sum_nonneg fun y hy => ?_
  obtain ⟨i, hi, rfl⟩ := mem_map.mp hy
  exact (within_pos hi).le

theorem liquidityAtLimit_eq (h : totalOf (x.candidates isBuy) (x.shown isBuy) ≤ int32Max) :
    x.liquidityAtLimit isBuy limit = totalOf (x.within isBuy limit) (x.shown isBuy) := by
  have hle := x.totalOf_within_le isBuy limit
  have hnonneg := x.totalOf_within_nonneg isBuy limit
  rw [liquidityAtLimit_i32]
  refine i32_eq ⟨?_, hle.trans h⟩
  simp only [int32Min]
  omega

/-- What the sweep grants along the ranking. -/
def sweepGrants (x : SmartOrderRouter) (isBuy : Bool) (shares : Int) (limit : ℚ) : List (Nat × Int) :=
  allot (x.shown isBuy) shares (x.ranking isBuy limit)

theorem ranking_priced (x : SmartOrderRouter) (isBuy : Bool) (limit : ℚ) :
    Priced (x.rank isBuy) (x.shown isBuy) (x.within isBuy limit) (x.ranking isBuy limit) := by
  refine ⟨x.ranking_perm isBuy limit, (x.within_sorted isBuy limit).imp fun h => h.ne, fun _ hi => within_pos hi, ?_⟩
  refine (x.ranking_ahead isBuy limit).imp fun h => ?_
  rcases h with h | ⟨h, -⟩
  · exact h.le
  · exact h.le

theorem filter_unused (l : List Nat) : (l.filter fun i => !(fun _ : Nat => false) i) = l :=
  filter_eq_self.mpr fun _ _ => rfl

theorem sweep_eq (h : 0 < shares) : x.sweepToFillAtLimit isBuy shares limit =
    (((x.sweepGrants isBuy shares limit).map Prod.snd).sum,
      if 0 < ((x.sweepGrants isBuy shares limit).map Prod.snd).sum then
        ((x.sweepGrants isBuy shares limit).map fun p => (p.2 : ℚ) * x.eff isBuy p.1).sum /
          (((x.sweepGrants isBuy shares limit).map Prod.snd).sum : Int)
      else 0) := by
  unfold sweepToFillAtLimit
  rw [if_neg (by omega), sweepLoop_eq, filter_unused, Int.zero_add, zero_add]
  rfl

theorem sweep_filled (x : SmartOrderRouter) (isBuy : Bool) (limit : ℚ) (h : 0 < shares) : (x.sweepToFillAtLimit isBuy shares limit).1 =
    min shares (totalOf (x.within isBuy limit) (x.shown isBuy)) := by
  rw [sweep_eq h]
  exact (x.ranking_priced isBuy limit).granted h.le

/-- The average price is the cost per share. -/
theorem sweep_cost (x : SmartOrderRouter) (isBuy : Bool) (limit : ℚ) (h : 0 < shares) :
    (x.sweepToFillAtLimit isBuy shares limit).2 * ((x.sweepToFillAtLimit isBuy shares limit).1 : ℚ) =
      costOf (x.eff isBuy) (x.within isBuy limit) (share (x.sweepGrants isBuy shares limit)) := by
  have hp := x.ranking_priced isBuy limit
  rw [sweep_eq h, sweepGrants, hp.cost]
  split
  · rename_i hpos
    refine div_mul_cancel₀ _ ?_
    exact_mod_cast hpos.ne'
  · rename_i hnone
    have hnil : allot (x.shown isBuy) shares (x.ranking isBuy limit) = [] := by
      by_contra hne
      exact hnone (allot_sum_pos hp.pos' hne)
    rw [hnil]
    simp

theorem touch_eq (h : 0 < shares) : x.venuesToFillAtLimit isBuy shares limit =
    if (x.sweepToFillAtLimit isBuy shares limit).1 < shares then -1 else ((x.sweepGrants isBuy shares limit).length : Int) := by
  unfold venuesToFillAtLimit
  rw [if_neg (by omega), touchLoop_eq, filter_unused, Int.zero_add, sweep_eq h]
  change (if 0 < shares - ((x.sweepGrants isBuy shares limit).map Prod.snd).sum then _ else _) = _
  by_cases hshort : ((x.sweepGrants isBuy shares limit).map Prod.snd).sum < shares
  · rw [if_pos (by omega), if_pos hshort]
  · rw [if_neg (by omega), if_neg hshort]
    rfl

/-! ## The sweep and its siblings -/

/-- A limit that lets every candidate through. -/
def Admits (x : SmartOrderRouter) (isBuy : Bool) (limit : ℚ) : Prop :=
  ∀ i ∈ x.candidates isBuy, past isBuy limit (x.eff isBuy i) = false

theorem within_eq (h : x.Admits isBuy limit) : x.within isBuy limit = x.candidates isBuy :=
  filter_eq_self.mpr fun i hi => by rw [h i hi]; rfl

/-- The decision fills as much as the sweep does, at the same all-in cost. -/
def SameFill (x : SmartOrderRouter) (isBuy : Bool) (shares : Int) (limit : ℚ) (d : RouteDecision) : Prop :=
  (x.sweepToFillAtLimit isBuy shares limit).1 = d.quantity ∧
    (x.sweepToFillAtLimit isBuy shares limit).2 * (x.sweepToFillAtLimit isBuy shares limit).1 = d.effectivePrice * d.quantity

/-- The sweep fills what there is within the limit, at the best cost; the venues to fill are as few as the ranking allows. -/
structure SweepExact (x : SmartOrderRouter) (isBuy : Bool) (shares : Int) (limit : ℚ) : Prop where
  filled : (x.sweepToFillAtLimit isBuy shares limit).1 = min shares (x.liquidityAtLimit isBuy limit)
  cost : ∃ a, Feasible (x.shown isBuy) (x.within isBuy limit) a ∧
    totalOf (x.within isBuy limit) a = (x.sweepToFillAtLimit isBuy shares limit).1 ∧
    costOf (x.eff isBuy) (x.within isBuy limit) a =
      (x.sweepToFillAtLimit isBuy shares limit).2 * (x.sweepToFillAtLimit isBuy shares limit).1 ∧
    ∀ b, Feasible (x.shown isBuy) (x.within isBuy limit) b →
      totalOf (x.within isBuy limit) b = (x.sweepToFillAtLimit isBuy shares limit).1 →
      if isBuy then costOf (x.eff isBuy) (x.within isBuy limit) a ≤ costOf (x.eff isBuy) (x.within isBuy limit) b
      else costOf (x.eff isBuy) (x.within isBuy limit) b ≤ costOf (x.eff isBuy) (x.within isBuy limit) a
  short : x.venuesToFillAtLimit isBuy shares limit = -1 ↔ (x.sweepToFillAtLimit isBuy shares limit).1 < shares
  least : shares ≤ (x.sweepToFillAtLimit isBuy shares limit).1 → ∃ (l : List Nat) (k : Nat),
    l.Perm (x.within isBuy limit) ∧ l.Pairwise (Ahead (x.rank isBuy)) ∧
    x.venuesToFillAtLimit isBuy shares limit = k ∧ IsLeast {k : Nat | shares ≤ ((l.take k).map (x.shown isBuy)).sum} k
  split : x.Admits isBuy limit → ∀ t0 t1,
    SameFill x isBuy shares limit (x.splitOrder (x.candidates isBuy) isBuy shares t0 t1).1
  routed : x.Admits isBuy limit → x.splitThreshold ≤ shares → ∀ side t0 t1, isBuySide side = isBuy →
    SameFill x isBuy shares limit (x.routeOrder side shares .split t0 t1).1

theorem sweep_best (x : SmartOrderRouter) (isBuy : Bool) (limit : ℚ) (h : 0 < shares) {b : Nat → Int}
    (hb : Feasible (x.shown isBuy) (x.within isBuy limit) b)
    (hsum : totalOf (x.within isBuy limit) b = (x.sweepToFillAtLimit isBuy shares limit).1) :
    if isBuy then costOf (x.eff isBuy) (x.within isBuy limit) (share (x.sweepGrants isBuy shares limit)) ≤
      costOf (x.eff isBuy) (x.within isBuy limit) b
    else costOf (x.eff isBuy) (x.within isBuy limit) b ≤
      costOf (x.eff isBuy) (x.within isBuy limit) (share (x.sweepGrants isBuy shares limit)) := by
  have hp := x.ranking_priced isBuy limit
  have htotal : totalOf (x.within isBuy limit) b = totalOf (x.within isBuy limit) (share (x.sweepGrants isBuy shares limit)) := by
    rw [hsum, x.sweep_filled isBuy limit h]
    exact (hp.total h.le).symm
  have hbest := hp.cheapest hb htotal
  rw [costOf_rank, costOf_rank] at hbest
  cases isBuy
  · exact neg_le_neg_iff.mp hbest
  · exact hbest

theorem sweep_touches (h : 0 < shares) (hfull : shares ≤ (x.sweepToFillAtLimit isBuy shares limit).1) :
    x.venuesToFillAtLimit isBuy shares limit = (x.sweepGrants isBuy shares limit).length ∧
      IsLeast {k : Nat | shares ≤ (((x.ranking isBuy limit).take k).map (x.shown isBuy)).sum}
        (x.sweepGrants isBuy shares limit).length := by
  have hp := x.ranking_priced isBuy limit
  rw [touch_eq h, if_neg (by omega)]
  refine ⟨rfl, allot_length_isLeast hp.pos' ?_⟩
  have htotal : totalOf (x.ranking isBuy limit) (x.shown isBuy) = totalOf (x.within isBuy limit) (x.shown isBuy) :=
    totalOf_perm hp.perm _
  rw [x.sweep_filled isBuy limit h, ← htotal] at hfull
  exact hfull.trans (min_le_right _ _)

theorem splitOrder_nil (x : SmartOrderRouter) (isBuy : Bool) (q t0 t1 : Int) :
    (x.splitOrder [] isBuy q t0 t1).1 = { rejectReason := .noLiquidity } := rfl

/-- Two allocations of the same total that nothing beats cost the same. -/
theorem sweep_split (h : 0 < shares) (hall : x.Admits isBuy limit) (t0 t1 : Int) :
    SameFill x isBuy shares limit (x.splitOrder (x.candidates isBuy) isBuy shares t0 t1).1 := by
  have hfilled := x.sweep_filled isBuy limit h
  have hcost := x.sweep_cost isBuy limit h
  have hp := x.ranking_priced isBuy limit
  have hbest := @sweep_best shares x isBuy limit h
  have htotal := hp.total h.le
  have hfeasible := hp.feasible shares
  unfold SameFill
  rw [within_eq hall] at hfilled hcost hbest htotal hfeasible
  by_cases hne : x.candidates isBuy = []
  · rw [hcost, hfilled, hne, splitOrder_nil]
    have hnone : min shares (totalOf [] (x.shown isBuy)) = 0 := min_eq_right h.le
    rw [hnone]
    exact ⟨rfl, by simp [costOf]⟩
  · obtain ⟨-, hexact⟩ := splitOrder_exact t0 t1 hne h
    have hquantity : (x.sweepToFillAtLimit isBuy shares limit).1 = (x.splitOrder (x.candidates isBuy) isBuy shares t0 t1).1.quantity := by
      rw [hfilled, hexact.quantity]
    refine ⟨hquantity, ?_⟩
    have h1 := hbest hexact.feasible (hexact.total.trans hquantity.symm)
    have h2 := hexact.best _ hfeasible (htotal.trans hexact.quantity.symm)
    rw [hcost]
    rw [hexact.cost] at h1
    cases isBuy
    · exact le_antisymm h2 h1
    · exact le_antisymm h1 h2

theorem sweep_exact (x : SmartOrderRouter) (isBuy : Bool) (shares : Int) (limit : ℚ) (h : 0 < shares)
    (hfit : totalOf (x.candidates isBuy) (x.shown isBuy) ≤ int32Max) : SweepExact x isBuy shares limit := by
  have hp := x.ranking_priced isBuy limit
  constructor
  case filled =>
    rw [x.sweep_filled isBuy limit h, liquidityAtLimit_eq hfit]
  case cost =>
    refine ⟨_, hp.feasible shares, ?_, (x.sweep_cost isBuy limit h).symm, fun b hb hsum => x.sweep_best isBuy limit h hb hsum⟩
    rw [x.sweep_filled isBuy limit h]
    exact hp.total h.le
  case short =>
    rw [touch_eq h]
    split
    · rename_i hshort
      exact ⟨fun _ => hshort, fun _ => rfl⟩
    · rename_i hfull
      refine ⟨fun hc => ?_, fun hc => absurd hc hfull⟩
      omega
  case least =>
    intro hfull
    obtain ⟨htouch, hleast⟩ := sweep_touches h hfull
    exact ⟨_, _, hp.perm, x.ranking_ahead isBuy limit, htouch, hleast⟩
  case split =>
    intro hall t0 t1
    exact sweep_split h hall t0 t1
  case routed =>
    intro hall hthr side t0 t1 hside
    have hsplit := sweep_split h hall t0 t1
    rw [routeOrder_split hthr, hside]
    by_cases hne : x.candidates isBuy = []
    · rw [hne] at hsplit ⊢
      exact hsplit
    · rw [if_neg (by simpa using hne)]
      exact hsplit

theorem sweep_exact_three : (threeVenues.sweepToFillAtLimit true 700 (201 / 2)).1 = 600 ∧ SweepExact threeVenues true 700 (201 / 2) :=
  ⟨by decide +kernel, sweep_exact threeVenues true 700 (201 / 2) (by decide) (by decide)⟩

end SmartOrderRouter

end HftLab.Router
