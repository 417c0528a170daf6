/-
  HftLab.Router.Decisions — what one call leaves behind.

  A routing decision changes the records of its candidates and the totals, nothing else of a venue (`Decided`). Any
  other call changes the first venue of a name, or the list; `exec_venue` says of each venue after a call which one it
  was before, and what of it can be new.
-/

import HftLab.Router.Operations
import HftLab.Router.Split

namespace HftLab.Router

open Lib List

namespace SmartOrderRouter

variable {x x' x'' : SmartOrderRouter} {isBuy : Bool} {i : Nat} {n m q t0 t1 : Int} {l : List Nat} {side venueName : String}
  {strat : RoutingStrategy}

/-! ## The records -/

/-- `n` shares are recorded between `x` and `x'`, at the venues `l`. -/
structure Routed (x x' : SmartOrderRouter) (l : List Nat) (n : Int) : Prop where
  length : x'.venues.length = x.venues.length
  others : ∀ j, j ∉ l → x'.venue j = x.venue j
  rest : ∀ j, ∃ shares count, x'.venue j = { x.venue j with routedShares := shares, routesCount := count }
  total : x'.totalRoutedShares = x.totalRoutedShares + n
  unfilled : x'.totalUnfilledShares = x.totalUnfilledShares
  notional : x'.totalRoutedNotional = x.totalRoutedNotional

theorem Routed.refl (x : SmartOrderRouter) (l : List Nat) : Routed x x l 0 :=
  ⟨rfl, fun _ _ => rfl, fun _ => ⟨_, _, rfl⟩, (Int.add_zero _).symm, rfl, rfl⟩

theorem Routed.trans (h : Routed x x' l n) (h' : Routed x' x'' l m) : Routed x x'' l (n + m) := by
  constructor
  · exact h'.length.trans h.length
  · intro j hj
    exact (h'.others j hj).trans (h.others j hj)
  · intro j
    obtain ⟨_, _, h1⟩ := h.rest j
    obtain ⟨shares, count, h2⟩ := h'.rest j
    exact ⟨shares, count, by rw [h2, h1]⟩
  · rw [h'.total, h.total]
    omega
  · exact h'.unfilled.trans h.unfilled
  · exact h'.notional.trans h.notional

theorem Routed.cast (h : Routed x x' l n) (e : n = m) : Routed x x' l m := e ▸ h

theorem sum_modify_routed (l : List Venue) (hi : i < l.length) (n : Int) :
    ((l.modify i (·.routed n)).map (·.routedShares)).sum = (l.map (·.routedShares)).sum + n := by
  induction l generalizing i with
  | nil => cases hi
  | cons v l ih =>
    cases i with
    | zero =>
      have hv : (v.routed n).routedShares = v.routedShares + n := rfl
      rw [modify_zero_cons, map_cons, sum_cons, map_cons, sum_cons, hv]
      omega
    | succ i =>
      rw [modify_succ_cons, map_cons, sum_cons, map_cons, sum_cons, ih (Nat.lt_of_succ_lt_succ hi)]
      omega

theorem record_routed (hi : i < x.venues.length) (hl : i ∈ l) (n : Int) : Routed x (x.record i n) l n := by
  constructor
  · exact x.length_record i n
  · intro j hj
    rw [venue_record hi, if_neg fun e : i = j => hj (e ▸ hl)]
  · intro j
    rw [venue_record hi]
    split
    · exact ⟨_, _, rfl⟩
    · exact ⟨_, _, rfl⟩
  · exact sum_modify_routed x.venues hi n
  · rfl
  · rfl

theorem splitLoop_routed (isBuy : Bool) {s : Split} (l' : List Nat) (hlt : ∀ i ∈ l', i < s.router.venues.length) (hl : ∀ i ∈ l', i ∈ l) :
    Routed s.router (splitLoop isBuy l' s).router l ((splitLoop isBuy l' s).filled - s.filled) := by
  induction l' generalizing s with
  | nil =>
    simp only [splitLoop, Int.sub_self]
    exact Routed.refl _ l
  | cons i l' ih =>
    have hi := hlt i mem_cons_self
    have hrest := fun j hj => hlt j (mem_cons_of_mem i hj)
    have hrest' := fun j hj => hl j (mem_cons_of_mem i hj)
    unfold splitLoop
    split
    · dsimp only
      split
      · exact ih hrest hrest'
      · have hstep := record_routed hi (hl i mem_cons_self) (min s.remaining ((s.router.venue i).size isBuy))
        have hloop := ih (s := s.pay isBuy i (min s.remaining ((s.router.venue i).size isBuy)))
          (fun j hj => (hrest j hj).trans_eq (length_record ..).symm) hrest'
        refine (hstep.trans hloop).cast ?_
        change _ + ((splitLoop isBuy l' (s.pay isBuy i _)).filled - (s.filled + _)) = (splitLoop isBuy l' (s.pay isBuy i _)).filled - _
        omega
    · rw [Int.sub_self]
      exact Routed.refl _ l

/-! ## Decisions -/

/-- `d` is a decision on an order of `q`, and `x'` what it makes of `x`. -/
structure Decided (x : SmartOrderRouter) (isBuy : Bool) (q : Int) (d : RouteDecision) (x' : SmartOrderRouter) : Prop where
  length : x'.venues.length = x.venues.length
  others : ∀ j, j ∉ x.candidates isBuy → x'.venue j = x.venue j
  rest : ∀ j, ∃ shares count, x'.venue j = { x.venue j with routedShares := shares, routesCount := count }
  total : x'.totalRoutedShares = x.totalRoutedShares + d.quantity
  unfilled : x'.totalUnfilledShares = x.totalUnfilledShares + d.unfilledQty
  notional : x'.totalRoutedNotional = x.totalRoutedNotional + d.price * d.quantity
  rejected : d.valid = false → d.quantity = 0 ∧ d.unfilledQty = 0
  venue : d.valid = true → ∃ i ∈ x.candidates isBuy, d.venue = (x.venue i).name
  requested : d.valid = true → d.quantity + d.unfilledQty = q
  filled : d.valid = true → 0 < q → 0 < d.quantity

/-- Shares were recorded at candidates, and the decision went into the totals. -/
theorem Routed.decided {d : RouteDecision} (h : Routed x x' (x.candidates isBuy) d.quantity) (hvalid : d.valid)
    (hvenue : ∃ i ∈ x.candidates isBuy, d.venue = (x.venue i).name) (hreq : d.quantity + d.unfilledQty = q)
    (hfilled : 0 < q → 0 < d.quantity) : Decided x isBuy q d (x'.account d) where
  length := h.length
  others := h.others
  rest := h.rest
  total := h.total
  unfilled := congrArg (· + d.unfilledQty) h.unfilled
  notional := congrArg (· + d.price * d.quantity) h.notional
  rejected hc := by
    rw [hvalid] at hc
    cases hc
  venue _ := hvenue
  requested _ := hreq
  filled _ := hfilled

theorem Routed.rejected (h : Routed x x' (x.candidates isBuy) 0) (reason : RouteReject) :
    Decided x isBuy q (x'.reject reason).1 (x'.reject reason).2 where
  length := h.length
  others := h.others
  rest := h.rest
  total := h.total
  unfilled := h.unfilled.trans (Int.add_zero _).symm
  notional := by
    change x'.totalRoutedNotional = x.totalRoutedNotional + 0 * ((0 : Int) : ℚ)
    rw [h.notional, zero_mul, add_zero]
  rejected _ := ⟨rfl, rfl⟩
  venue hc := by cases hc
  requested hc := by cases hc
  filled hc := by cases hc

theorem single_mem (x : SmartOrderRouter) (isBuy : Bool) (strat : RoutingStrategy) (h : l ≠ []) : x.single isBuy strat l ∈ l := by
  cases l with
  | nil => exact absurd rfl h
  | cons i l =>
    unfold single
    dsimp only
    split
    · exact foldl_best_mem l i
    · exact foldl_best_mem l i

theorem routeSingle_decided (hi : i ∈ x.candidates isBuy) : Decided x isBuy q (x.routeSingle i isBuy q t0 t1).1
    (x.routeSingle i isBuy q t0 t1).2 := by
  have hlt := (mem_candidates.mp hi).1
  have hpos := shown_pos hi
  refine Routed.decided (record_routed hlt hi _) rfl ⟨i, hi, rfl⟩ ?_ fun hq => ?_
  · exact add_sub_cancel ..
  · exact lt_min hq hpos

theorem splitOrder_decided (hne : x.candidates isBuy ≠ []) : Decided x isBuy q
    (x.splitOrder (x.candidates isBuy) isBuy q t0 t1).1 (x.splitOrder (x.candidates isBuy) isBuy q t0 t1).2 := by
  have hp := x.sorted_perm isBuy (x.candidates isBuy)
  have hmem : ∀ i ∈ x.sorted isBuy (x.candidates isBuy), i ∈ x.candidates isBuy := fun i hi => hp.subset hi
  have hlt : ∀ i ∈ x.sorted isBuy (x.candidates isBuy), i < x.venues.length := fun i hi => (mem_candidates.mp (hmem i hi)).1
  have hrouted := splitLoop_routed isBuy (s := { router := x, remaining := q }) _ hlt hmem
  have hpays : Pays isBuy _ _ _ := splitLoop_pays { router := x, remaining := q } hlt fun i hi => shown_pos (hmem i hi)
  rw [Int.sub_zero] at hrouted
  unfold splitOrder
  dsimp only
  split
  · rename_i hzero
    exact (hrouted.cast hzero).rejected _
  · rename_i hnz
    obtain ⟨i, l, hl⟩ := exists_cons_of_ne_nil fun hc => hne (List.Perm.nil_eq (hc ▸ hp)).symm
    refine Routed.decided hrouted rfl ⟨i, hmem i (hl ▸ mem_cons_self), ?_⟩ ?_ fun hq => ?_
    · rw [hl]
      rfl
    · exact add_sub_cancel ..
    · have hsum := hpays.filled
      have htotal := shown_sum_pos hne
      rw [x.sorted_priced isBuy |>.granted hq.le] at hsum
      dsimp only at hsum ⊢
      omega

theorem routeOrder_decided (x : SmartOrderRouter) (side : String) (q : Int) (strat : RoutingStrategy) (t0 t1 : Int) :
    Decided x (isBuySide side) q (x.routeOrder side q strat t0 t1).1 (x.routeOrder side q strat t0 t1).2 := by
  unfold routeOrder
  dsimp only
  split
  · exact (Routed.refl x _).rejected _
  · rename_i hne
    have hne : x.candidates (isBuySide side) ≠ [] := fun hc => hne (List.isEmpty_iff.mpr hc)
    split
    · exact splitOrder_decided hne
    · exact routeSingle_decided (x.single_mem _ strat hne)

end SmartOrderRouter

/-! ## Calls -/

/-- The call is one that makes the first venue of the name active. -/
def Op.enables (name : String) : Op → Bool
  | .recordLatency venueName observedNs => venueName = name && 0 < observedNs
  | .recordSuccess venueName => venueName = name
  | .setVenueActive venueName active => venueName = name && active
  | _ => false

/-- The call may make `w` of the venue `v`. -/
structure Op.Follows (op : Op) (v w : Venue) : Prop where
  name : w.name = v.name
  active : w.isActive = true → v.isActive = true ∨ op.enables v.name = true
  fee : w.feePerShare = v.feePerShare ∨ ∃ name f, op = .setVenueFee name f ∧ w.feePerShare = f

theorem Op.Follows.refl (op : Op) (v : Venue) : op.Follows v v := ⟨rfl, fun h => .inl h, .inl rfl⟩

namespace SmartOrderRouter

variable {x : SmartOrderRouter} {venueName : String}

theorem mem_onVenue {f : Venue → Venue} {w : Venue} (h : w ∈ (x.onVenue venueName f).venues) :
    w ∈ x.venues ∨ ∃ v ∈ x.venues, v.name = venueName ∧ w = f v := by
  obtain ⟨j, hj, rfl⟩ := getElem_of_mem h
  simp only [onVenue, length_modify] at hj
  simp only [onVenue, getElem_modify]
  split
  · rename_i hplace
    refine .inr ⟨x.venues[j], getElem_mem hj, ?_, rfl⟩
    unfold placeOf at hplace
    subst hplace
    simpa using findIdx_getElem (w := hj)
  · exact .inl (getElem_mem hj)

/-- A venue after an update of the first of a name. -/
theorem onVenue_follows {op : Op} {f : Venue → Venue} {w : Venue} (hw : w ∈ (x.onVenue venueName f).venues)
    (hf : ∀ v, v.name = venueName → op.Follows v (f v)) : ∃ v ∈ x.venues, op.Follows v w := by
  rcases mem_onVenue hw with hw | ⟨v, hv, hname, rfl⟩
  · exact ⟨w, hw, .refl op w⟩
  · exact ⟨v, hv, hf v hname⟩

theorem venue_eq_getElem {i : Nat} (hi : i < x.venues.length) : x.venue i = x.venues[i] := by
  simp [venue, hi]

theorem Decided.follows {x' : SmartOrderRouter} {isBuy : Bool} {q : Int} {d : RouteDecision} (h : Decided x isBuy q d x')
    (op : Op) : ∀ w ∈ x'.venues, ∃ v ∈ x.venues, op.Follows v w := by
  intro w hw
  obtain ⟨j, hj, rfl⟩ := getElem_of_mem hw
  have hj' : j < x.venues.length := h.length ▸ hj
  obtain ⟨shares, count, hrest⟩ := h.rest j
  rw [venue_eq_getElem hj, venue_eq_getElem hj'] at hrest
  refine ⟨x.venues[j], getElem_mem hj', ?_⟩
  rw [hrest]
  exact ⟨rfl, fun ha => .inl ha, .inl rfl⟩

/-- Where a venue comes from: it was there, or the call adds it. -/
theorem exec_venue (x : SmartOrderRouter) (op : Op) :
    ∀ w ∈ (x.exec op).venues, (∃ v ∈ x.venues, op.Follows v w) ∨ (op = .addVenue w ∧ x.venues.length < MAX_VENUES) := by
  intro w hw
  cases op with
  | addVenue v =>
    simp only [exec, addVenue] at hw
    split at hw
    · rename_i hroom
      rcases mem_append.mp hw with hw | hw
      · exact .inl ⟨w, hw, .refl _ w⟩
      · exact .inr ⟨congrArg Op.addVenue (mem_singleton.mp hw).symm, hroom⟩
    · exact .inl ⟨w, hw, .refl _ w⟩
  | removeVenue name => exact .inl ⟨w, mem_of_mem_eraseIdx hw, .refl _ w⟩
  | recordLatency name ns =>
    simp only [exec, recordLatency] at hw
    split at hw
    · exact .inl ⟨w, hw, .refl _ w⟩
    · rename_i hpos
      refine .inl (onVenue_follows hw fun v hv => ⟨rfl, fun _ => .inr ?_, .inl rfl⟩)
      simp [Op.enables, hv, not_le.mp hpos]
  | setFailureThreshold n =>
    simp only [exec, setFailureThreshold] at hw
    split at hw
    · exact .inl ⟨w, hw, .refl _ w⟩
    · exact .inl ⟨w, hw, .refl _ w⟩
  | recordReject name =>
    refine .inl (onVenue_follows hw fun v _ => ⟨rfl, fun ha => .inl ?_, .inl rfl⟩)
    dsimp only at ha
    split at ha
    · cases ha
    · exact ha
  | recordSuccess name =>
    refine .inl (onVenue_follows hw fun v hv => ⟨rfl, fun _ => .inr ?_, .inl rfl⟩)
    simp [Op.enables, hv]
  | setVenueActive name active =>
    refine .inl (onVenue_follows hw fun v hv => ⟨rfl, fun ha => .inr ?_, .inl rfl⟩)
    simp only [Op.enables, hv, decide_true, Bool.true_and]
    exact ha
  | updateQuote name bid ask bidSize askSize =>
    exact .inl (onVenue_follows hw fun v _ => ⟨rfl, fun ha => .inl ha, .inl rfl⟩)
  | setVenueFee name fee =>
    exact .inl (onVenue_follows hw fun v _ => ⟨rfl, fun ha => .inl ha, .inr ⟨name, fee, rfl, rfl⟩⟩)
  | routeOrder side q strat t0 t1 => exact .inl ((x.routeOrder_decided side q strat t0 t1).follows _ w hw)
  | resetRoutingStats =>
    obtain ⟨v, hv, rfl⟩ := mem_map.mp hw
    exact .inl ⟨v, hv, rfl, fun ha => .inl ha, .inl rfl⟩
  | resetSessionStats =>
    obtain ⟨v, hv, rfl⟩ := mem_map.mp hw
    exact .inl ⟨v, hv, rfl, fun ha => .inl ha, .inl rfl⟩

end SmartOrderRouter

end HftLab.Router
