/-
  HftLab.Router.RoutingLedger — the totals of the router against its decisions.

  What was routed is the sum over the venues of their counters, what was not is one accumulator, and so is the
  notional. Every call keeps the three in step with the history (`Books`), but for two: a removed venue takes its
  counter along, and a venue may be added with a counter of its own. `drift` is what the two come to over a run; the
  ledger is right if and only if it is 0 (`ledger_right_iff`).
-/

import HftLab.Router.Decisions
import Mathlib.Algebra.BigOperators.Ring.Finset

namespace HftLab.Router

open Lib List

/-- What the router was asked to route, and its decision. -/
abbrev Route := Int × RouteDecision

/-- The call routes a positive quantity, or it is none of the resets. -/
def Op.keepsLedger : Op → Bool
  | .routeOrder _ quantity _ _ _ => 0 < quantity
  | .resetRoutingStats => false
  | .resetSessionStats => false
  | _ => true

namespace SmartOrderRouter

/-- The valid decisions of a run. -/
def routes : SmartOrderRouter → List Op → List Route
  | _, [] => []
  | x, op :: ops =>
    match op with
    | .routeOrder side quantity strat t0 t1 =>
      let d := (x.routeOrder side quantity strat t0 t1).1
      if d.valid then (quantity, d) :: routes (x.exec op) ops else routes (x.exec op) ops
    | _ => routes (x.exec op) ops

/-- The routed shares that the call brings with a venue, or takes away with one. -/
def brings (x : SmartOrderRouter) : Op → Int
  | .addVenue v => if x.venues.length < MAX_VENUES then v.routedShares else 0
  | .removeVenue venueName => if x.known venueName then -(x.venue (x.placeOf venueName)).routedShares else 0
  | _ => 0

def drift : SmartOrderRouter → List Op → Int
  | _, [] => 0
  | x, op :: ops => x.brings op + drift (x.exec op) ops

/-- The totals are those of the decisions, and the average price is between the lowest and the highest of theirs. -/
structure LedgerRight (rs : List Route) (x : SmartOrderRouter) : Prop where
  routed : x.totalRoutedShares = (rs.map (·.2.quantity)).sum
  requested : x.totalRoutedShares + x.totalUnfilledShares = (rs.map (·.1)).sum
  price : rs ≠ [] → (∃ r ∈ rs, r.2.price ≤ x.avgRoutedPrice) ∧ ∃ r ∈ rs, x.avgRoutedPrice ≤ r.2.price

section

variable {x x' x'' : SmartOrderRouter} {venueName : String} {op : Op} {ops : List Op} {rs rs' : List Route} {n m : Int}

/-- Between `x` and `x'` the routes `rs` went into the totals, and `n` shares came with venues. -/
structure Books (x : SmartOrderRouter) (rs : List Route) (n : Int) (x' : SmartOrderRouter) : Prop where
  routed : x'.totalRoutedShares = x.totalRoutedShares + n + (rs.map (·.2.quantity)).sum
  unfilled : x'.totalUnfilledShares = x.totalUnfilledShares + (rs.map (·.2.unfilledQty)).sum
  notional : x'.totalRoutedNotional = x.totalRoutedNotional + (rs.map fun r => r.2.price * (r.2.quantity : ℚ)).sum
  requested : ∀ r ∈ rs, r.2.quantity + r.2.unfilledQty = r.1
  filled : ∀ r ∈ rs, 0 < r.2.quantity

theorem Books.still (h1 : x'.totalRoutedShares = x.totalRoutedShares + n) (h2 : x'.totalUnfilledShares = x.totalUnfilledShares)
    (h3 : x'.totalRoutedNotional = x.totalRoutedNotional) : Books x [] n x' := by
  constructor
  · rw [h1, map_nil, sum_nil, Int.add_zero]
  · rw [h2, map_nil, sum_nil, Int.add_zero]
  · rw [h3, map_nil, sum_nil, add_zero]
  · simp
  · simp

theorem Books.trans (h : Books x rs n x') (h' : Books x' rs' m x'') : Books x (rs ++ rs') (n + m) x'' := by
  constructor
  · rw [h'.routed, h.routed, map_append, sum_append]
    omega
  · rw [h'.unfilled, h.unfilled, map_append, sum_append]
    omega
  · rw [h'.notional, h.notional, map_append, sum_append]
    ring
  · intro r hr
    exact (mem_append.mp hr).elim (h.requested r) (h'.requested r)
  · intro r hr
    exact (mem_append.mp hr).elim (h.filled r) (h'.filled r)

/-! ## One call -/

theorem sum_modify_same {f : Venue → Venue} (hf : ∀ v, (f v).routedShares = v.routedShares) (l : List Venue) (i : Nat) :
    ((l.modify i f).map (·.routedShares)).sum = (l.map (·.routedShares)).sum := by
  induction l generalizing i with
  | nil => simp
  | cons v l ih =>
    cases i with
    | zero => simp [hf]
    | succ i => simp [ih]

theorem onVenue_books {f : Venue → Venue} (hf : ∀ v, (f v).routedShares = v.routedShares) :
    Books x [] 0 (x.onVenue venueName f) :=
  .still ((sum_modify_same hf _ _).trans (Int.add_zero _).symm) rfl rfl

theorem addVenue_books (v : Venue) : Books x [] (x.brings (.addVenue v)) (x.addVenue v) := by
  by_cases h : x.venues.length < MAX_VENUES
  · have hadd : (x.addVenue v).venues = x.venues ++ [v] := by simp [addVenue, h]
    rw [brings, if_pos h]
    refine .still ?_ (by simp [addVenue, h]) (by simp [addVenue, h])
    simp [totalRoutedShares, hadd]
  · have hadd : x.addVenue v = x := by simp [addVenue, h]
    rw [brings, if_neg h, hadd]
    exact .still (Int.add_zero _).symm rfl rfl

theorem placeOf_lt (h : x.known venueName) : x.placeOf venueName < x.venues.length := by
  obtain ⟨v, hv, hname⟩ := any_eq_true.mp h
  exact findIdx_lt_length_of_exists ⟨v, hv, hname⟩

theorem removeVenue_books : Books x [] (x.brings (.removeVenue venueName)) (x.removeVenue venueName).2 := by
  refine .still ?_ rfl rfl
  unfold totalRoutedShares brings removeVenue
  dsimp only
  split
  · rename_i hknown
    have hlt := placeOf_lt hknown
    have hperm := (getElem_cons_eraseIdx_perm hlt).map (·.routedShares)
    have hsum := hperm.sum_eq
    rw [map_cons, sum_cons] at hsum
    rw [venue_eq_getElem hlt]
    omega
  · rename_i hknown
    have hlen : x.placeOf venueName = x.venues.length := by
      refine findIdx_eq_length_of_false fun v hv => ?_
      refine Bool.eq_false_iff.mpr fun hc => hknown ?_
      exact any_eq_true.mpr ⟨v, hv, hc⟩
    rw [eraseIdx_of_length_le hlen.ge, Int.add_zero]

/-- What a call adds to the history. -/
theorem exec_books (hop : op.keepsLedger) : Books x (x.routes [op]) (x.brings op) (x.exec op) := by
  cases op with
  | addVenue v => exact addVenue_books v
  | removeVenue name => exact removeVenue_books
  | recordLatency name ns =>
    simp only [exec, recordLatency]
    split
    · exact .still (Int.add_zero _).symm rfl rfl
    · exact onVenue_books fun _ => rfl
  | setFailureThreshold n =>
    simp only [exec, setFailureThreshold]
    split
    · exact .still (Int.add_zero _).symm rfl rfl
    · exact .still (Int.add_zero _).symm rfl rfl
  | recordReject name => exact onVenue_books fun _ => rfl
  | recordSuccess name => exact onVenue_books fun _ => rfl
  | setVenueActive name active => exact onVenue_books fun _ => rfl
  | updateQuote name bid ask bidSize askSize => exact onVenue_books fun _ => rfl
  | setVenueFee name fee => exact onVenue_books fun _ => rfl
  | routeOrder side q strat t0 t1 =>
    have hq : 0 < q := of_decide_eq_true hop
    have hd := x.routeOrder_decided side q strat t0 t1
    simp only [routes, brings, exec]
    cases hvalid : (x.routeOrder side q strat t0 t1).1.valid with
    | true =>
      rw [if_pos rfl]
      constructor
      · simp [hd.total]
      · simp [hd.unfilled]
      · simp [hd.notional]
      · simp [hd.requested hvalid]
      · simp [hd.filled hvalid hq]
    | false =>
      obtain ⟨h0, h1⟩ := hd.rejected hvalid
      rw [if_neg Bool.false_ne_true]
      refine .still ?_ ?_ ?_
      · rw [hd.total, h0]
      · rw [hd.unfilled, h1, Int.add_zero]
      · rw [hd.notional, h0, Int.cast_zero, mul_zero, add_zero]
  | resetRoutingStats => cases hop
  | resetSessionStats => cases hop

/-- The routed shares of a ledger that is right are positive once something was routed. -/
theorem sum_quantity_pos (h : ∀ r ∈ rs, 0 < r.2.quantity) (hne : rs ≠ []) : 0 < (rs.map (·.2.quantity)).sum := by
  refine sum_pos _ (fun y hy => ?_) (by simpa using hne)
  obtain ⟨r, hr, rfl⟩ := mem_map.mp hy
  exact h r hr

theorem routes_cons (x : SmartOrderRouter) (op : Op) (ops : List Op) :
    x.routes (op :: ops) = x.routes [op] ++ (x.exec op).routes ops := by
  cases op with
  | routeOrder side q strat t0 t1 =>
    simp only [routes]
    split
    · rfl
    · rfl
  | _ => rfl

/-- What a run adds. -/
theorem run_books (hops : ∀ op ∈ ops, op.keepsLedger) : Books x (x.routes ops) (x.drift ops) (x.run ops) := by
  induction ops generalizing x with
  | nil => exact .still (Int.add_zero _).symm rfl rfl
  | cons op ops ih =>
    rw [routes_cons, drift]
    exact (exec_books (hops op mem_cons_self)).trans (ih fun o ho => hops o (mem_cons_of_mem _ ho))

/-- A weighted average is not below all, and not above all. -/
theorem average_between (hpos : ∀ r ∈ rs, 0 < r.2.quantity) (hne : rs ≠ []) {avg : ℚ}
    (havg : avg * ((rs.map (·.2.quantity)).sum : Int) = (rs.map fun r => r.2.price * (r.2.quantity : ℚ)).sum) :
    (∃ r ∈ rs, r.2.price ≤ avg) ∧ ∃ r ∈ rs, avg ≤ r.2.price := by
  have hweights : (rs.map fun r => avg * (r.2.quantity : ℚ)).sum = (rs.map fun r => r.2.price * (r.2.quantity : ℚ)).sum := by
    rw [sum_map_mul_left, ← havg, Int.cast_list_sum, map_map]
    rfl
  have hcancel : ∀ r ∈ rs, ∀ a b : ℚ, a * (r.2.quantity : ℚ) ≤ b * (r.2.quantity : ℚ) → a ≤ b := by
    intro r hr a b hab
    have hq : (0 : ℚ) < r.2.quantity := by exact_mod_cast hpos r hr
    exact le_of_mul_le_mul_right hab hq
  constructor
  · obtain ⟨r, hr, hle⟩ := exists_le_of_sum_le hne _ _ hweights.ge
    exact ⟨r, hr, hcancel r hr _ _ hle⟩
  · obtain ⟨r, hr, hle⟩ := exists_le_of_sum_le hne _ _ hweights.le
    exact ⟨r, hr, hcancel r hr _ _ hle⟩

end

/-- In a run without a reset the ledger is right if and only if removed venues took no routed shares along that added
    ones did not bring. -/
theorem ledger_right_iff (defaultStrategy : RoutingStrategy) (splitThreshold : Int) (ops : List Op)
    (hops : ∀ op ∈ ops, op.keepsLedger = true) :
    let x := fresh defaultStrategy splitThreshold
    LedgerRight (x.routes ops) (x.run ops) ↔ x.drift ops = 0 := by
  intro x
  obtain ⟨hrouted, hunfilled, hnotional, hrequested, hfilled⟩ := run_books (x := x) hops
  have hzero : x.totalRoutedShares = 0 := rfl
  have hzero' : x.totalUnfilledShares = 0 := rfl
  have hzero'' : x.totalRoutedNotional = 0 := rfl
  rw [hzero, Int.zero_add] at hrouted
  rw [hzero', Int.zero_add] at hunfilled
  rw [hzero'', zero_add] at hnotional
  constructor
  · intro h
    have := h.routed
    omega
  · intro h
    rw [h, Int.zero_add] at hrouted
    refine ⟨hrouted, ?_, fun hne => ?_⟩
    · rw [hrouted, hunfilled, ← List.sum_map_add]
      exact congrArg List.sum (List.map_congr_left hrequested)
    · refine average_between hfilled hne ?_
      have hpos := sum_quantity_pos hfilled hne
      have hnz : ((x.run ops).totalRoutedShares : ℚ) ≠ 0 := by
        rw [hrouted]
        exact_mod_cast hpos.ne'
      rw [avgRoutedPrice, if_pos (hrouted ▸ hpos), ← hrouted, ← hnotional, div_mul_cancel₀ _ hnz]

/-- Two venues; the first takes an order it can fill in part, a split takes both. -/
def session : List Op :=
  [.addVenue { name := "A" }, .addVenue { name := "B" }, .updateQuote "A" 99 100 300 300, .updateQuote "B" 98 102 400 400,
    .routeOrder "BUY" 500 .bestPrice 0 9, .routeOrder "SELL" 600 .split 10 19]

theorem ledger_right_session : LedgerRight ((fresh .bestPrice 500).routes session) ((fresh .bestPrice 500).run session) :=
  (ledger_right_iff .bestPrice 500 session (by decide)).mpr (by decide +kernel)

/-- The venue that is removed takes its counter along, and the average price becomes 297 where no share was routed above 100. -/
theorem removed_venue_breaks_ledger : ¬ LedgerRight ((fresh .bestPrice 500).routes (session ++ [.removeVenue "A"]))
    ((fresh .bestPrice 500).run (session ++ [.removeVenue "A"])) := by
  intro h
  exact absurd h.routed (by decide +kernel)

end SmartOrderRouter

end HftLab.Router
