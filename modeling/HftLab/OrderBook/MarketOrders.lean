/-
  HftLab.OrderBook.MarketOrders — MARKET orders.

  `OrderType` says of MARKET that it has no price and consumes until exhausted, and `submit` waives its price check for it. All
  that follows still uses `price_ticks`: matching stops there, and `finish` queues what is left at that price, on the grid or off.

  - `market_order_served_iff`: a MARKET order finds all there is on the other side and leaves nothing behind exactly if its
    quantity rests there within `price_ticks`.
-/

import HftLab.OrderBook.Takings

namespace HftLab.OrderBook

open Lib

/-- `submit(side, price_ticks, qty, MARKET)`. -/
def Request.market (side : Side) (priceTicks qty : Int) : Request := { side, priceTicks, qty, type := .market }

/-- The price loop of the order in slot `i` ended at `c` and did what a MARKET order is for. -/
structure Served (V : Env) (b : Book) (r : Request) (i ts : Nat) (q : Int) (b₁ : Book) (n : Nat) (c : Book) (l : List Trade) : Prop where
  full : q = r.qty
  ends : Book.priceLoop V i ts n q b₁ = some c
  grid : ∀ y, Relation.ReflTransGen (Iterates V i ts) (q, b₁) y → ∀ p, y.2.nextLevel i = some p → inRange V p
  trades : c.tape.trades = b.tape.trades ++ l
  by_ : ∀ x ∈ l, x.takerOrderId = (b₁.order i).id
  amount : traded l = min r.qty (b.sideQty V r.side.other fun _ => true)
  outward : l.Pairwise fun x y => r.side.other.rank x.priceTicks ≤ r.side.other.rank y.priceTicks
  front : ∀ x ∈ l, ∀ p, c.core.Rests V r.side.other p → r.side.other.rank x.priceTicks ≤ r.side.other.rank p
  leaves : ∃ d, c.finish V i = some d ∧ ¬ d.core.Queued V i
  gone : ∀ m x b', Book.submit V m r b = some (x, b') → ¬ b'.core.Queued V i

/-- The order executes what there is on the other side, up to its quantity, and nothing of it comes to rest. One that is refused
    executes nothing and leaves nothing. -/
def Book.ServesMarket (V : Env) (r : Request) (b : Book) : Prop :=
  match b.startMatch V r with
  | none => b.sideQty V r.side.other (fun _ => true) = 0 ∧ ∀ n x b', Book.submit V n r b = some (x, b') → b'.core = b.core
  | some (i, ts, q, b₁) => ∃ n c l, Served V b r i ts q b₁ n c l

/-- The quantity that the order wants rests within its price; if it is refused, there is nothing to find. -/
def Book.MarketFits (V : Env) (r : Request) (b : Book) : Prop :=
  if (b.startMatch V r).isSome then
    r.qty ≤ b.sideQty V r.side.other fun p => decide (r.side.other.rank p ≤ r.side.other.rank r.priceTicks)
  else b.sideQty V r.side.other (fun _ => true) = 0

instance (V : Env) (r : Request) (b : Book) : Decidable (b.MarketFits V r) := inferInstanceAs (Decidable (ite _ _ _))

section

variable {V : Env} {b b₁ b' c d : Book} {r : Request} {i ts n : Nat} {q : Int}

/-- A filled order leaves the book. -/
theorem finish_filled (hw : Wf V b) (hi : i ∈ b.inFlight) (hfull : (b.core.body i).totalQty ≤ (b.core.body i).filledQty)
    (hf : b.finish V i = some b') : ¬ b'.core.Queued V i := by
  obtain ⟨-, -, hcase⟩ := finish_cases hw hi hf
  rcases hcase with ⟨hun, -⟩ | ⟨-, hlt, -⟩
  · intro hq
    obtain ⟨p, hp⟩ := hq
    rw [hun.queue] at hp
    exact hw.flying_ne_queued hp hi rfl
  · exact absurd hlt (Int.not_lt.mpr hfull)

/-- What is left of an order that is not an IOC comes to rest, on the grid. -/
theorem finish_left (hw : Wf V b) (hi : i ∈ b.inFlight) (hlt : (b.core.body i).filledQty < (b.core.body i).totalQty)
    (hioc : (b.core.body i).type ≠ .ioc ∧ (b.core.body i).tif ≠ .ioc) (hf : b.finish V i = some b') :
    inRange V (b.core.body i).priceTicks ∧ b'.core.Queued V i := by
  have hlt' : ¬ (b.order i).totalQty ≤ (b.order i).filledQty := not_le.mpr hlt
  have hioc' : ¬ ((b.order i).type = .ioc ∨ (b.order i).tif = .ioc) := fun h => h.elim hioc.1 hioc.2
  unfold Book.finish at hf
  rw [if_neg hlt', if_neg hioc'] at hf
  split at hf
  · rename_i hr
    cases hf
    refine ⟨hr, (b.core.body i).atRest.priceTicks, ?_⟩
    have hq : (b.restOrder i).core.queue V = Function.update (b.core.queue V) (b.core.body i).atRest.priceTicks
        (b.core.queue V (b.core.body i).atRest.priceTicks ++ [i]) := queue_of_view (hw.restOrder_view hi hr)
    rw [hq, Function.update_self]
    exact List.mem_append_right _ List.mem_cons_self
  · cases hf

/-- In continuous trading a MARKET order whose matching does not start is refused. -/
theorem refused_core {x : Nat × RejectReason} (hw : Wf V b) (hcont : b.gates.inAuctionMode = false) (ht : r.type = .market)
    (hm : b.startMatch V r = none) (h : Book.submit V n r b = some (x, b')) : b'.core = b.core := by
  obtain ⟨g, a, he, -⟩ := (admission_spec (V := V) (b := b) (r := r)).1
  rcases submit_cases hw (.inl trivial) h with ⟨reason, -, rfl, -⟩ | ⟨i, b₁, b2, n', -, hc, -⟩
  · rw [he]
    rfl
  · exfalso
    have hon : b₁.matchesOnEntry r := by
      unfold Book.matchesOnEntry
      rw [ht, hc.mode, hcont]
      rfl
    have hstart := hc.startMatch hon
    rw [hm] at hstart
    cases hstart

/-- Matching a MARKET order, up to its end. -/
theorem market_matched (h : Sweep V r.side.other b) (hw : Wf V b) (hstp : b.gates.stpPolicy = .none)
    (hm : b.startMatch V r = some (i, ts, q, b₁)) (hl : Book.priceLoop V i ts n q b₁ = some c) :
    ∃ q' l, Underway V r.side.other i b₁ r.qty q' c ∧ Takes V r.side.other (b₁.core.body i) b₁ c l ∧ r.qty = q' + traded l ∧
      traded l = min r.qty (b.sideQty V r.side.other fun p => decide (r.side.other.rank p ≤ r.side.other.rank r.priceTicks)) := by
  have hstart := startMatch_started hw hm
  obtain ⟨id, t0, hbody⟩ := hstart.body
  have hfull : q = r.qty := hstart.full
  have hsweep : Sweep V r.side.other b₁ := hstart.unmoved.sweep h (hstart.summed h.summed)
  have hside : (b₁.core.body i).side = r.side.other.other := by
    rw [hbody, Side.other_other]
    rfl
  have hfree : b₁.Unhindered V i r.side.other (b₁.core.body i).priceTicks := .inl (hstart.stpPolicy.trans hstp)
  have hprice : (b₁.core.body i).priceTicks = r.priceTicks := by
    rw [hbody]
    rfl
  rw [hfull] at hl
  obtain ⟨q', hu, -, hend⟩ := priceLoop_takes hsweep (hfull ▸ hstart.taking) (Int.le_of_lt hstart.pos) hside hfree hl
  obtain ⟨l, htakes, hsum⟩ := hu.takes
  refine ⟨q', l, hu, htakes, hsum, ?_⟩
  rw [hu.amount htakes hsum hend, hprice, hstart.unmoved.sideQty hw hstart.taking.wf]

end

/-- A MARKET order in a book in order: it executes what there is on the other side, from the best price outward and on the grid,
    and leaves nothing behind, exactly if its quantity rests within `price_ticks`. -/
theorem market_order_served_iff {V : Env} {P : Book → Op → Book → Prop} {b : Book} {side : Side} {priceTicks qty : Int}
    (h : Book.Reach V P b) (hcont : b.gates.inAuctionMode = false) (hstp : b.gates.stpPolicy = .none) (hs : Sweep V side.other b) :
    b.ServesMarket V (.market side priceTicks qty) ↔ b.MarketFits V (.market side priceTicks qty) := by
  have hw := (Reach.wf h).1
  unfold Book.ServesMarket Book.MarketFits
  cases hm : b.startMatch V (.market side priceTicks qty) with
  | none =>
    rw [if_neg (by decide)]
    exact ⟨fun hserved => hserved.1, fun hnone => ⟨hnone, fun n x b' hsub => refused_core hw hcont rfl hm hsub⟩⟩
  | some x =>
    obtain ⟨i, ts, q, b₁⟩ := x
    have hstart := startMatch_started hw hm
    obtain ⟨id, t₀, hbody⟩ := hstart.body
    have hq := hstart.pos
    have hsweep : Sweep V side.other b₁ := hstart.unmoved.sweep hs (hstart.summed hs.summed)
    rw [if_pos (by rfl : (some (i, ts, q, b₁)).isSome = true)]
    constructor
    · rintro ⟨n, c, l, hserved⟩
      obtain ⟨q', l', hu, htakes, hsum, hamount⟩ := market_matched hs hw hstp hm hserved.ends
      by_contra hless
      -- something is left, and it comes to rest
      have hleft : (c.core.body i).filledQty < (c.core.body i).totalQty := by
        rw [hu.body, hbody]
        show (0 : Int) + (qty - q') < qty
        have : 0 < q' := by
          have hqty : (Request.market side priceTicks qty).qty = qty := rfl
          omega
        omega
      obtain ⟨d, hd, hnot⟩ := hserved.leaves
      refine hnot (finish_left hu.taking.wf hu.taking.flying hleft ?_ hd).2
      rw [hu.body, hbody]
      exact ⟨OrderType.noConfusion, TimeInForce.noConfusion⟩
    · intro hfits
      obtain ⟨n, c, hl⟩ := hsweep.ends hstart.taking ts
      obtain ⟨q', l, hu, htakes, hsum, hamount⟩ := market_matched hs hw hstp hm hl
      have hmono := hw.sideQty_mono (s := side.other)
        (P := fun p => decide (side.other.rank p ≤ side.other.rank priceTicks)) (Q := fun _ => true) fun _ _ => rfl
      have hqty : (Request.market side priceTicks qty).qty = qty := rfl
      have hside : (Request.market side priceTicks qty).side.other = side.other := rfl
      have hprice : (Request.market side priceTicks qty).priceTicks = priceTicks := rfl
      rw [hqty, hside, hprice] at hamount hfits
      have hdone : q' = 0 := by
        have := hu.nonneg
        omega
      have hfilled : (c.core.body i).totalQty ≤ (c.core.body i).filledQty := by
        rw [hu.body, hbody, hdone]
        show qty ≤ (0 : Int) + (qty - 0)
        omega
      refine ⟨n, c, l, hstart.full, hl, ?_, ?_, ?_, ?_, htakes.outward, htakes.front, ?_, ?_⟩
      · intro y hy p hn
        exact (nextLevel_grid ((hsweep.looping hstart.taking).later hy).grid hn).2
      · rw [htakes.trades, hstart.trades]
      · exact fun x hx => (htakes.by_ x hx).1
      · rw [hqty, hside]
        omega
      · have hfilled' : (c.order i).totalQty ≤ (c.order i).filledQty := hfilled
        have hfin : c.finish V i = some (c.finishFilled i) := if_pos hfilled'
        exact ⟨_, hfin, finish_filled hu.taking.wf hu.taking.flying hfilled hfin⟩
      · intro m x b' hsub
        obtain ⟨-, k, c', d, hl', -, hal, hi, hwd, hfin⟩ := submit_flight hw hm hsub
        have hsame : c' = c := by
          have h₁ := priceLoop_mono (Nat.le_max_left k n) hl'
          have h₂ := priceLoop_mono (Nat.le_max_right k n) hl
          rw [h₁] at h₂
          exact Option.some.inj h₂
        subst hsame
        refine finish_filled hwd (hal.flying i hi) ?_ hfin
        rw [hal.body i hi]
        exact hfilled

/-- A BUY order that finds what it wants below its price. -/
theorem market_order_served_small : ∃ b, Book.runIf smallEnv 20
      (fun b op b' => op.lit && !b.crossed smallEnv && b.SumsFit smallEnv && !b'.log.any (Report.strands smallEnv))
      [.submit { side := .sell, priceTicks := 3, qty := 5 }] (fresh smallEnv) = some b ∧
    b.ServesMarket smallEnv (.market .buy 4 3) := by
  have hrun : (Book.runIf smallEnv 20
      (fun b op b' => op.lit && !b.crossed smallEnv && b.SumsFit smallEnv && !b'.log.any (Report.strands smallEnv))
      [.submit { side := .sell, priceTicks := 3, qty := 5 }] (fresh smallEnv)).any
      (fun b => !b.crossed smallEnv && b.SumsFit smallEnv && b.gates.stpPolicy = .none &&
        b.MarketFits smallEnv (.market .buy 4 3)) = true := by decide +kernel
  obtain ⟨b, hb, hr, hf⟩ := Reach.ofRun (P := fun b op b' => op.lit = true ∧ b.crossed smallEnv = false ∧
    b.SumsFit smallEnv ∧ b'.log.any (Report.strands smallEnv) = false) hrun fun b op b' h => by
      simp only [Bool.and_eq_true, decide_eq_true_eq, Bool.not_eq_true'] at h
      exact ⟨h.1.1.1, h.1.1.2, h.1.2, h.2⟩
  simp only [Bool.and_eq_true, decide_eq_true_eq, Bool.not_eq_true'] at hf
  obtain ⟨⟨⟨hcross, hfit⟩, hstp⟩, hfits⟩ := hf
  have hord := Reach.orderly hr
  have hsweep : Sweep smallEnv (Side.buy).other b := hord.sweep hfit (hord.wf.uncrossed_iff.mpr hcross) .sell
  exact ⟨b, hb, (market_order_served_iff hr hord.cont.gates.auction hstp hsweep).mpr hfits⟩

/-- A SELL order rests at 3. A MARKET order to buy at 0 finds nothing and rests there; one at −1 has no place to rest. -/
theorem market_order_rests : ∃ b, Book.runIf smallEnv 20 (fun _ _ _ => true)
      [.submit { side := .sell, priceTicks := 3, qty := 5 }] (fresh smallEnv) = some b ∧
    b.gates.inAuctionMode = false ∧ b.gates.stpPolicy = .none ∧ b.sideQty smallEnv .sell (fun _ => true) = 5 ∧
    (∃ x b', Book.submit smallEnv 20 (.market .buy 0 5) b = some (x, b') ∧ b'.tape.trades = [] ∧ b'.core.queue smallEnv 0 = [1]) ∧
    ¬ b.ServesMarket smallEnv (.market .buy 0 5) ∧ ∀ n, Book.submit smallEnv n (.market .buy (-1) 5) b = none := by
  have hrun : (Book.runIf smallEnv 20 (fun _ _ _ => true) [.submit { side := .sell, priceTicks := 3, qty := 5 }]
      (fresh smallEnv)).any (fun b => !b.gates.inAuctionMode && b.gates.stpPolicy = .none &&
        b.sideQty smallEnv .sell (fun _ => true) = 5 &&
        (Book.submit smallEnv 20 (.market .buy 0 5) b).any (fun y => y.2.tape.trades = [] && y.2.core.queue smallEnv 0 = [1]) &&
        (b.startMatch smallEnv (.market .buy 0 5)).any (fun y => y.1 = 1) &&
        (b.startMatch smallEnv (.market .buy (-1) 5)).any fun y => y.2.2.2.nextLevel y.1 = none) = true := by decide +kernel
  obtain ⟨b, hb, hreach, hf⟩ := Reach.ofRun hrun fun _ _ _ _ => trivial
  simp only [Bool.and_eq_true, decide_eq_true_eq, Bool.not_eq_true', Option.any_eq_true, Prod.exists] at hf
  obtain ⟨⟨⟨⟨⟨hcont, hstp⟩, hqty⟩, x, e, b', hsub, htrades, hqueue⟩, i, ts, q, b₁, hm, rfl⟩, j, tj, qj, bj, hmj, hnone⟩ := hf
  have hw := (Reach.wf hreach).1
  refine ⟨b, hb, hcont, hstp, hqty, ⟨(x, e), b', hsub, htrades, hqueue⟩, fun hserves => ?_, fun n => ?_⟩
  · unfold Book.ServesMarket at hserves
    rw [hm] at hserves
    obtain ⟨n, c, l, hserved⟩ := hserves
    exact hserved.gone 20 (x, e) b' hsub ⟨0, by rw [hqueue]; exact List.mem_cons_self⟩
  · cases hout : Book.submit smallEnv n (.market .buy (-1) 5) b with
    | none => rfl
    | some y =>
      -- the loop ends at once, and what is left would join a queue that is not there
      have hstart := startMatch_started hw hmj
      obtain ⟨id, t₀, hbody⟩ := hstart.body
      obtain ⟨-, k, c, d, hl, -, hal, hi, hwd, hfin⟩ := submit_flight hw hmj hout
      have hsame : c = bj := by
        have h₁ := priceLoop_mono (Nat.le_max_left k 1) hl
        have hdone : Book.priceLoop smallEnv j tj 1 qj bj = some bj := priceLoop_done (Or.inr hnone)
        have h₂ := priceLoop_mono (Nat.le_max_right k 1) hdone
        rw [h₁] at h₂
        exact Option.some.inj h₂
      subst hsame
      have hd : d.core.body j = Request.order (.market .buy (-1) 5) id t₀ := (hal.body j hi).trans hbody
      have hleft : (d.core.body j).filledQty < (d.core.body j).totalQty := by
        rw [hd]
        exact (by decide : (0 : Int) < 5)
      have hplain : (d.core.body j).type ≠ .ioc ∧ (d.core.body j).tif ≠ .ioc := by
        rw [hd]
        exact ⟨OrderType.noConfusion, TimeInForce.noConfusion⟩
      have hgrid := (finish_left hwd (hal.flying j hi) hleft hplain hfin).1
      rw [hd] at hgrid
      exact absurd hgrid.1 (by decide : ¬ (0 : Int) ≤ -1)

end HftLab.OrderBook
