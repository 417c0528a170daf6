/-
  HftLab.OrderBook.TopOfBook — the best prices and the spread, over runs of order entry.

  `Orderly`: at rest, every order shows itself and the cached best prices are right. A call keeps a book
  orderly if it was uncrossed, its sums fit and no cancel of self-trade prevention strands a level
  (`exec_orderly`). It keeps it uncrossed if, besides, no order but an IOC is stopped by self-trade
  prevention, since what is left of a stopped order comes to rest like any other.
-/

import HftLab.OrderBook.Sweep
import Mathlib.Algebra.Order.BigOperators.Group.List
import Mathlib.Algebra.Order.Group.Int

namespace HftLab.OrderBook

open Lib Function List

variable {V : Env} {b : Book}

/-- A book at rest whose orders show themselves and whose best prices are right. -/
structure Orderly (V : Env) (b : Book) : Prop where
  cont : b.Continuous
  wf : Wf V b
  idle : b.inFlight = []
  summed : b.Summed V
  visible : b.AllVisible V
  best : ∀ s, b.core.BestAt V s

/-- The quantities displayed at each price can be summed in 32 bits. -/
def Book.SumsFit (V : Env) (b : Book) : Prop :=
  ∀ k ∈ List.range V.LEVELS.toNat, shownSum b.core.body (b.core.queue V k) ≤ int32Max

instance (V : Env) (b : Book) : Decidable (b.SumsFit V) :=
  inferInstanceAs (Decidable (∀ k ∈ List.range V.LEVELS.toNat, _))

/-- A resting BUY order's price is at or above a resting SELL order's. -/
def Book.crossed (V : Env) (b : Book) : Bool :=
  (b.core.restingSlots V).any fun i => (b.core.restingSlots V).any fun j =>
    (b.order i).side = .buy && (b.order j).side = .sell && (b.order j).priceTicks ≤ (b.order i).priceTicks

/-- What is left of an order that self-trade prevention stopped never came to rest: going back from the
    report of an order at rest to its acceptance, no report says that it was stopped. -/
def AbortsDrop : List Report → Prop
  | [] => True
  | .rest _ :: l => (∀ e ∈ l.takeWhile fun e => !e.isAccept, e.isAbort = false) ∧ AbortsDrop l
  | _ :: l => AbortsDrop l

section

variable {V : Env} {b b' : Book} {p : Int} {i : Nat} {s : Side} {r : Request}
    {o : Order} {l l0 : List Report} {b₁ b₂ : Book} {n : Nat}

theorem AllVisible.shownSum_pos (h : b.AllVisible V) (hp : b.core.queue V p ≠ []) :
    0 < shownSum b.core.body (b.core.queue V p) := by
  refine sum_pos _ (fun x hx => ?_) (by simpa using hp)
  obtain ⟨i, hi, rfl⟩ := mem_map.mp hx
  exact (h p i hi).shown

/-- The sums tell where orders rest. -/
theorem Book.Summed.tells (h : b.Summed V) (hw : Wf V b) (hv : b.AllVisible V) (hf : b.SumsFit V) (p : Int) : b.core.Tells V p := by
  by_cases hp : b.core.queue V p = []
  · exact h.tells_empty hp
  · have hpos := AllVisible.shownSum_pos hv hp
    have hq : (b.core.levels p).totalQty = shownSum b.core.body (b.core.queue V p) := by
      have h1 : (b.core.levels p).totalQty = i32 (shownSum b.core.body (b.core.queue V p)) := congrArg Tally.qty (h p)
      obtain ⟨i, hi⟩ := exists_mem_of_ne_nil _ hp
      obtain ⟨hp0, hp1⟩ := hw.links.grid p i hi
      have hmax := hf p.toNat (mem_range.mpr (by omega))
      rw [Int.toNat_of_nonneg hp0] at hmax
      rw [h1]
      refine i32_eq ⟨?_, hmax⟩
      unfold int32Min
      omega
    unfold Core.Tells
    rw [hq]
    exact ⟨fun _ => hp, fun _ => hpos⟩

theorem Orderly.tells (h : Orderly V b) (hf : b.SumsFit V) (p : Int) : b.core.Tells V p :=
  h.summed.tells h.wf h.visible hf p

theorem Wf.uncrossed_iff (h : Wf V b) : b.core.Uncrossed V ↔ b.crossed V = false := by
  unfold Book.crossed
  simp only [any_eq_false, any_eq_true, Bool.and_eq_true, decide_eq_true_eq, not_exists, not_and, and_imp,
    h.mem_restingSlots]
  constructor
  · rintro hu i ⟨p, hi⟩ j ⟨q, hj⟩ hsi hsj hle
    have hp : (b.order i).priceTicks = p := h.price hi
    have hq : (b.order j).priceTicks = q := h.price hj
    have := hu p q ⟨i, hi, hsi⟩ ⟨j, hj, hsj⟩
    omega
  · rintro hn p q ⟨i, hi, hsi⟩ ⟨j, hj, hsj⟩
    have hp : (b.order i).priceTicks = p := h.price hi
    have hq : (b.order j).priceTicks = q := h.price hj
    have := hn i ⟨p, hi⟩ j ⟨q, hj⟩ hsi hsj
    omega

theorem Orderly.sweep (h : Orderly V b) (hf : b.SumsFit V) (hu : b.core.Uncrossed V) (s : Side) : Sweep V s b :=
  ⟨h.visible, h.summed, hu, h.best s, h.best s.other, fun r _ => h.tells hf r⟩

theorem Sweep.bestAt (h : Sweep V s b) (u : Side) : b.core.BestAt V u := by
  by_cases e : u = s
  · exact e ▸ h.best
  · exact Side.eq_other_of_ne e ▸ h.other

theorem Core.BestAt.onGrid (h : b.core.BestAt V s) (hw : Wf V b) : b.core.best s = s.noBest ∨ inRange V (b.core.best s) := by
  rcases h with ⟨h1, -⟩ | ⟨⟨i, hi, -⟩, -⟩
  · exact .inl h1
  · exact .inr (hw.links.grid _ i hi)

/-- A slot outside the queues is rewritten: nothing at rest changes. -/
structure Unmoved (V : Env) (b b' : Book) : Prop where
  queue : b'.core.queue V = b.core.queue V
  levels : b'.core.levels = b.core.levels
  best : b'.core.best = b.core.best
  body : ∀ p, ∀ i ∈ b.core.queue V p, b'.core.body i = b.core.body i

theorem Unmoved.rests (h : Unmoved V b b') : b'.core.Rests V s p ↔ b.core.Rests V s p := by
  unfold Core.Rests
  rw [h.queue]
  constructor
  · rintro ⟨i, hi, hs⟩
    exact ⟨i, hi, h.body p i hi ▸ hs⟩
  · rintro ⟨i, hi, hs⟩
    exact ⟨i, hi, (h.body p i hi).symm ▸ hs⟩

theorem Unmoved.visible (h : Unmoved V b b') (hv : b.AllVisible V) : b'.AllVisible V := by
  intro p i hi
  rw [h.queue] at hi
  rw [h.body p i hi]
  exact hv p i hi

theorem Unmoved.bestAt (h : Unmoved V b b') (hb : b.core.BestAt V s) : b'.core.BestAt V s :=
  hb.congr (by rw [h.best]) fun _ => h.rests

theorem Unmoved.uncrossed (h : Unmoved V b b') (hu : b.core.Uncrossed V) : b'.core.Uncrossed V :=
  fun p q hp hq => hu p q (h.rests.mp hp) (h.rests.mp hq)

theorem Unmoved.sweep (h : Unmoved V b b') (hs : Sweep V s b) (hsum : b'.Summed V) : Sweep V s b' := by
  refine ⟨h.visible hs.visible, hsum, h.uncrossed hs.uncrossed, h.bestAt hs.best, h.bestAt hs.other, fun r hr => ?_⟩
  unfold Core.Tells
  rw [h.queue, h.levels]
  exact hs.tells r (h.best ▸ hr)

theorem accept_unmoved (hw : Wf V b) (ha : b.accept V r = some (i, b')) : Unmoved V b b' := by
  obtain ⟨hal, -⟩ := Book.accept_eq hw.links ha
  obtain ⟨hQ, hB, -, -⟩ := hal.view_core
  refine ⟨hQ, by rw [hal.rest], ?_, fun p j hj => ?_⟩
  · rw [hal.rest]
    funext s
    cases s <;> rfl
  · rw [hB]
    refine update_of_ne ?_ ..
    rintro rfl
    obtain ⟨⟨G, hF, -⟩, -, -⟩ := hal
    exact hw.links.not_queued (mem_append_left _ (mem_append_left _ (hF ▸ mem_cons_self))) p hj

/-- An order in flight leaves without resting. -/
theorem drop_unmoved (hw : Wf V b) (hi : i ∈ b.inFlight) {st : OrderStatus}
    (hc : b'.core = (b.core.setStatus i st).freeOrder i) (hx : b'.inFlight = b.inFlight.erase i) : Unmoved V b b' := by
  have hv := hw.drop_view hi hc hx
  refine ⟨queue_of_view hv, by rw [hc]; rfl, by rw [hc]; funext s; cases s <;> rfl, fun p j hj => ?_⟩
  rw [body_of_view hv]
  exact update_of_ne (hw.flying_ne_queued hj hi) ..

/-! ## The remainder comes to rest -/

/-- Who rests after the order in slot `i`, of side `u`, joined the queue at its price. -/
theorem rest_rests (hw : Wf V b) (hi : i ∈ b.inFlight) (hr : inRange V (b.order i).priceTicks) {q : Int} :
    (b.restOrder i).core.Rests V s q ↔
      b.core.Rests V s q ∨ (q = (b.order i).priceTicks ∧ (b.order i).side = s) := by
  have hv := hw.restOrder_view hi hr
  have hB : ∀ j, ((b.restOrder i).core.body j).side = (b.core.body j).side := by
    intro j
    rw [body_of_view hv]
    show (update b.core.body i _ j).side = _
    by_cases e : j = i
    · subst e
      rw [update_self]
      unfold Order.atRest
      split <;> rfl
    · rw [update_of_ne e]
  have hP : (b.core.body i).atRest.priceTicks = (b.order i).priceTicks := by
    rw [Order.atRest_price]
    rfl
  have hQ : (b.restOrder i).core.queue V = update (b.core.queue V) (b.order i).priceTicks
      (b.core.queue V (b.order i).priceTicks ++ [i]) := by
    rw [queue_of_view hv, ← hP]
    rfl
  rw [Core.rests_push hQ fun r j _ => hB j, hB]
  rfl

theorem rest_best (ht : (b.order i).type ≠ .hidden) (hs : (b.order i).side = s) :
    (b.restOrder i).core.best s.other = b.core.best s.other ∧
    (b.restOrder i).core.best s =
      if b.core.best s = s.noBest ∨ s.rank (b.order i).priceTicks < s.rank (b.core.best s) then (b.order i).priceTicks
      else b.core.best s := by
  have h1 : (b.order i).atRest.type = (b.order i).type ∧ (b.order i).atRest.side = (b.order i).side := by
    unfold Order.atRest
    split <;> exact ⟨rfl, rfl⟩
  have hcore : (b.restOrder i).core = (b.core.settle i (b.order i).atRest).raiseBest s (b.order i).priceTicks := by
    unfold Book.restOrder
    rw [if_neg (by rw [h1.1]; exact ht), h1.2, Order.atRest_price, hs]
    rfl
  rw [hcore]
  exact raiseBest_side (b.core.settle i (b.order i).atRest) s (b.order i).priceTicks

theorem rest_bestAt (hw : Wf V b) (hi : i ∈ b.inFlight) (hr : inRange V (b.order i).priceTicks)
    (ht : (b.order i).type ≠ .hidden) (hb : ∀ u, b.core.BestAt V u) (u : Side) : (b.restOrder i).core.BestAt V u := by
  obtain ⟨ho, hs⟩ := rest_best ht rfl
  refine Core.BestAt.raised hb ?_ (fun u q => rest_rests hw hi hr) ho hs u
  rintro ⟨j, hj, -⟩
  exact absurd (hw.links.grid _ j hj) (Side.not_inRange_noBest V _)

theorem rest_visible (hw : Wf V b) (hi : i ∈ b.inFlight) (hr : inRange V (b.order i).priceTicks)
    (hlt : (b.core.body i).filledQty < (b.core.body i).totalQty) (hc : (b.core.body i).Coming) (hv : b.AllVisible V) :
    (b.restOrder i).AllVisible V := by
  have hview := hw.restOrder_view hi hr
  intro p j hj
  rw [body_of_view hview]
  show (update b.core.body i (b.core.body i).atRest j).Visible
  by_cases e : j = i
  · subst e
    rw [update_self]
    exact hc.atRest ((hw.placed j).flying hi).filled hlt
  · rw [update_of_ne e]
    refine hv p j ?_
    rw [queue_of_view hview] at hj
    exact (mem_update_push e).mp hj

/-- The order rests beyond every order of the other side: the book stays uncrossed. -/
theorem rest_uncrossed (hw : Wf V b) (hi : i ∈ b.inFlight) (hr : inRange V (b.order i).priceTicks)
    (hs : (b.order i).side = s.other) (hu : b.core.Uncrossed V) (hb : b.core.BestAt V s)
    (hlim : b.core.best s = s.noBest ∨ s.rank (b.order i).priceTicks < s.rank (b.core.best s)) :
    (b.restOrder i).core.Uncrossed V := by
  have hbeyond : ∀ q, b.core.Rests V s q → s.rank (b.order i).priceTicks < s.rank q := by
    intro q hq
    rcases hb with ⟨-, h2⟩ | ⟨h1, h2⟩
    · exact absurd hq (h2 q)
    · have h3 := h2 q hq
      rcases hlim with hn | hlt
      · obtain ⟨j, hj, -⟩ := h1
        rw [hn] at hj
        exact absurd (hw.links.grid _ j hj) (Side.not_inRange_noBest V _)
      · omega
  intro p q hp hq
  rcases (rest_rests hw hi hr).mp hp with hp | ⟨rfl, h1⟩
  · rcases (rest_rests hw hi hr).mp hq with hq | ⟨rfl, h2⟩
    · exact hu p q hp hq
    · cases s with
      | buy =>
        have : -(b.order i).priceTicks < -p := hbeyond p hp
        omega
      | sell =>
        rw [hs] at h2
        cases h2
  · rcases (rest_rests hw hi hr).mp hq with hq | ⟨rfl, h2⟩
    · cases s with
      | buy =>
        rw [hs] at h1
        cases h1
      | sell => exact hbeyond q hq
    · rw [h1] at h2
      cases h2

theorem SumsFit.cancel (hf : b.SumsFit V) (hw : Wf V b) (hi : i ∈ b.core.queue V p) (e : Bool) :
    (b.cancelInternal V i e).SumsFit V := by
  have hv := hw.cancelInternal_view hi e
  intro k hk
  refine le_trans ?_ (hf k hk)
  rw [queue_of_view hv, body_of_view hv]
  unfold shownSum
  have hbody : (fun j => (update b.core.body i { b.core.body i with status := .cancelled } j).displayedQty) =
      fun j => (b.core.body j).displayedQty := by
    funext j
    by_cases ej : j = i
    · subst ej
      rw [update_self]
    · rw [update_of_ne ej]
  show ((update (b.core.queue V) p ((b.core.queue V p).erase i) k).map fun j =>
    (update b.core.body i { b.core.body i with status := .cancelled } j).displayedQty).sum ≤ _
  rw [hbody]
  by_cases ek : (k : Int) = p
  · subst ek
    rw [update_self]
    refine List.Sublist.sum_le_sum ((erase_sublist).map _) fun a ha => ?_
    obtain ⟨j, hj, rfl⟩ := mem_map.mp ha
    exact (hw.resting hj).shown
  · rw [update_of_ne ek]

/-- The in-place branch of `modify`, for an order that shows something afterwards. -/
theorem reduce_orderly (h : Orderly V b) {k : Nat} (hk : b.core.find k = some i) (hi : i ∈ b.core.queue V p)
    {newQty : Int} (hlt : newQty < (b.core.body i).totalQty) (hq : (b.core.body i).filledQty < newQty)
    (hshow : (b.core.body i).totalQty - newQty < (b.core.body i).displayedQty) :
    Orderly V (b.reduceInPlace k i newQty) ∧
      ∀ s r, (b.reduceInPlace k i newQty).core.Rests V s r ↔ b.core.Rests V s r := by
  have hw := h.wf
  have hv := hw.reduceInPlace_view (i := i) k newQty
  have hact : Act V .reduce b (b.reduceInPlace k i newQty) := .reduce p k i newQty hi hk hlt hq
  have hrests : ∀ s r, (b.reduceInPlace k i newQty).core.Rests V s r ↔ b.core.Rests V s r := by
    intro s r
    unfold Core.Rests
    rw [queue_of_view hv, body_of_view hv]
    have hside : ∀ j, (update b.core.body i ((b.core.body i).reduced newQty) j).side = (b.core.body j).side := by
      intro j
      by_cases e : j = i
      · subst e
        rw [update_self]
        rfl
      · rw [update_of_ne e]
    exact exists_congr fun j => and_congr_right fun _ => by rw [← hside j]; rfl
  refine ⟨⟨?_, hact.wf hw, h.idle, hact.summed trivial hw h.summed, fun r j hj => ?_, fun s => ?_⟩, hrests⟩
  · exact h.cont.congr h.cont.gates rfl (fun hb => hb.congr (reduceInPlace_brackets hb)) rfl rfl
  · rw [queue_of_view hv] at hj
    rw [body_of_view hv]
    show (update b.core.body i _ j).Visible
    by_cases e : j = i
    · subst e
      rw [update_self]
      have hd : ((b.core.body j).reduced newQty).displayedQty =
        (b.core.body j).displayedQty - min ((b.core.body j).totalQty - newQty) (b.core.body j).displayedQty := rfl
      refine ⟨by omega, fun hty => ?_⟩
      have hwhole := (h.visible p j hi).whole hty
      show newQty - (b.core.body j).filledQty ≤ _
      omega
    · rw [update_of_ne e]
      exact h.visible r j hj
  · exact (h.best s).congr (by cases s <;> rfl) (hrests s)

/-! ## Calls -/

/-- No order but an IOC was stopped by self-trade prevention. -/
def Book.NoneStopped (b : Book) : Prop := ∀ e ∈ b.log, e.stops = false

/-- What a call leaves: an orderly book, uncrossed if none was stopped. -/
structure Keeps (V : Env) (b b' : Book) : Prop where
  orderly : Orderly V b'
  uncrossed : b'.NoneStopped → AbortsDrop b.log → b'.core.Uncrossed V ∧ AbortsDrop b'.log

theorem AbortsDrop.match (hl : ∀ e ∈ l, e.OfMatch o) (h : AbortsDrop l0) : AbortsDrop (l ++ l0) := by
  induction l with
  | nil => exact h
  | cons e l ih =>
    have ih' := ih fun x hx => hl x (mem_cons_of_mem _ hx)
    have he := hl e mem_cons_self
    cases e <;> first | exact ih' | exact he.elim

/-- In a match none was stopped, or the report says that an order like the taker was. -/
theorem stops_of_abort (hl : ∀ e ∈ l, e.OfMatch o) (ho : o.type ≠ .ioc ∧ o.tif ≠ .ioc) {e : Report} (he : e ∈ l)
    (ha : e.isAbort) : e.stops := by
  have hof := hl e he
  cases e with
  | stpAbort x m =>
    have hof' : x.type = o.type ∧ x.tif = o.tif := hof
    show (decide (x.type ≠ .ioc) && decide (x.tif ≠ .ioc))
    rw [hof'.1, hof'.2]
    simp [ho.1, ho.2]
  | _ => cases ha

theorem takeWhile_match (hl : ∀ e ∈ l, e.OfMatch o) (a : Order) : (l ++ .accept a :: l0).takeWhile (fun e => !e.isAccept) = l := by
  induction l with
  | nil => rfl
  | cons e l ih =>
    have he : e.isAccept = false := by
      have := hl e mem_cons_self
      cases e <;> first | rfl | exact this.elim
    rw [cons_append, takeWhile_cons, he]
    simp only [Bool.not_false, if_true]
    rw [ih fun x hx => hl x (mem_cons_of_mem _ hx)]

theorem Keeps.quiet (hu : b.core.Uncrossed V) (hm : Unmoved V b b') (ho : Orderly V b') (hl : b'.log = b.log) :
    Keeps V b b' := by
  refine ⟨ho, fun _ hd => ⟨hm.uncrossed hu, ?_⟩⟩
  rw [hl]
  exact hd

/-- The book `b₂` after the order in slot `i`, accepted in `b₁`, was matched against side `s`. -/
structure Matched (V : Env) (s : Side) (i : Nat) (b₁ b₂ : Book) : Prop where
  wf : Wf V b₂
  flight : b₂.inFlight = [i]
  cont : b₂.Continuous
  sweep : Sweep V s b₂
  passed : ∃ q, Passed i b₁ q b₂ ∧
    (q ≤ 0 ∨ b₂.core.best s = s.noBest ∨ s.rank (b₂.order i).priceTicks < s.rank (b₂.core.best s))

theorem Orderly.of_unmoved (hs : Sweep V s b₂) (hm : Unmoved V b₂ b') (hc : b'.Continuous) (hw : Wf V b') (hx : b'.inFlight = [])
    (hsum : b'.Summed V) : Orderly V b' :=
  ⟨hc, hw, hx, hsum, hm.visible hs.visible, fun u => hm.bestAt (hs.bestAt u)⟩

/-- An order leaves flight without a trace in the queues, or what is left of it comes to rest. -/
theorem finish_cases (hw : Wf V b) (hi : i ∈ b.inFlight) (hf : b.finish V i = some b') : Act V .finish b b' ∧
    b'.inFlight = b.inFlight.erase i ∧ ((Unmoved V b b' ∧ ∃ e, b'.log = e :: b.log ∧ ∀ o, e ≠ .rest o) ∨
      b' = b.restOrder i ∧ (b.core.body i).filledQty < (b.core.body i).totalQty ∧ inRange V (b.core.body i).priceTicks ∧
        (b.core.body i).type ≠ .ioc ∧ (b.core.body i).tif ≠ .ioc) := by
  unfold Book.finish at hf
  dsimp only at hf
  split at hf
  · rename_i hfull
    cases hf
    exact ⟨.finishFilled i hi hfull, rfl, .inl ⟨drop_unmoved hw hi rfl rfl, .takerFilled (b.order i), rfl, fun o h => by cases h⟩⟩
  · rename_i hpart
    have hlt : (b.core.body i).filledQty < (b.core.body i).totalQty := Int.lt_of_not_ge hpart
    split at hf
    · cases hf
      exact ⟨.finishIoc i hi hlt, rfl, .inl ⟨drop_unmoved hw hi rfl rfl, .iocCancel (b.order i), rfl, fun o h => by cases h⟩⟩
    · rename_i hioc
      split at hf
      · rename_i hr
        cases hf
        exact ⟨.rest i hi hlt hr, Book.restOrder_inFlight,
          .inr ⟨rfl, hlt, hr, fun h => hioc (.inl h), fun h => hioc (.inr h)⟩⟩
      · cases hf

/-- The end of a call leaves the book orderly. -/
theorem finish_orderly (hw : Wf V b) (hx : b.inFlight = [i]) (hc : b.Continuous) (hs : Sweep V s b)
    (hcom : (b.core.body i).Coming) (ht : (b.core.body i).type ≠ .hidden) (hf : b.finish V i = some b') : Orderly V b' := by
  have hi : i ∈ b.inFlight := by
    rw [hx]
    exact mem_singleton_self i
  have hcont := finish_continuous hc hf
  obtain ⟨hact, hflight, hcase⟩ := finish_cases hw hi hf
  have hidle : b'.inFlight = [] := by
    rw [hflight, hx]
    simp
  have hsum := hact.summed trivial hw hs.summed
  rcases hcase with ⟨hun, -⟩ | ⟨rfl, hlt, hr, -⟩
  · exact Orderly.of_unmoved hs hun hcont (hact.wf hw) hidle hsum
  · exact ⟨hcont, hact.wf hw, hidle, hsum, rest_visible hw hi hr hlt hcom hs.visible, rest_bestAt hw hi hr ht hs.bestAt⟩

/-- It leaves it uncrossed, if what comes to rest does so beyond the other side. -/
theorem finish_uncrossed (hw : Wf V b) (hi : i ∈ b.inFlight) (hs : Sweep V s b) (hside : (b.core.body i).side = s.other)
    (hlim : (b.core.body i).filledQty < (b.core.body i).totalQty → (b.core.body i).type ≠ .ioc → (b.core.body i).tif ≠ .ioc →
      b.core.best s = s.noBest ∨ s.rank (b.core.body i).priceTicks < s.rank (b.core.best s))
    (hf : b.finish V i = some b') : b'.core.Uncrossed V := by
  obtain ⟨-, -, hcase⟩ := finish_cases hw hi hf
  rcases hcase with ⟨hun, -⟩ | ⟨rfl, hlt, hr, hty, htif⟩
  · exact hun.uncrossed hs.uncrossed
  · exact rest_uncrossed hw hi hr hside hs.uncrossed hs.best (hlim hlt hty htif)

/-- The end of `submit`. -/
theorem finish_keeps {a : Order} (hm : Matched V s i b₁ b₂) (hlog : b₁.log = .accept a :: b.log)
    (hs : (b₁.core.body i).side = s.other) (hc : (b₁.core.body i).Coming) (ht : (b₁.core.body i).type ≠ .hidden)
    (hf : b₂.finish V i = some b') : Keeps V b b' := by
  obtain ⟨q, ⟨⟨x, hx⟩, l, hl, hof, hq⟩, hend⟩ := hm.passed
  have hi : i ∈ b₂.inFlight := by
    rw [hm.flight]
    exact mem_singleton_self i
  have hty : (b₂.core.body i).type = (b₁.core.body i).type := by rw [hx]; rfl
  have htif : (b₂.core.body i).tif = (b₁.core.body i).tif := by rw [hx]; rfl
  have hside : (b₂.core.body i).side = (b₁.core.body i).side := by rw [hx]; rfl
  have hcom : (b₂.core.body i).Coming := by
    rw [hx]
    exact ⟨hc.shown, hc.whole⟩
  refine ⟨finish_orderly hm.wf hm.flight hm.cont hm.sweep hcom (fun h => ht (hty ▸ h)) hf, fun hn hd => ?_⟩
  have hd2 : AbortsDrop b₂.log := by
    rw [hl]
    refine AbortsDrop.match hof ?_
    rw [hlog]
    exact hd
  obtain ⟨-, -, hcase⟩ := finish_cases hm.wf hi hf
  rcases hcase with ⟨hun, e, he, hno⟩ | ⟨rfl, hlt, hr, hnioc, hntif⟩
  · refine ⟨hun.uncrossed hm.sweep.uncrossed, ?_⟩
    rw [he]
    cases e <;> first | exact hd2 | exact absurd rfl (hno _)
  · -- nobody was stopped, so the match ended at the limit
    have hna : ∀ e ∈ l, e.isAbort = false := by
      intro e he
      by_contra hab
      have hio : (b₁.core.body i).type ≠ .ioc ∧ (b₁.core.body i).tif ≠ .ioc :=
        ⟨fun h => hnioc (hty.trans h), fun h => hntif (htif.trans h)⟩
      have hst := stops_of_abort hof hio he (by simpa using hab)
      rw [hn e (by rw [Book.restOrder_log, hl]; simp [he])] at hst
      cases hst
    have hlim : b₂.core.best s = s.noBest ∨ s.rank (b₂.order i).priceTicks < s.rank (b₂.core.best s) := by
      rcases hend with hq0 | hlim
      · rcases hq with hq | ⟨e, he, hab⟩
        · have : (b₂.core.body i).remainingQty = (b₂.core.body i).totalQty - (b₂.core.body i).filledQty := rfl
          omega
        · rw [hna e he] at hab
          cases hab
      · exact hlim
    refine ⟨rest_uncrossed hm.wf hi hr (hside.trans hs) hm.sweep.uncrossed hm.sweep.best hlim, ?_⟩
    rw [Book.restOrder_log, hl, hlog]
    refine ⟨?_, AbortsDrop.match hof hd⟩
    rw [takeWhile_match hof]
    exact hna

theorem accept_body (hw : Wf V b) (ha : b.accept V r = some (i, b')) :
    b'.core.body i = r.order (b.core.newId r.orderId) (V.clock b.asked) := by
  obtain ⟨hal, -⟩ := Book.accept_eq hw.links ha
  rw [hal.body, update_self]
  rfl

theorem screen_inRange (h : b.screen V r = none) (hm : r.type ≠ .market) : inRange V r.priceTicks := by
  unfold Book.screen at h
  split at h
  · cases h
  · split at h
    · cases h
    · rename_i hr
      by_contra hc
      exact hr ⟨hc, hm⟩

theorem finish_log (h : b.finish V i = some b') : ∃ e, b'.log = e :: b.log ∧ ∀ m t q, e ≠ .fill m t q := by
  unfold Book.finish at h
  dsimp only at h
  split at h
  · cases h
    exact ⟨_, rfl, fun _ _ _ he => nomatch he⟩
  · split at h
    · cases h
      exact ⟨_, rfl, fun _ _ _ he => nomatch he⟩
    · split at h
      · cases h
        exact ⟨_, Book.restOrder_log, fun _ _ _ he => nomatch he⟩
      · cases h

/-- A POST_ONLY order that is not refused is beyond the other side's best price. -/
theorem postOnly_behind (h : b.previewReject V r = none) (hpo : r.type = .postOnly) (hs : r.side = s.other) :
    b.core.best s = s.noBest ∨ s.rank r.priceTicks < s.rank (b.core.best s) := by
  have hcross := (previewReject_none h).1 hpo
  rw [hs] at hcross
  have hnot := mt (wouldCross_side b.core s r.priceTicks).mpr (by rw [hcross]; simp)
  by_cases hb : b.core.best s = s.noBest
  · exact .inl hb
  · exact .inr (not_le.mp fun hle => hnot ⟨hb, hle⟩)

/-- The accepted order is matched, unless it is POST_ONLY. -/
theorem matchEntry_matched (h : Orderly V b) (hf : b.SumsFit V) (hu : b.core.Uncrossed V) (ht : r.type ≠ .hidden)
    (hs : r.side = s.other) (hen : Entered V n r b b' i b₁ b₂) (hn : ¬ b₂.Stranded V) : Matched V s i b₁ b₂ := by
  obtain ⟨hq, -, hprev⟩ := screen_none hen.passed
  have ha := hen.accepted
  have hm := hen.matched
  have hact := hen.act
  have hw1 := hact.wf h.wf
  have hun := accept_unmoved h.wf ha
  have hsweep : Sweep V s b₁ := hun.sweep (h.sweep hf hu s) (hact.summed trivial h.wf h.summed)
  have hx1 : b₁.inFlight = [i] := by
    rw [accept_inFlight ha, h.idle]
  have hi := hen.flying
  have hcont := accept_continuous h.cont ha
  have hbody := accept_body h.wf ha
  have hside : (b₁.core.body i).side = s.other := by
    rw [hbody]
    exact hs
  unfold Book.matchEntry at hm
  split at hm
  · -- one clock reading, then the price loop
    have hw' := hw1.clock
    have hsweep' : Sweep V s (b₁.monoNsNow V).2 :=
      ⟨hsweep.visible, hsweep.summed, hsweep.uncrossed, hsweep.best, hsweep.other, hsweep.tells⟩
    have htk : Taking V (b₁.monoNsNow V).2 i (b₁.core.body i).remainingQty := ⟨hw', hi, le_rfl⟩
    obtain ⟨q', hok, hpass, hend⟩ := priceLoop_sweep (.inr hsweep') htk hside Passed.refl hm
    obtain ⟨hacts, hflight⟩ := priceLoop_acts htk hm
    have hsd : (b₂.order i).side = s.other := by
      obtain ⟨⟨x, hx⟩, -⟩ := hpass
      have : (b₂.core.body i).side = (b₁.core.body i).side := by rw [hx]; rfl
      exact this.trans hside
    refine ⟨hacts.wf hw', hflight.trans hx1, matchAgainst_continuous hcont hm, hok.resolve_left hn, q', hpass, ?_⟩
    rcases hend with hend | hend
    · exact .inl hend
    · exact .inr (nextLevel_none hend hsd)
  · rename_i hty
    cases hm
    refine ⟨hw1, hx1, hcont, hsweep, _, Passed.refl, .inr ?_⟩
    have hpo : r.type = .postOnly := by
      by_contra hne
      exact hty ⟨hne, ht⟩
    have hprice : (b₁.order i).priceTicks = r.priceTicks := by
      have : (b₁.core.body i).priceTicks = r.priceTicks := by rw [hbody]; rfl
      exact this
    rw [hprice, hun.best]
    exact postOnly_behind hprev hpo hs

theorem reject_keeps (h : Orderly V b) (hu : b.core.Uncrossed V) (reason : RejectReason) :
    Keeps V b (b.reject r reason) := by
  have hun : Unmoved V b (b.reject r reason) := ⟨rfl, rfl, rfl, fun _ _ _ => rfl⟩
  have hsame : SameSlots b (b.reject r reason) := .of_core rfl rfl
  refine Keeps.quiet hu hun ?_ rfl
  exact ⟨reject_continuous h.cont reason, h.wf.aside hsame, h.idle, hsame.summed h.summed, hun.visible h.visible,
    fun s => hun.bestAt (h.best s)⟩

theorem submit_keeps {x : Nat × RejectReason} (h : Orderly V b) (hf : b.SumsFit V) (hu : b.core.Uncrossed V)
    (ht : r.type ≠ .hidden) (hs : Book.submit V n r b = some (x, b')) (hn : ¬ b'.Stranded V) : Keeps V b b' := by
  rcases submit_entered h.cont hs with ⟨reason, -, rfl, -⟩ | ⟨m, i, b₁, b₂, -, hen⟩
  · exact reject_keeps h hu reason
  · have hn2 : ¬ b₂.Stranded V := by
      intro hst
      obtain ⟨e, he, -⟩ := finish_log hen.finished
      exact hn (hst.grows (l := [e]) he)
    have hm := matchEntry_matched h hf hu ht (Side.other_other _).symm hen hn2
    have hbody := accept_body h.wf hen.accepted
    refine finish_keeps hm (Book.accept_rest hen.accepted).1 ?_ ?_ ?_ hen.finished
    · rw [hbody]
      exact (Side.other_other _).symm
    · rw [hbody]
      exact Request.order_coming (screen_none hen.passed).1 ht _ _
    · rw [hbody]
      exact ht

theorem cancelInternal_keeps (h : Orderly V b) (hf : b.SumsFit V) (hu : b.core.Uncrossed V) (hi : i ∈ b.core.queue V p)
    (e : Bool) : Keeps V b (b.cancelInternal V i e) := by
  have haside := cancel_aside h.wf hi e
  have hkeep := cancelInternal_summed h.wf h.summed hi e
  have hbest : ∀ s, (b.cancelInternal V i e).core.BestAt V s := by
    intro s
    by_cases es : (b.core.body i).side = s
    · exact cancel_bestAt h.wf hi es e (h.best s) hu fun r _ => h.tells hf r
    · have es' := Side.eq_other_of_ne es
      have hother : (b.cancelInternal V i e).core.best s = b.core.best s := by
        have := (cancel_best h.wf hi es' e).1
        rwa [Side.other_other] at this
      refine haside.bestAt (h.best s) hother fun _ hrest => ?_
      exact absurd ⟨i, hi, es'⟩ (hu.behind hrest le_rfl)
  refine ⟨⟨cancelInternal_continuous h.cont e, hkeep.1, Book.cancelInternal_inFlight.trans h.idle, hkeep.2,
    cancel_visible h.visible h.wf hi e, hbest⟩, fun _ hd => ⟨haside.uncrossed hu, ?_⟩⟩
  rw [(Book.cancelInternal_rest e (h.wf.resting hi).active).1]
  cases e <;> exact hd

theorem cancel_keeps (h : Orderly V b) (hf : b.SumsFit V) (hu : b.core.Uncrossed V) (id : Nat) :
    Keeps V b (b.cancel V id).2 := by
  rw [cancel_eq h.cont h.wf]
  split
  · exact Keeps.quiet hu ⟨rfl, rfl, rfl, fun _ _ _ => rfl⟩ h rfl
  · rename_i i hfind
    obtain ⟨p, hi⟩ := h.cont.queued h.wf hfind
    exact cancelInternal_keeps h hf hu hi true

theorem gates_keeps (h : Orderly V b) (hu : b.core.Uncrossed V) {g : Gates} (hg : g.Open) : Keeps V b { b with gates := g } := by
  have hun : Unmoved V b { b with gates := g } := ⟨rfl, rfl, rfl, fun _ _ _ => rfl⟩
  have hsame : SameSlots b { b with gates := g } := .of_core rfl rfl
  refine Keeps.quiet hu hun ?_ rfl
  exact ⟨h.cont.congr hg rfl id rfl rfl, h.wf.aside hsame, h.idle, hsame.summed h.summed, hun.visible h.visible,
    fun s => hun.bestAt (h.best s)⟩

end

/-! ## Runs -/

/-- Submitting an order that is not HIDDEN, MARKET or of a kind with an entry point of its own, and cancelling;
    under any setting of self-trade prevention. -/
def Op.lit : Op → Bool
  | .submit r => r.type = .limit || r.type = .ioc || r.type = .fok || r.type = .postOnly || r.type = .iceberg
  | .cancel _ | .setStpPolicy _ | .setClientFirm _ _ => true
  | _ => false

theorem exec_keeps {b' : Book} {n : Nat} {op : Op} {x : Outcome} (h : Orderly V b) (hf : b.SumsFit V) (hu : b.core.Uncrossed V)
    (hop : op.lit) (he : Book.exec V n op b = some (x, b')) (hn : ¬ b'.Stranded V) : Keeps V b b' := by
  have hopen : ∀ g : Gates, g.sessionPhase = b.gates.sessionPhase → g.halted = b.gates.halted →
      g.inAuctionMode = b.gates.inAuctionMode → g.rateLimitingEnabled = b.gates.rateLimitingEnabled →
      g.mmpEnabled = b.gates.mmpEnabled → g.luldEnabled = b.gates.luldEnabled → g.Open := by
    intro g h1 h2 h3 h4 h5 h6
    have hg := h.cont.gates
    exact ⟨h1.trans hg.phase, h2.trans hg.halted, h3.trans hg.auction, h4.trans hg.rate, h5.trans hg.mmp, h6.trans hg.luld⟩
  cases op with
  | submit r =>
    obtain ⟨y, hs⟩ := Book.returned he fun _ => rfl
    refine submit_keeps h hf hu ?_ hs hn
    intro hh
    simp [Op.lit, hh] at hop
  | cancel id =>
    cases he
    exact cancel_keeps h hf hu id
  | setStpPolicy p =>
    cases he
    exact gates_keeps h hu (hopen _ rfl rfl rfl rfl rfl rfl)
  | setClientFirm c f =>
    cases he
    unfold Book.setClientFirm
    split
    · exact Keeps.quiet hu ⟨rfl, rfl, rfl, fun _ _ _ => rfl⟩ h rfl
    · exact gates_keeps h hu (hopen _ rfl rfl rfl rfl rfl rfl)
  | _ => cases hop

theorem fresh_orderly (V : Env) : Orderly V (fresh V) := by
  have hnone : ∀ s p, ¬ (fresh V).core.Rests V s p := by
    rintro s p ⟨i, hi, -⟩
    rw [fresh_queue] at hi
    cases hi
  refine ⟨fresh_continuous V, fresh_wf V, rfl, fresh_summed V, ?_, fun s => .inl ⟨?_, hnone s⟩⟩
  · intro p i hi
    rw [fresh_queue] at hi
    cases hi
  · cases s <;> rfl

/-- An order of side `s` rests at `p` and displays quantity. -/
def Core.Shows (V : Env) (c : Core) (s : Side) (p : Int) : Prop :=
  ∃ i ∈ c.queue V p, (c.body i).side = s ∧ 0 < (c.body i).displayedQty

/-- `best_bid_ticks()` is the highest price at which a BUY order displays quantity, `best_ask_ticks()` the
    lowest at which a SELL order does. -/
structure TopExact (V : Env) (b : Book) : Prop where
  bid : (b.core.bestBid = NO_BID_TICKS ∧ ∀ p, ¬ b.core.Shows V .buy p) ∨
    (b.core.Shows V .buy b.core.bestBid ∧ ∀ p, b.core.Shows V .buy p → p ≤ b.core.bestBid)
  ask : (b.core.bestAsk = NO_ASK_TICKS ∧ ∀ p, ¬ b.core.Shows V .sell p) ∨
    (b.core.Shows V .sell b.core.bestAsk ∧ ∀ p, b.core.Shows V .sell p → b.core.bestAsk ≤ p)

theorem Orderly.topExact (h : Orderly V b) : TopExact V b := by
  have hshow : ∀ s p, b.core.Shows V s p ↔ b.core.Rests V s p := by
    intro s p
    constructor
    · rintro ⟨i, hi, hs, -⟩
      exact ⟨i, hi, hs⟩
    · rintro ⟨i, hi, hs⟩
      exact ⟨i, hi, hs, (h.visible p i hi).shown⟩
  constructor
  · simp only [hshow]
    rcases h.best .buy with hb | ⟨h1, h2⟩
    · exact .inl hb
    · refine .inr ⟨h1, fun p hp => ?_⟩
      have : -b.core.bestBid ≤ -p := h2 p hp
      omega
  · simp only [hshow]
    rcases h.best .sell with hb | ⟨h1, h2⟩
    · exact .inl hb
    · exact .inr ⟨h1, h2⟩

theorem not_stranded (h : b.log.any (Report.strands V) = false) : ¬ b.Stranded V := by
  rintro ⟨e, he, hs⟩
  rw [any_eq_true.mpr ⟨e, he, hs⟩] at h
  cases h

theorem Reach.orderly
    (h : Book.Reach V (fun b op b' => op.lit = true ∧ b.crossed V = false ∧ b.SumsFit V ∧ b'.log.any (Report.strands V) = false) b) :
    Orderly V b := by
  induction h with
  | init => exact fresh_orderly V
  | step _ hs hp ih =>
    obtain ⟨n, hn⟩ := hs
    obtain ⟨hop, hu, hf, hst⟩ := hp
    exact (exec_keeps ih hf (ih.wf.uncrossed_iff.mpr hu) hop hn (not_stranded hst)).orderly

/-- In a run where the book is not crossed and its sums fit before each call, and no cancel of self-trade
    prevention empties a level while its side rests elsewhere, the best prices are exact. -/
theorem best_prices_exact {V : Env} {b : Book}
    (h : Book.Reach V (fun b op b' => op.lit = true ∧ b.crossed V = false ∧ b.SumsFit V ∧
      b'.log.any (Report.strands V) = false) b) : TopExact V b := (Reach.orderly h).topExact

/-- The first of two makers is cancelled, the second one filled, the third one hit. -/
theorem best_prices_exact_small : ∃ b, Book.runIf smallEnv 20
      (fun b op b' => op.lit && !b.crossed smallEnv && b.SumsFit smallEnv && !b'.log.any (Report.strands smallEnv))
      [.setStpPolicy .cancelOldest,
       .submit { side := .sell, priceTicks := 3, qty := 5, clientId := 1 },
       .submit { side := .sell, priceTicks := 3, qty := 5, clientId := 2 },
       .submit { side := .sell, priceTicks := 4, qty := 5, clientId := 2 },
       .submit { side := .buy, priceTicks := 4, qty := 7, clientId := 1 }] (fresh smallEnv) = some b ∧
    TopExact smallEnv b := by
  have hrun : (Book.runIf smallEnv 20
      (fun b op b' => op.lit && !b.crossed smallEnv && b.SumsFit smallEnv && !b'.log.any (Report.strands smallEnv))
      [.setStpPolicy .cancelOldest,
       .submit { side := .sell, priceTicks := 3, qty := 5, clientId := 1 },
       .submit { side := .sell, priceTicks := 3, qty := 5, clientId := 2 },
       .submit { side := .sell, priceTicks := 4, qty := 5, clientId := 2 },
       .submit { side := .buy, priceTicks := 4, qty := 7, clientId := 1 }] (fresh smallEnv)).any
      (fun b => b.core.bestAsk = 4) = true := by decide +kernel
  obtain ⟨b, hb, hr, -⟩ := Reach.ofRun (P := fun b op b' => op.lit = true ∧ b.crossed smallEnv = false ∧
    b.SumsFit smallEnv ∧ b'.log.any (Report.strands smallEnv) = false) hrun fun b op b' h => by
      simp only [Bool.and_eq_true, decide_eq_true_eq, Bool.not_eq_true'] at h
      exact ⟨h.1.1.1, h.1.1.2, h.1.2, h.2⟩
  exact ⟨b, hb, best_prices_exact hr⟩

/-- The only SELL order at 3 is cancelled for its client's BUY: the cache moves to 4, then past it. -/
theorem best_ask_strands : ∃ b, Book.runIf smallEnv 20 (fun _ op _ => op.lit)
      [.setStpPolicy .cancelOldest,
       .submit { side := .sell, priceTicks := 3, qty := 5, clientId := 1 },
       .submit { side := .sell, priceTicks := 4, qty := 5, clientId := 2 },
       .submit { side := .buy, priceTicks := 3, qty := 2, clientId := 1 }] (fresh smallEnv) = some b ∧
    ¬ TopExact smallEnv b := by
  have hrun : (Book.runIf smallEnv 20 (fun _ op _ => op.lit)
      [.setStpPolicy .cancelOldest,
       .submit { side := .sell, priceTicks := 3, qty := 5, clientId := 1 },
       .submit { side := .sell, priceTicks := 4, qty := 5, clientId := 2 },
       .submit { side := .buy, priceTicks := 3, qty := 2, clientId := 1 }] (fresh smallEnv)).any
      (fun b => b.core.bestAsk = NO_ASK_TICKS && (b.core.queue smallEnv 4).any fun i =>
        (b.core.body i).side = .sell && 0 < (b.core.body i).displayedQty) = true := by decide +kernel
  obtain ⟨b, hb, -, hf⟩ := Reach.ofRun hrun fun _ _ _ _ => trivial
  simp only [Bool.and_eq_true, decide_eq_true_eq, List.any_eq_true] at hf
  obtain ⟨hask, i, hi, hs, hd⟩ := hf
  refine ⟨b, hb, fun h => ?_⟩
  have hshow : b.core.Shows smallEnv .sell 4 := ⟨i, hi, hs, hd⟩
  rcases h.ask with ⟨-, h2⟩ | ⟨-, h2⟩
  · exact h2 4 hshow
  · have := h2 4 hshow
    rw [hask] at this
    exact absurd this (by decide)

/-! ## The spread -/

theorem Reach.spread
    (h : Book.Reach V (fun b op b' =>
      op.lit = true ∧ b.SumsFit V ∧ b'.log.any (Report.strands V) = false ∧ b'.log.any Report.stops = false) b) :
    Orderly V b ∧ b.core.Uncrossed V ∧ AbortsDrop b.log := by
  induction h with
  | init =>
    refine ⟨fresh_orderly V, ?_, trivial⟩
    rintro p q ⟨i, hi, -⟩
    rw [fresh_queue] at hi
    cases hi
  | step _ hs hp ih =>
    obtain ⟨n, hn⟩ := hs
    obtain ⟨hop, hf, hst, habort⟩ := hp
    obtain ⟨ho, hu, hd⟩ := ih
    have hk := exec_keeps ho hf hu hop hn (not_stranded hst)
    refine ⟨hk.orderly, hk.uncrossed (fun e he => ?_) hd⟩
    exact Bool.eq_false_iff.mpr fun hs => by rw [any_eq_true.mpr ⟨e, he, hs⟩] at habort; cases habort

/-- In a run where the sums fit, no cancel of self-trade prevention strands a level and none but an IOC is
    stopped, the book is never crossed or locked and what is left of a stopped order never rests. -/
theorem spread_positive {V : Env} {b : Book}
    (h : Book.Reach V (fun b op b' =>
      op.lit = true ∧ b.SumsFit V ∧ b'.log.any (Report.strands V) = false ∧
      b'.log.any Report.stops = false) b) : b.crossed V = false ∧ AbortsDrop b.log := by
  obtain ⟨ho, hu, hd⟩ := Reach.spread h
  exact ⟨ho.wf.uncrossed_iff.mp hu, hd⟩

/-- An IOC is stopped by its client's own order; what is left of it is dropped. -/
theorem spread_positive_small : ∃ b, Book.runIf smallEnv 20
      (fun b op b' => op.lit && b.SumsFit smallEnv && !b'.log.any (Report.strands smallEnv) && !b'.log.any Report.stops)
      [.setStpPolicy .cancelNewest,
       .submit { side := .sell, priceTicks := 3, qty := 5, clientId := 2 },
       .submit { side := .sell, priceTicks := 3, qty := 5, clientId := 1 },
       .submit { side := .buy, priceTicks := 4, qty := 7, type := .ioc, clientId := 1 }] (fresh smallEnv) = some b ∧
    b.crossed smallEnv = false ∧ AbortsDrop b.log := by
  have hrun : (Book.runIf smallEnv 20
      (fun b op b' => op.lit && b.SumsFit smallEnv && !b'.log.any (Report.strands smallEnv) && !b'.log.any Report.stops)
      [.setStpPolicy .cancelNewest,
       .submit { side := .sell, priceTicks := 3, qty := 5, clientId := 2 },
       .submit { side := .sell, priceTicks := 3, qty := 5, clientId := 1 },
       .submit { side := .buy, priceTicks := 4, qty := 7, type := .ioc, clientId := 1 }] (fresh smallEnv)).any
      (fun b => b.log.any Report.isAbort) = true := by decide +kernel
  obtain ⟨b, hb, hr, -⟩ := Reach.ofRun (P := fun b op b' => op.lit = true ∧ b.SumsFit smallEnv ∧
    b'.log.any (Report.strands smallEnv) = false ∧ b'.log.any Report.stops = false) hrun fun b op b' h => by
      simp only [Bool.and_eq_true, decide_eq_true_eq, Bool.not_eq_true'] at h
      exact ⟨h.1.1.1, h.1.1.2, h.1.2, h.2⟩
  exact ⟨b, hb, spread_positive hr⟩

/-- A BUY order stopped by its client's own SELL order rests above it. -/
theorem stopped_order_crosses : ∃ b, Book.runIf smallEnv 20 (fun _ op _ => op.lit)
      [.setStpPolicy .cancelNewest,
       .submit { side := .sell, priceTicks := 3, qty := 5, clientId := 1 },
       .submit { side := .buy, priceTicks := 4, qty := 2, clientId := 1 }] (fresh smallEnv) = some b ∧
    b.crossed smallEnv = true := by
  have hrun : (Book.runIf smallEnv 20 (fun _ op _ => op.lit)
      [.setStpPolicy .cancelNewest,
       .submit { side := .sell, priceTicks := 3, qty := 5, clientId := 1 },
       .submit { side := .buy, priceTicks := 4, qty := 2, clientId := 1 }] (fresh smallEnv)).any
      (fun b => b.crossed smallEnv) = true := by decide +kernel
  obtain ⟨b, hb, -, hf⟩ := Reach.ofRun hrun fun _ _ _ _ => trivial
  exact ⟨b, hb, hf⟩

end HftLab.OrderBook
