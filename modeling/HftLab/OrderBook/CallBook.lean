/-
  HftLab.OrderBook.CallBook — books collected for a call auction.

  `Gathers V arrived n b`: a fresh book became `b` by `n` calls that submit LIMIT orders for the day, or cancel, in auction mode,
  with sums that fit 32 bits all along. `arrived` is the number of the call that brought the order of a slot: the order that a
  call brings goes to the slot at the head of the free list.

  In such a book no order was touched, each queue is in order of arrival, and each cached best price is at least as good as
  every order of its side (`Gathered`). It may be better: a level that empties of one side only keeps the cache, and a scan
  stops at a level of the other side.
-/

import HftLab.OrderBook.TopOfBook

namespace HftLab.OrderBook

open Lib List

/-- Collecting orders: LIMIT orders for the day and cancels, in auction mode. -/
def Book.collects (b : Book) : Op → Bool
  | .submit r => r.type = .limit && r.tif = .day && b.gates.inAuctionMode
  | .cancel _ => b.gates.inAuctionMode
  | .setAuctionMode _ => true
  | _ => false

/-- The quantity left of the orders of side `s` whose price satisfies `P`. -/
def Book.sideQty (V : Env) (b : Book) (s : Side) (P : Int → Bool) : Int :=
  (((b.core.restingSlots V).filter fun i => (b.order i).side = s && P (b.order i).priceTicks).map
    fun i => (b.order i).remainingQty).sum

/-- The BUY quantity at `p` or above. -/
def Book.demand (V : Env) (b : Book) (p : Int) : Int := b.sideQty V .buy fun q => p ≤ q

/-- The SELL quantity at `p` or below. -/
def Book.supply (V : Env) (b : Book) (p : Int) : Int := b.sideQty V .sell fun q => q ≤ p

/-- The sums of the levels and of the two sides fit 32 bits. -/
def Book.AuctionFits (V : Env) (b : Book) : Prop :=
  b.SumsFit V ∧ b.sideQty V .buy (fun _ => true) ≤ int32Max ∧ b.sideQty V .sell (fun _ => true) ≤ int32Max

instance (V : Env) (b : Book) : Decidable (b.AuctionFits V) := inferInstanceAs (Decidable (_ ∧ _))

inductive Gathers (V : Env) : (Nat → Nat) → Nat → Book → Prop
  | init : Gathers V (fun _ => 0) 0 (fresh V)
  | call {arrived : Nat → Nat} {n : Nat} {b b' : Book} {op : Op} {x : Outcome} : Gathers V arrived n b → b.collects op = true →
      Book.Step V b op x b' → b'.AuctionFits V →
      Gathers V (fun i => if b.core.freeHead = some i then n else arrived i) (n + 1) b'

/-- An order for the day of which nothing was executed, all of it displayed. -/
structure Order.Untouched (o : Order) : Prop where
  filled : o.filledQty = 0
  shown : o.displayedQty = o.totalQty
  tif : o.tif = .day

/-- No pair, no bracket and no stop. -/
structure Book.Simple (b : Book) : Prop where
  partner : ∀ k, b.oco.partner k = none
  pending : b.oco.pendingCancel = []
  bracket : b.NoBracket
  stops : b.core.stopOrders = []

structure Gathered (V : Env) (arrived : Nat → Nat) (n : Nat) (b : Book) : Prop where
  wf : Wf V b
  idle : b.inFlight = []
  summed : b.Summed V
  simple : b.Simple
  untouched : ∀ p, ∀ i ∈ b.core.queue V p, (b.core.body i).Untouched
  ahead : ∀ s p, b.core.Rests V s p → s.rank (b.core.best s) ≤ s.rank p
  grid : ∀ s, b.core.best s = s.noBest ∨ inRange V (b.core.best s)
  arrival : ∀ p, (b.core.queue V p).Pairwise fun i j => arrived i < arrived j
  before : ∀ p, ∀ i ∈ b.core.queue V p, arrived i < n

section

variable {V : Env} {b b' : Book} {arrived : Nat → Nat} {n : Nat} {p : Int} {i : Nat} {s : Side}

theorem Book.Simple.congr (h : b.Simple) (ho : b'.oco = b.oco) (hb : b.NoBracket → b'.NoBracket)
    (hs : b'.core.stopOrders = b.core.stopOrders) : b'.Simple where
  partner := by
    rw [ho]
    exact h.partner
  pending := by
    rw [ho]
    exact h.pending
  bracket := hb h.bracket
  stops := hs.trans h.stops

/-- The free slot that a call may fill is in no queue. -/
theorem Gathered.not_free (h : Gathered V arrived n b) (hi : i ∈ b.core.queue V p) : b.core.freeHead ≠ some i := by
  intro hfree
  have hhead := h.wf.links.free.head
  rw [hfree] at hhead
  obtain ⟨F, hF⟩ := List.head?_eq_some_iff.mp hhead.symm
  refine h.wf.links.not_queued ?_ p hi
  rw [hF]
  simp

/-- The call that brings an order is noted with the slot it will take. -/
theorem Gathered.renumbered (h : Gathered V arrived n b) (m : Nat) (p : Int) :
    ((b.core.queue V p).Pairwise fun i j =>
      (if b.core.freeHead = some i then m else arrived i) < if b.core.freeHead = some j then m else arrived j) ∧
    ∀ i ∈ b.core.queue V p, (if b.core.freeHead = some i then m else arrived i) < n := by
  refine ⟨(h.arrival p).imp_of_mem ?_, fun i hi => ?_⟩
  · intro i j hi hj hlt
    rwa [if_neg (h.not_free hi), if_neg (h.not_free hj)]
  · rw [if_neg (h.not_free hi)]
    exact h.before p i hi

theorem Gathered.visible (h : Gathered V arrived n b) : b.AllVisible V := by
  intro p i hi
  have h1 := (h.wf.resting hi).left
  have h2 := (h.untouched p i hi).shown
  have h3 := (h.untouched p i hi).filled
  exact ⟨by omega, fun _ => by omega⟩

/-- What only the gates, the streams and the clock tell apart is gathered alike. -/
theorem Gathered.same (h : Gathered V arrived n b) (hc : b'.core = b.core) (hx : b'.inFlight = b.inFlight) (ho : b'.oco = b.oco)
    (hb : b'.brackets = b.brackets) :
    Gathered V (fun i => if b.core.freeHead = some i then n else arrived i) (n + 1) b' where
  wf := by
    have hs : SameSlots b b' := ⟨by rw [hc], by rw [hc], by rw [hc], by rw [hc], by rw [hc], by rw [hc], by rw [hc], hx, by rw [hc]⟩
    exact h.wf.aside hs
  idle := hx.trans h.idle
  summed := by
    unfold Book.Summed
    rw [hc]
    exact h.summed
  simple := h.simple.congr ho (fun hn => hn.congr hb) (by rw [hc])
  untouched := by
    rw [hc]
    exact h.untouched
  ahead := by
    rw [hc]
    exact h.ahead
  grid := by
    rw [hc]
    exact h.grid
  arrival := by
    rw [hc]
    exact fun p => (h.renumbered n p).1
  before := by
    rw [hc]
    exact fun p i hi => Nat.lt_succ_of_lt ((h.renumbered n p).2 i hi)

/-! ## Submit -/

theorem restOrder_oco : (b.restOrder i).oco = b.oco := by
  unfold Book.restOrder
  dsimp only
  split <;> rfl

/-- A price of the grid is better than none. -/
theorem Side.rank_noBest (s : Side) (hp : inRange V p) : s.rank p < s.rank s.noBest := by
  have h1 := hp.1
  have h2 := hp.2
  have h3 := V.levels_int32
  cases s with
  | buy =>
    show -p < -NO_BID_TICKS
    unfold NO_BID_TICKS
    omega
  | sell =>
    show p < NO_ASK_TICKS
    unfold NO_ASK_TICKS
    omega

/-- An accepted order for the day rests untouched. -/
theorem untouched_atRest {r : Request} {id ts : Nat} (ht : r.type = .limit) (hd : r.tif = .day) :
    (r.order id ts).atRest.Untouched := by
  have hfilled : ¬ 0 < (r.order id ts).filledQty := by
    show ¬ (0 : Int) < 0
    omega
  unfold Order.atRest
  rw [if_neg hfilled]
  refine ⟨rfl, ?_, hd⟩
  show r.shown = r.qty
  simp [Request.shown, Request.iceShow, ht]

/-- An order comes to rest: its queue grows at the end, and the cache of its side covers it. -/
theorem Gathered.rest {b1 : Book} {r : Request} (h : Gathered V arrived n b) (ht : r.type = .limit) (hd : r.tif = .day)
    (hq : 0 < r.qty) (hid : r.orderId ≠ 0 → b.core.find r.orderId = none) (hr : inRange V r.priceTicks)
    (ha : b.accept V r = some (i, b1)) :
    Gathered V (fun i => if b.core.freeHead = some i then n else arrived i) (n + 1) (b1.restOrder i) := by
  have hun := accept_unmoved h.wf ha
  have hbody := accept_body h.wf ha
  have hact : Act V .accept b b1 := .accept r i hq hid ha
  have hw1 : Wf V b1 := hact.wf h.wf
  have hx1 : b1.inFlight = [i] := by rw [accept_inFlight ha, h.idle]
  have hi : i ∈ b1.inFlight := by rw [hx1]; exact mem_singleton_self i
  have hside : (b1.order i).side = r.side := congrArg Order.side hbody
  have hprice : (b1.order i).priceTicks = r.priceTicks := congrArg Order.priceTicks hbody
  have htype : (b1.order i).type = r.type := congrArg Order.type hbody
  have hgrid : inRange V (b1.order i).priceTicks := hprice ▸ hr
  have hrest : Act V .finish b1 (b1.restOrder i) := by
    refine .rest i hi ?_ hgrid
    rw [hbody]
    exact hq
  have hv := hw1.restOrder_view hi hgrid
  have hhead : b.core.freeHead = some i := by
    obtain ⟨⟨G, hF, -⟩, -, -⟩ := (Book.accept_eq h.wf.links ha).1
    rw [h.wf.links.free.head, hF]
    rfl
  have hqueue : ∀ p, (b1.restOrder i).core.queue V p =
      if p = r.priceTicks then b.core.queue V p ++ [i] else b.core.queue V p := by
    intro p
    rw [queue_of_view hv]
    show Function.update (b1.core.queue V) (b1.core.body i).atRest.priceTicks _ p = _
    rw [Order.atRest_price, hun.queue]
    rw [show (b1.core.body i).priceTicks = r.priceTicks from hprice]
    split
    · rename_i e
      rw [e, Function.update_self]
      show b1.core.queue V r.priceTicks ++ [i] = _
      rw [hun.queue]
    · rename_i e
      rw [Function.update_of_ne e]
  have hbest : ∀ s, ((b1.restOrder i).core.best s = b.core.best s ∧
        ((b1.order i).side = s → s.rank (b.core.best s) ≤ s.rank (b1.order i).priceTicks)) ∨
      ((b1.restOrder i).core.best s = (b1.order i).priceTicks ∧ s.rank (b1.order i).priceTicks ≤ s.rank (b.core.best s)) := by
    intro s
    have hsame : b1.core.best = b.core.best := hun.best
    by_cases e : (b1.order i).side = s
    · have hb := (rest_best (by rw [htype, ht]; decide) e).2
      rw [hsame] at hb
      split at hb
      · rename_i hc
        refine .inr ⟨hb, ?_⟩
        rcases hc with hc | hc
        · rw [hc]
          exact Int.le_of_lt (s.rank_noBest hgrid)
        · exact Int.le_of_lt hc
      · rename_i hc
        exact .inl ⟨hb, fun _ => by omega⟩
    · have hb := (rest_best (by rw [htype, ht]; decide) rfl).1
      rw [← Side.eq_other_of_ne fun h => e h.symm, hsame] at hb
      exact .inl ⟨hb, fun h => absurd h e⟩
  have hold : ∀ p, ∀ j ∈ (b1.restOrder i).core.queue V p, j ≠ i → j ∈ b.core.queue V p := by
    intro p j hj e
    rw [hqueue] at hj
    split at hj
    · simpa [e] using hj
    · exact hj
  refine ⟨hrest.wf hw1, ?_, hrest.summed trivial hw1 (hact.summed trivial h.wf h.summed), ?_, ?_, ?_, ?_, ?_, ?_⟩
  · rw [show (b1.restOrder i).inFlight = b1.inFlight.erase i from congrArg View.flight hv, hx1]
    exact erase_cons_head ..
  · refine h.simple.congr ?_ (fun hb => (hb.congr (accept_brackets ha)).congr restOrder_brackets) ?_
    · rw [restOrder_oco]
      exact (Book.accept_rest ha).2.2.1
    · rw [show (b1.restOrder i).core.stopOrders = b1.core.stopOrders from congrArg View.stops hv]
      exact congrArg View.stops (h.wf.accept_view ha)
  · intro p j hj
    rw [body_of_view hv]
    show (Function.update b1.core.body i (b1.core.body i).atRest j).Untouched
    by_cases e : j = i
    · rw [e, Function.update_self, hbody]
      exact untouched_atRest ht hd
    · rw [Function.update_of_ne e, hun.body p j (hold p j hj e)]
      exact h.untouched p j (hold p j hj e)
  · intro s p hp
    rcases (rest_rests hw1 hi hgrid).mp hp with hp | ⟨rfl, rfl⟩
    · have hahead := h.ahead s p (hun.rests.mp hp)
      rcases hbest s with ⟨hb, -⟩ | ⟨hb, hle⟩ <;> rw [hb]
      · exact hahead
      · exact Int.le_trans hle hahead
    · rcases hbest (b1.order i).side with ⟨hb, hle⟩ | ⟨hb, -⟩ <;> rw [hb]
      exact hle rfl
  · intro s
    rcases hbest s with ⟨hb, -⟩ | ⟨hb, -⟩ <;> rw [hb]
    · exact h.grid s
    · exact .inr hgrid
  · intro p
    have hp := (h.renumbered n p).1
    rw [hqueue]
    split
    · refine pairwise_append.mpr ⟨hp, pairwise_singleton .., ?_⟩
      intro j hj k hk
      rw [mem_singleton.mp hk, if_pos hhead]
      exact (h.renumbered n p).2 j hj
    · exact hp
  · intro p j hj
    by_cases e : j = i
    · rw [e, if_pos hhead]
      exact Nat.lt_succ_self n
    · exact Nat.lt_succ_of_lt ((h.renumbered n p).2 j (hold p j hj e))

theorem Gathered.submit {m : Nat} {r : Request} {x : Nat × RejectReason} (h : Gathered V arrived n b) (ht : r.type = .limit)
    (hd : r.tif = .day) (hm : b.gates.inAuctionMode) (hs : Book.submit V m r b = some (x, b')) :
    Gathered V (fun i => if b.core.freeHead = some i then n else arrived i) (n + 1) b' := by
  obtain ⟨⟨g, a, hg, -, -⟩, hpass⟩ := admission_spec (V := V) (b := b) (r := r)
  rcases submit_cases (N := False) h.wf (.inr h.simple.bracket) hs with ⟨reason, -, rfl, -⟩ | ⟨i, b1, b2, k, -, hc, hmatch⟩
  · rw [hg]
    exact h.same rfl rfl rfl rfl
  · obtain ⟨hq, hid⟩ := hpass hc.passed
    have hauction : b1.gates.inAuctionMode := by
      rw [(Book.accept_rest hc.accepted).2.2.2.1]
      exact admission_auction hm
    have hno : b1.matchesOnEntry r = false := by
      unfold Book.matchesOnEntry
      rw [hauction]
      simp
    rw [if_neg (by rw [hno]; decide)] at hmatch
    cases hmatch
    have hgrid : inRange V r.priceTicks := admission_grid hc.passed (by rw [ht]; decide)
    have hcore : (b.admission V r).2.core = b.core := by rw [hg]
    have hacc := hc.accepted
    rw [hg] at hacc
    -- The admission wrote to the gates; the rest starts from there.
    have h0 : Gathered V arrived n { b with gates := g, asked := a } :=
      ⟨h.wf.of_core rfl rfl,
        h.idle, h.summed, ⟨h.simple.partner, h.simple.pending, h.simple.bracket, h.simple.stops⟩, h.untouched, h.ahead, h.grid,
        h.arrival, h.before⟩
    have hbody := accept_body h0.wf hacc
    have hfin := hc.finished
    unfold Book.finish at hfin
    dsimp only at hfin
    have e1 : (b1.order i).filledQty = 0 := congrArg Order.filledQty hbody
    have e2 : (b1.order i).totalQty = r.qty := congrArg Order.totalQty hbody
    have e3 : (b1.order i).type = r.type := congrArg Order.type hbody
    have e4 : (b1.order i).tif = r.tif := congrArg Order.tif hbody
    have e5 : (b1.order i).priceTicks = r.priceTicks := congrArg Order.priceTicks hbody
    rw [e1, e2, e3, e4, e5, if_neg (by omega), if_neg (by rw [ht, hd]; decide), if_pos hgrid] at hfin
    cases hfin
    exact h0.rest ht hd hq hid hgrid hacc

/-! ## Cancel -/

theorem Book.Simple.cancelInternal (h : b.Simple) (ha : (b.order i).isActive) : (b.cancelInternal V i true).Simple := by
  have hoco : (b.cancelInternal V i true).oco = b.oco.complete (b.order i).id := by
    unfold Book.cancelInternal
    dsimp only
    rw [ha]
    rfl
  refine h.congr (hoco.trans (Oco.complete_none (h.partner _))) ?_ ?_
  · rcases cancelInternal_brackets with hb | hb
    · exact fun hn => hn.congr hb
    · exact fun hn => hn.eraseSpec hb
  · rw [Book.cancelInternal_core ha]
    exact (Core.leave_rest _).2.1

/-- An order leaves: the cache of its side moves only off an emptied level, to the next one that shows anything. -/
theorem Gathered.cancelled (h : Gathered V arrived n b) (hi : i ∈ b.core.queue V p) (hf : (b.cancelInternal V i true).SumsFit V) :
    Gathered V (fun i => if b.core.freeHead = some i then n else arrived i) (n + 1) (b.cancelInternal V i true) := by
  have haside := cancel_aside h.wf hi true
  obtain ⟨hw, hsum⟩ := cancelInternal_summed h.wf h.summed hi true
  have hv := h.wf.cancelInternal_view hi true
  have hsub : ∀ r, ((b.cancelInternal V i true).core.queue V r).Sublist (b.core.queue V r) := by
    intro r
    rw [queue_of_view hv]
    show (Function.update (b.core.queue V) p ((b.core.queue V p).erase i) r).Sublist _
    by_cases e : r = p
    · rw [e, Function.update_self]
      exact erase_sublist
    · rw [Function.update_of_ne e]
  have hbody : ∀ r, ∀ j ∈ (b.cancelInternal V i true).core.queue V r, (b.cancelInternal V i true).core.body j = b.core.body j := by
    intro r j hj
    have hne : j ≠ i := by
      rintro rfl
      exact h.wf.not_queued_of_erase hi (queue_of_view hv) ⟨r, hj⟩
    rw [body_of_view hv]
    exact Function.update_of_ne hne ..
  have hu : ∀ r, ∀ j ∈ (b.cancelInternal V i true).core.queue V r, ((b.cancelInternal V i true).core.body j).Untouched := by
    intro r j hj
    rw [hbody r j hj]
    exact h.untouched r j ((hsub r).mem hj)
  have hvis : (b.cancelInternal V i true).AllVisible V := cancel_visible h.visible h.wf hi true
  obtain ⟨hother, hown⟩ := cancel_best h.wf hi rfl true
  have hgrid : inRange V p := h.wf.links.grid p i hi
  have hbest : ∀ s, (∀ r, (b.cancelInternal V i true).core.Rests V s r → s.rank ((b.cancelInternal V i true).core.best s) ≤ s.rank r) ∧
      ((b.cancelInternal V i true).core.best s = s.noBest ∨ inRange V ((b.cancelInternal V i true).core.best s)) := by
    intro s
    by_cases e : s = (b.core.body i).side
    · subst e
      split at hown
      · rename_i hc
        obtain ⟨hnil, hp⟩ := hc
        -- The level is empty, so that what rests of the side rests behind it, and shows.
        have hfirst := refreshBest_spec V (b.cancelInternal V i true).core (b.core.body i).side ((b.core.body i).side.worse p)
          (worse_start _ hgrid)
        rw [← hown] at hfirst
        have hbehind : ∀ r, (b.cancelInternal V i true).core.Rests V (b.core.body i).side r → inRange V r ∧
            (b.core.body i).side.rank ((b.core.body i).side.worse p) ≤ (b.core.body i).side.rank r ∧
            0 < ((b.cancelInternal V i true).core.levels r).totalQty := by
          intro r hr
          have hne : (b.cancelInternal V i true).core.queue V r ≠ [] := by
            obtain ⟨j, hj, -⟩ := hr
            exact ne_nil_of_mem hj
          have hrp : r ≠ p := by
            rintro rfl
            exact hne hnil
          have hahead := h.ahead _ r (haside.rests hr)
          rw [← hp] at hahead
          have hlt : (b.core.body i).side.rank p ≠ (b.core.body i).side.rank r := fun e => hrp (Side.rank_inj e).symm
          refine ⟨?_, ?_, ((hsum.tells hw hvis hf r).mpr hne)⟩
          · obtain ⟨j, hj, -⟩ := hr
            exact hw.links.grid r j hj
          · rw [Side.rank_worse]
            omega
        rcases hfirst with ⟨hnone, hall⟩ | ⟨hin, -, -, hall⟩
        · refine ⟨fun r hr => ?_, .inl hnone⟩
          obtain ⟨h1, h2, h3⟩ := hbehind r hr
          exact absurd h3 (hall r h1 h2)
        · refine ⟨fun r hr => ?_, .inr hin⟩
          obtain ⟨h1, h2, h3⟩ := hbehind r hr
          by_contra hlt
          exact hall r h1 h2 (by omega) h3
      · rw [hown]
        exact ⟨fun r hr => h.ahead _ r (haside.rests hr), h.grid _⟩
    · rw [← Side.eq_other_of_ne e] at hother
      rw [hother]
      exact ⟨fun r hr => h.ahead s r (haside.rests hr), h.grid s⟩
  refine ⟨hw, Book.cancelInternal_inFlight.trans h.idle, hsum, ?_, hu, fun s => (hbest s).1, fun s => (hbest s).2, fun r => ?_, fun r j hj => ?_⟩
  · exact h.simple.cancelInternal (h.wf.resting hi).active
  · exact ((h.renumbered n r).1).sublist (hsub r)
  · exact Nat.lt_succ_of_lt ((h.renumbered n r).2 j ((hsub r).mem hj))

/-! ## Runs -/

theorem Gathered.step {op : Op} {x : Outcome} (h : Gathered V arrived n b) (hop : b.collects op) (hs : Book.Step V b op x b')
    (hf : b'.AuctionFits V) : Gathered V (fun i => if b.core.freeHead = some i then n else arrived i) (n + 1) b' := by
  obtain ⟨m, he⟩ := hs
  cases op with
  | submit r =>
    obtain ⟨y, hs⟩ := Book.returned he fun _ => rfl
    simp only [Book.collects, Bool.and_eq_true, decide_eq_true_eq] at hop
    exact h.submit hop.1.1 hop.1.2 hop.2 hs
  | cancel id =>
    cases he
    unfold Book.cancel
    cases hfind : b.core.find id with
    | none => exact h.same rfl rfl rfl rfl
    | some i =>
      have hq : b.core.Queued V i := by
        rcases (h.wf.found hfind).2 with hst | hq
        · rw [h.simple.stops] at hst
          cases hst
        · exact hq
      obtain ⟨p, hi⟩ := hq
      have hpend := h.simple.cancelInternal (V := V) (h.wf.resting hi).active
      have hbook : (b.cancel V id).2 = b.cancelInternal V i true := by
        unfold Book.cancel
        rw [hfind]
        dsimp only
        rw [if_neg (by rw [show (b.order i).isPendingStop = false from (h.wf.resting hi).not_pendingStop]; decide),
          processOcoPending_idle hpend.pending]
      have hgoal := h.cancelled hi (hbook ▸ hf.1)
      unfold Book.cancel at hbook
      rw [hfind] at hbook
      exact hbook.symm ▸ hgoal
  | setAuctionMode on =>
    cases he
    exact h.same rfl rfl rfl rfl
  | _ => cases hop

theorem fresh_gathered (V : Env) : Gathered V (fun _ => 0) 0 (fresh V) := by
  have hq : ∀ p, (fresh V).core.queue V p = [] := fresh_queue V
  refine ⟨fresh_wf V, rfl, fresh_summed V, ⟨fun _ => rfl, rfl, ⟨rfl, fun _ => rfl⟩, rfl⟩, ?_, ?_, ?_, ?_, ?_⟩
  · intro p i hi
    rw [hq] at hi
    cases hi
  · rintro s p ⟨i, hi, -⟩
    rw [hq] at hi
    cases hi
  · intro s
    cases s <;> exact .inl rfl
  · intro p
    rw [hq]
    exact List.Pairwise.nil
  · intro p i hi
    rw [hq] at hi
    cases hi

theorem Gathers.gathered (h : Gathers V arrived n b) : Gathered V arrived n b := by
  induction h with
  | init => exact fresh_gathered V
  | call _ hop hs hf ih => exact ih.step hop hs hf

theorem Gathers.fits (h : Gathers V arrived n b) : b.AuctionFits V := by
  cases h with
  | init =>
    have hslots : (fresh V).core.restingSlots V = [] := by simp [Core.restingSlots, fresh_queue]
    have hside : ∀ s P, (fresh V).sideQty V s P = 0 := by
      intro s P
      unfold Book.sideQty
      rw [hslots]
      rfl
    refine ⟨fun k _ => ?_, ?_, ?_⟩
    · rw [fresh_queue]
      show (0 : Int) ≤ int32Max
      decide
    · rw [hside]
      decide
    · rw [hside]
      decide
  | call _ _ _ hf => exact hf

end

end HftLab.OrderBook
