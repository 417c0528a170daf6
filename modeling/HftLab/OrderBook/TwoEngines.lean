/-
  HftLab.OrderBook.TwoEngines — the book of queues and the flat book show the same quantities.

  One matches an order against the queues and rests what is left, the other rests it and then lets the
  best levels trade. Both uncross the depth to which the order is added: a trade with one maker is part
  of the exchange of the two best levels (`Uncrosses.absorb`), so `trade` is an uncrossing
  (`trade_uncrosses`), and an uncrossing has one outcome.
-/

import HftLab.Flat.MapBook
import HftLab.OrderBook.Priority

namespace HftLab.OrderBook

open Lib Function List

open HftLab.Flat (Depth Uncrosses)

/-! ## Depth by side -/

/-- The depth with `own` on side `s` and `other` on the other. -/
def sided (s : Side) (own other : Nat → Int) : Depth :=
  match s with
  | .buy => ⟨own, other⟩
  | .sell => ⟨other, own⟩

/-- `p` is the best price of side `s` with a quantity. -/
def Front (s : Side) (f : Nat → Int) (p : Nat) : Prop := 0 < f p ∧ ∀ q : Nat, s.rank q < s.rank p → f q = 0

section

variable {s : Side} {own other : Nat → Int} {p q P : Nat} {x v : Int} {l : List Ticket} {m : Ticket}

theorem Front.highest (h : Front .buy own p) : Flat.Highest own p := by
  refine ⟨h.1, fun q hq => h.2 q ?_⟩
  show -(q : Int) < -(p : Int)
  omega

theorem Front.lowest (h : Front .sell own p) : Flat.Lowest own p := by
  refine ⟨h.1, fun q hq => h.2 q ?_⟩
  show (q : Int) < (p : Int)
  omega

theorem sided_absorb {n : Nat} {d : Depth} (hp : Front s own p) (hq : Front s.other other q)
    (hle : s.other.rank q ≤ s.other.rank p) (hxp : x ≤ own p) (hxq : x ≤ other q)
    (h : Uncrosses (sided s (update own p (own p - x)) (update other q (other q - x))) n v d) :
    ∃ k, Uncrosses (sided s own other) k (x + v) d := by
  cases s with
  | buy =>
    have hle : (q : Int) ≤ p := hle
    exact Uncrosses.absorb hp.highest hq.lowest (by omega) hxp hxq h
  | sell =>
    have hle : -(q : Int) ≤ -p := hle
    exact Uncrosses.absorb hq.highest hp.lowest (by omega) hxq hxp h

theorem sided_uncrossed (h : ∀ p q : Nat, 0 < own p → 0 < other q → s.other.rank p < s.other.rank q) :
    (sided s own other).Uncrossed := by
  cases s with
  | buy =>
    intro p q hp hq
    have : (p : Int) < q := h p q hp hq
    omega
  | sell =>
    intro p q hp hq
    have : -(q : Int) < -p := h q p hq hp
    omega

/-! ## Matching as an uncrossing -/

theorem qtyAt_cons (r : Int) (m : Ticket) (l : List Ticket) :
    qtyAt r (m :: l) = (if m.price = r then m.left else 0) + qtyAt r l := by
  unfold qtyAt
  by_cases e : m.price = r
  · rw [if_pos e, filter_cons_of_pos (by simpa using e), map_cons, sum_cons]
  · rw [if_neg e, filter_cons_of_neg (by simpa using e), Int.zero_add]

theorem qtyAt_none {r : Int} (h : ∀ m ∈ l, m.price ≠ r) : qtyAt r l = 0 := by
  unfold qtyAt
  rw [filter_eq_nil_iff.mpr fun m hm hc => h m hm (of_decide_eq_true hc)]
  rfl

theorem exists_of_qtyAt {r : Int} (h : 0 < qtyAt r l) : ∃ m ∈ l, m.price = r := by
  by_contra hn
  rw [qtyAt_none fun m hm he => hn ⟨m, hm, he⟩] at h
  exact lt_irrefl _ h

theorem Ranks.tail (h : Ranks s (m :: l)) : Ranks s l :=
  ⟨(pairwise_cons.mp h.sorted).2, fun k hk => h.pos k (mem_cons_of_mem _ hk)⟩

/-- The price of the head is the best of the list. -/
theorem Ranks.front (h : Ranks s (m :: l)) (hp : m.price = p) : Front s (fun r => qtyAt r (m :: l)) p := by
  have hpos := h.pos m mem_cons_self
  refine ⟨?_, fun r hr => qtyAt_none fun k hk he => ?_⟩
  · show 0 < qtyAt p (m :: l)
    rw [qtyAt_cons, if_pos hp]
    have := qtyAt_nonneg (p := p) fun k hk => (h.tail.pos k hk).le
    omega
  · rcases mem_cons.mp hk with rfl | hk
    · rw [← hp, he] at hr
      exact lt_irrefl _ hr
    · have := (pairwise_cons.mp h.sorted).1 k hk
      rw [he, hp] at this
      omega

theorem update_add (f : Nat → Int) (p : Nat) (a b : Int) :
    update (update f p (f p + a)) p (update f p (f p + a) p - b) =
      update f p (f p + (a - b)) := by
  rw [update_self, update_idem]
  congr 1
  omega

theorem update_qtyAt_tail (hp : m.price = p) :
    update (fun r : Nat => qtyAt r (m :: l)) p (qtyAt p (m :: l) - m.left) = fun r : Nat => qtyAt r l := by
  funext r
  by_cases e : r = p
  · subst e
    rw [update_self, qtyAt_cons, if_pos hp]
    omega
  · rw [update_of_ne e, qtyAt_cons, if_neg (by omega), Int.zero_add]

theorem update_qtyAt_hit (hp : m.price = p) :
    update (fun r : Nat => qtyAt r (m :: l)) p (qtyAt p (m :: l) - x) =
      fun r : Nat => qtyAt r ({ m with filled := m.filled + x } :: l) := by
  funext r
  have hleft : Ticket.left { m with filled := m.filled + x } = m.left - x := by
    show m.qty - (m.filled + x) = m.qty - m.filled - x
    omega
  by_cases e : r = p
  · subst e
    rw [update_self, qtyAt_cons, qtyAt_cons, if_pos hp, if_pos hp, hleft]
    omega
  · have hne : ¬ m.price = r := by omega
    rw [update_of_ne e, qtyAt_cons, qtyAt_cons, if_neg hne, if_neg hne]

/-- An incoming `q` at `P` meets the makers `l`: they uncross the depth with `q` more at `P`. -/
theorem trade_uncrosses {q : Int} (hr : Ranks s.other l) (hl : ∀ m ∈ l, 0 ≤ m.price) (hown : ∀ p, 0 ≤ own p)
    (hu : ∀ p : Nat, 0 < own p → ∀ m ∈ l, s.other.rank p < s.other.rank m.price) (hq : 0 ≤ q) :
    ∃ n, Uncrosses (sided s (update own P (own P + q)) fun r => qtyAt r l) n
      ((trade (Ticket.within s P) l q).2.2.map (·.2)).sum
      (sided s (update own P (own P + (trade (Ticket.within s P) l q).2.1))
        fun r => qtyAt r (trade (Ticket.within s P) l q).1) := by
  -- nothing to trade with: no quantity left, or no maker within the limit
  have hdone : ∀ {q : Int} {l : List Ticket}, (∀ p : Nat, 0 < own p → ∀ m ∈ l, s.other.rank p < s.other.rank m.price) →
      (0 < q → ∀ m ∈ l, s.other.rank P < s.other.rank m.price) → 0 ≤ q →
      (sided s (update own P (own P + q)) fun r => qtyAt r l).Uncrossed := by
    intro q l hu hlim hq
    refine sided_uncrossed fun a c ha hc => ?_
    obtain ⟨k, hk, hkc⟩ := exists_of_qtyAt hc
    rw [← hkc]
    by_cases e : a = P
    · subst e
      rw [update_self] at ha
      by_cases hq0 : 0 < q
      · exact hlim hq0 k hk
      · exact hu a (by omega) k hk
    · rw [update_of_ne e] at ha
      exact hu a ha k hk
  induction l generalizing q with
  | nil => exact ⟨0, .done (hdone hu (fun _ k hk => (by cases hk)) hq)⟩
  | cons m l ih =>
    have hmp : m.price = m.price.toNat := (Int.toNat_of_nonneg (hl m mem_cons_self)).symm
    have hpos := hr.pos m mem_cons_self
    have hut : ∀ p : Nat, 0 < own p → ∀ k ∈ l, s.other.rank p < s.other.rank k.price :=
      fun p hp k hk => hu p hp k (mem_cons_of_mem _ hk)
    rw [trade]
    by_cases hstop : q ≤ 0 ∨ Ticket.within s P m = false
    · rw [if_pos hstop]
      refine ⟨0, .done (hdone hu (fun hq0 k hk => ?_) hq)⟩
      have hout : s.other.rank P < s.other.rank m.price := by
        have := hstop.resolve_left (by omega)
        unfold Ticket.within at this
        rw [decide_eq_false_iff_not] at this
        omega
      rcases mem_cons.mp hk with rfl | hk
      · exact hout
      · have := (pairwise_cons.mp hr.sorted).1 k hk
        omega
    · rw [if_neg hstop]
      have hq0 : 0 < q := by omega
      have hin : s.other.rank m.price ≤ s.other.rank P := by
        have : Ticket.within s P m := by simpa using fun hc => hstop (.inr hc)
        exact of_decide_eq_true this
      have hP := hown P
      have hfront : Front s (update own P (own P + q)) P := by
        refine ⟨by rw [update_self]; omega, fun a ha => ?_⟩
        rw [update_of_ne (by rintro rfl; exact lt_irrefl _ ha)]
        by_contra hne
        have h0 := hown a
        have h1 := hu a (by omega) m mem_cons_self
        rw [Side.rank_other, Side.rank_other] at h1 hin
        omega
      have hfo : Front s.other (fun r => qtyAt r (m :: l)) m.price.toNat := hr.front hmp
      have hle : s.other.rank m.price.toNat ≤ s.other.rank P := by rwa [← hmp]
      have hat : m.left ≤ qtyAt m.price.toNat (m :: l) := by
        rw [qtyAt_cons, if_pos hmp]
        have := qtyAt_nonneg (p := m.price.toNat) fun k hk => (hr.tail.pos k hk).le
        omega
      by_cases hleft : m.left ≤ q
      · rw [if_pos hleft]
        obtain ⟨n, hn⟩ := ih hr.tail (fun k hk => hl k (mem_cons_of_mem _ hk)) hut (q := q - m.left) (by omega)
        refine sided_absorb (x := m.left) (n := n) hfront hfo hle ?_ hat ?_
        · rw [update_self]
          omega
        · rw [update_add, update_qtyAt_tail hmp]
          exact hn
      · rw [if_neg hleft]
        have hu' : ∀ p : Nat, 0 < own p → ∀ k ∈ { m with filled := m.filled + q } :: l, s.other.rank p < s.other.rank k.price := by
          intro p hp k hk
          rcases mem_cons.mp hk with rfl | hk
          · exact hu p hp m mem_cons_self
          · exact hut p hp k hk
        refine sided_absorb (x := q) (n := 0) hfront hfo hle ?_ (by omega) ?_
        · rw [update_self]
          omega
        · rw [update_add, update_qtyAt_hit hmp, Int.sub_self]
          exact .done (hdone hu' (fun h0 => absurd h0 (lt_irrefl _)) le_rfl)

end

/-! ## The reference book -/

def RefBook.depth (x : RefBook) : Depth := ⟨fun p => qtyAt p (x.orders .buy), fun p => qtyAt p (x.orders .sell)⟩

/-- The quantity of all executions so far. -/
def RefBook.traded (x : RefBook) : Int := (x.trades.map fun t => t.2.2.2.1).sum

section

variable {V : Env} {x : RefBook} {r : Request} {s : Side} {g : Flat.Grid} {b b' : Book} {f : Flat.FlatBook} {p : Int}

theorem depth_sided (x : RefBook) (s : Side) :
    x.depth = sided s (fun p => qtyAt p (x.orders s)) fun p => qtyAt p (x.orders s.other) := by
  cases s <;> rfl

theorem add_sided (s : Side) (own other : Nat → Int) (p : Nat) (q : Int) :
    (sided s own other).add (s = .buy) p q = sided s (update own p (own p + q)) other := by
  cases s <;> rfl

theorem enter_perm (t : Ticket) (l : List Ticket) : (enter t l).Perm (t :: l) := by
  refine perm_middle.trans (List.Perm.cons t ?_)
  rw [takeWhile_append_dropWhile]

/-- Where an order joins the list does not matter for the sums. -/
theorem qtyAt_enter (p : Int) (t : Ticket) (l : List Ticket) :
    qtyAt p (enter t l) = (if t.price = p then t.left else 0) + qtyAt p l := by
  rw [← qtyAt_cons]
  exact (((enter_perm t l).filter _).map _).sum_eq

theorem traded_prints (id : Nat) (u : Side) (fs : List (Ticket × Int)) :
    ((RefBook.prints id u fs).map fun t => t.2.2.2.1).sum = (fs.map (·.2)).sum := by
  unfold RefBook.prints
  rw [map_map]
  rfl

/-- What is left of a LIMIT order is shown at its price. -/
theorem RefBook.settle_depth {q : Int} (hty : r.type = .limit) (hq : 0 ≤ q) (hp : 0 ≤ r.priceTicks) (id : Nat) :
    (x.settle r id q).depth = sided r.side
      (update (fun p => qtyAt p (x.orders r.side)) r.priceTicks.toNat (qtyAt r.priceTicks.toNat (x.orders r.side) + q))
      (fun p => qtyAt p (x.orders r.side.other)) ∧ (x.settle r id q).trades = x.trades := by
  unfold RefBook.settle
  by_cases h0 : q ≤ 0
  · rw [if_pos h0]
    refine ⟨?_, rfl⟩
    have hz : q = 0 := by omega
    rw [hz, Int.add_zero, update_eq_self (r.priceTicks.toNat) (fun p : Nat => qtyAt p (x.orders r.side))]
    exact depth_sided _ r.side
  · rw [if_neg h0, if_neg (by rw [hty]; decide)]
    refine ⟨?_, rfl⟩
    rw [depth_sided _ r.side]
    dsimp only
    rw [update_self, update_of_ne (Side.other_ne _)]
    congr 1
    funext p
    rw [qtyAt_enter]
    have hleft : Ticket.left ⟨id, r.side, r.priceTicks, r.qty, r.qty - q, r.type⟩ = q := by
      show r.qty - (r.qty - q) = q
      omega
    rw [hleft]
    by_cases e : p = r.priceTicks.toNat
    · subst e
      rw [update_self, if_pos (Int.toNat_of_nonneg hp).symm, Int.add_comm]
    · rw [update_of_ne e, if_neg (show ¬ r.priceTicks = p by omega), Int.zero_add]

/-- A LIMIT order uncrosses the depth it is added to. -/
theorem RefBook.submit_uncrosses (hr : ∀ s, Ranks s (x.orders s)) (hl : ∀ s, ∀ m ∈ x.orders s, 0 ≤ m.price)
    (hu : ∀ m ∈ x.orders .buy, ∀ k ∈ x.orders .sell, m.price < k.price) (hty : r.type = .limit) (hm : r.minQty ≤ 0)
    (hq : 0 < r.qty) (hp : inRange V r.priceTicks) :
    ∃ n, Uncrosses (x.depth.add (r.side = .buy) r.priceTicks.toNat r.qty) n ((x.submit V r).2.traded - x.traded)
      (x.submit V r).2.depth := by
  have hpass : x.refuses V r = none := by
    unfold RefBook.refuses
    rw [if_neg (by omega), if_neg (not_not.mpr hp), if_neg (by rw [hty]; simp), if_neg (by rw [hty]; simp), if_neg (by omega)]
  have hP : (r.priceTicks.toNat : Int) = r.priceTicks := Int.toNat_of_nonneg hp.1
  have hback : ∀ p : Nat, 0 < qtyAt p (x.orders r.side) → ∀ m ∈ x.orders r.side.other, r.side.other.rank p < r.side.other.rank m.price := by
    intro p hpos m hm
    obtain ⟨k, hk, hkp⟩ := exists_of_qtyAt hpos
    rw [← hkp]
    cases hs : r.side with
    | buy =>
      rw [hs] at hk hm
      exact hu k hk m hm
    | sell =>
      rw [hs] at hk hm
      have := hu m hm k hk
      show -k.price < -m.price
      omega
  obtain ⟨n, hn⟩ := trade_uncrosses (hr r.side.other) (hl r.side.other)
    (fun p => qtyAt_nonneg fun m hm => ((hr r.side).pos m hm).le) hback hq.le
  rw [hP] at hn
  obtain ⟨y, hy⟩ : ∃ y : RefBook, y = { x with nextId := if r.orderId = 0 then x.nextId + 1 else x.nextId } := ⟨_, rfl⟩
  obtain ⟨id, hid⟩ : ∃ id, id = if r.orderId = 0 then x.nextId else r.orderId := ⟨_, rfl⟩
  have hsub : (x.submit V r).2 = (y.meet r id).2.settle r id (y.meet r id).1 := by
    unfold RefBook.submit
    rw [hpass, hy, hid]
    dsimp only
    rw [if_neg (by rw [hty]; decide)]
  have horders : y.orders = x.orders := by rw [hy]
  have hprev : y.trades = x.trades := by rw [hy]
  have hq' : 0 ≤ (y.meet r id).1 := by
    show 0 ≤ (trade (Ticket.within r.side r.priceTicks) (y.orders r.side.other) r.qty).2.1
    rw [horders, (hr r.side.other).trade_left hq.le]
    omega
  obtain ⟨hdepth, htrades⟩ := RefBook.settle_depth hty hq' hp.1 id
  refine ⟨n, ?_⟩
  have hown : (y.meet r id).2.orders r.side = x.orders r.side := by
    show update y.orders r.side.other _ r.side = _
    rw [update_of_ne (Side.other_ne _).symm, horders]
  have hother : (y.meet r id).2.orders r.side.other = (trade (Ticket.within r.side r.priceTicks) (x.orders r.side.other) r.qty).1 := by
    show update y.orders r.side.other _ r.side.other = _
    rw [update_self, horders]
  have hleft : (y.meet r id).1 = (trade (Ticket.within r.side r.priceTicks) (x.orders r.side.other) r.qty).2.1 := by
    rw [← horders]
    rfl
  have htraded : ((y.meet r id).2.settle r id (y.meet r id).1).traded - x.traded =
      ((trade (Ticket.within r.side r.priceTicks) (x.orders r.side.other) r.qty).2.2.map (·.2)).sum := by
    unfold RefBook.traded
    rw [htrades]
    show ((y.trades ++ RefBook.prints id r.side _).map fun t => t.2.2.2.1).sum - _ = _
    rw [map_append, sum_append, traded_prints, horders, hprev]
    exact add_sub_cancel_left _ _
  rw [hsub, htraded, hdepth, depth_sided x r.side, add_sided, hown, hother, hleft, hP]
  exact hn

/-! ## The two books side by side -/

/-- What the orders of side `s` at price `p` display. -/
def Book.shownAt (V : Env) (b : Book) (s : Side) (p : Int) : Int :=
  (((b.core.queue V p).filter fun i => (b.order i).side = s).map fun i => (b.order i).displayedQty).sum

/-- A LIMIT order for the day that both books take: on the grid, with a positive quantity, a slot and an id
    that is free, and a level that does not overflow. -/
structure Feeds (g : Flat.Grid) (b : Book) (f : Flat.FlatBook) (r : Request) : Prop where
  type : r.type = .limit
  tif : r.tif = .day
  minQty : r.minQty = 0
  valid : g.valid r.priceTicks r.qty = true
  slot : b.core.freeHead ≠ none
  id : r.orderId ≠ 0 → b.core.find r.orderId = none
  fits : f.fits g (r.side = .buy) r.priceTicks r.qty = true

/-- The order as the flat book takes it. -/
def Request.flat (r : Request) : Flat.Order := ⟨r.priceTicks, r.qty, r.side = .buy⟩

/-- The two books after the same orders. -/
inductive Paired (V : Env) (g : Flat.Grid) : Book → Flat.FlatBook → Prop
  | init : Paired V g (fresh V) (Flat.fresh g)
  | step {b b' : Book} {f : Flat.FlatBook} {r : Request} {a : Outcome} : Paired V g b f → Feeds g b f r →
      Book.Step V b (.submit r) a b' → Paired V g b' (f.addOrder g r.flat)

/-- The same quantities on each side at each price, in the orders and in the level, the same best prices
    (each book has its own mark for no ask) and the same quantity traded. -/
structure OneBook (V : Env) (g : Flat.Grid) (b : Book) (f : Flat.FlatBook) : Prop where
  bids : ∀ p : Nat, b.shownAt V .buy p = f.bidQty p
  asks : ∀ p : Nat, b.shownAt V .sell p = f.askQty p
  levels : ∀ p : Nat, p < g.levels → (b.core.levels p).totalQty = f.bidQty p + f.askQty p
  bestBid : b.core.bestBid = f.bestBid
  bestAsk : (if b.core.bestAsk = NO_ASK_TICKS then g.NO_ASK else b.core.bestAsk) = f.bestAsk
  traded : (b.tape.trades.map (·.qty)).sum = f.traded

/-- Both show the depth of one reference book. -/
structure Joined (V : Env) (g : Flat.Grid) (b : Book) (f : Flat.FlatBook) (x : RefBook) : Prop where
  follows : Follows V b x
  flat : Flat.Rep g f
  depth : f.depth = x.depth
  traded : f.traded = x.traded

theorem Follows.shownAt (h : Follows V b x) (s : Side) (p : Int) : b.shownAt V s p = qtyAt p (x.orders s) := by
  have hw := h.orderly.wf
  rw [← h.agrees.orders]
  unfold Book.shownAt qtyAt
  by_cases hp : inRange V p
  · rw [ranked_at hw hp]
    unfold Book.tickets
    rw [filter_map, map_map]
    refine congrArg List.sum (map_congr_left fun i hi => ?_)
    have hi := (mem_filter.mp hi).1
    exact (h.orderly.visible p i hi).whole_shown (hw.resting hi) (h.typed.noIceberg p i hi)
  · have hq : b.core.queue V p = [] := eq_nil_iff_forall_not_mem.mpr fun i hi => hp (hw.links.grid p i hi)
    have hr : (b.ranked V s).filter (·.price = p) = [] := by
      refine filter_eq_nil_iff.mpr fun m hm hc => hp ?_
      obtain ⟨-, r, i, hi, rfl⟩ := mem_ranked hm
      rw [← of_decide_eq_true hc, hw.ticket_price hi]
      exact hw.links.grid r i hi
    rw [hq, hr]
    rfl

theorem Follows.uncrossed_orders (h : Follows V b x) : ∀ m ∈ x.orders .buy, ∀ k ∈ x.orders .sell, m.price < k.price := by
  intro m hm k hk
  rw [← h.agrees.orders] at hm hk
  exact h.uncrossed _ _ (h.orderly.wf.rests_of_ranked hm) (h.orderly.wf.rests_of_ranked hk)

theorem Follows.on_grid (h : Follows V b x) (s : Side) : ∀ m ∈ x.orders s, inRange V m.price := by
  intro m hm
  rw [← h.agrees.orders] at hm
  obtain ⟨i, hi, -⟩ := h.orderly.wf.rests_of_ranked hm
  exact h.orderly.wf.links.grid _ i hi

/-- Both sides of a level together. -/
theorem Follows.left_sum (h : Follows V b x) (p : Int) :
    ((b.tickets V p).map Ticket.left).sum = qtyAt p (x.orders .buy) + qtyAt p (x.orders .sell) := by
  rw [h.queueAt]
  unfold RefBook.queueAt qtyAt
  rw [filter_append, map_append, sum_append]

/-- What a level displays is what its orders have left. -/
theorem Follows.shownSum (h : Follows V b x) (p : Int) :
    OrderBook.shownSum b.core.body (b.core.queue V p) = qtyAt p (x.orders .buy) + qtyAt p (x.orders .sell) := by
  rw [← h.left_sum]
  unfold OrderBook.shownSum Book.tickets
  rw [map_map]
  refine congrArg List.sum (map_congr_left fun i hi => ?_)
  exact (h.orderly.visible p i hi).whole_shown (h.orderly.wf.resting hi) (h.typed.noIceberg p i hi)

/-- The flat book's sums are in 32 bits, so those of the levels are. -/
theorem Joined.sumsFit (h : Joined V g b f x) : b.SumsFit V := by
  intro k _
  have hbid : qtyAt k (x.orders .buy) = f.bidQty k := (congrFun (congrArg Depth.bid h.depth) k).symm
  have hask : qtyAt k (x.orders .sell) = f.askQty k := (congrFun (congrArg Depth.ask h.depth) k).symm
  have h1 := h.flat.bids.small k
  have h2 := h.flat.asks.small k
  have h3 := h.flat.bids.nonneg k
  have h4 := h.flat.asks.nonneg k
  rw [h.follows.shownSum, hbid, hask]
  by_cases hb : f.bidQty k = 0
  · omega
  · by_cases ha : f.askQty k = 0
    · omega
    · obtain ⟨m, hm, hmk⟩ := exists_of_qtyAt (r := k) (l := x.orders .buy) (by omega)
      obtain ⟨n, hn, hnk⟩ := exists_of_qtyAt (r := k) (l := x.orders .sell) (by omega)
      have := h.follows.uncrossed_orders m hm n hn
      omega

theorem Feeds.plain (h : Feeds g b f r) : plainKind r.kind := ⟨.inl h.type, h.tif⟩

theorem Joined.step {a : Outcome} (h : Joined V g b f x) (hg : V.LEVELS = g.levels) (hr : Feeds g b f r)
    (hs : Book.Step V b (.submit r) a b') : Joined V g b' (f.addOrder g r.flat) (x.submit V r).2 := by
  obtain ⟨n, hn⟩ := hs
  obtain ⟨y, hs⟩ := Book.returned hn fun _ => rfl
  obtain ⟨h0, hl, hq⟩ := Flat.valid_iff.mp hr.valid
  have hfok : b.fokFits V r := by
    unfold Book.fokFits
    rw [hr.type]
    rfl
  have hfol := (submit_follows h.follows hr.plain h.sumsFit hfok hr.id hr.slot hs).2
  obtain ⟨k, hu⟩ := RefBook.submit_uncrosses (V := V) h.follows.ranks
    (fun s m hm => (h.follows.on_grid s m hm).1) h.follows.uncrossed_orders hr.type (by rw [hr.minQty]) hq ⟨h0, by omega⟩
  obtain ⟨k2, v, hrep, hu2, -, htr⟩ := Flat.addOrder_matched (o := r.flat) h.flat hr.valid hr.fits
  rw [h.depth] at hu2
  obtain ⟨-, hv, hd⟩ := hu.unique hu2
  refine ⟨hfol, hrep, hd.symm, ?_⟩
  rw [htr, h.traded, ← hv]
  omega

/-- The cached best price is the best at which the side shows a quantity. -/
theorem Follows.front (h : Follows V b x) (s : Side) :
    (b.core.best s = s.noBest ∧ ∀ p : Nat, qtyAt p (x.orders s) = 0) ∨
      ∃ p : Nat, inRange V p ∧ b.core.best s = p ∧ Front s (fun p => qtyAt p (x.orders s)) p := by
  have hw := h.orderly.wf
  have hrests : ∀ p, b.core.Rests V s p → 0 < qtyAt p (x.orders s) := by
    rintro p ⟨i, hi, hs⟩
    have hm := mem_ranked_of hw hi hs
    rw [h.agrees.orders] at hm
    have hpos : ∀ a ∈ ((x.orders s).filter (·.price = p)).map Ticket.left, 0 < a := by
      intro a ha
      obtain ⟨m, hm, rfl⟩ := mem_map.mp ha
      exact (h.ranks s).pos m (mem_filter.mp hm).1
    refine sum_pos _ hpos fun hnil => ?_
    have hin : (b.core.body i).ticket ∈ (x.orders s).filter (·.price = p) :=
      mem_filter.mpr ⟨hm, decide_eq_true (hw.ticket_price hi)⟩
    rw [map_eq_nil_iff.mp hnil] at hin
    cases hin
  have hback : ∀ p, 0 < qtyAt p (x.orders s) → b.core.Rests V s p := by
    intro p hp
    obtain ⟨m, hm, rfl⟩ := exists_of_qtyAt hp
    rw [← h.agrees.orders] at hm
    exact hw.rests_of_ranked hm
  have hzero : ∀ p, ¬ b.core.Rests V s p → qtyAt p (x.orders s) = 0 := by
    intro p hn
    have hnn := qtyAt_nonneg (p := p) fun m hm => ((h.ranks s).pos m hm).le
    by_contra hne
    exact hn (hback p (by omega))
  rcases h.orderly.best s with ⟨hb, hn⟩ | ⟨hat, hmin⟩
  · exact .inl ⟨hb, fun p => hzero p (hn p)⟩
  · have hgrid : inRange V (b.core.best s) := by
      obtain ⟨i, hi, -⟩ := hat
      exact hw.links.grid _ i hi
    have hp : b.core.best s = (b.core.best s).toNat := (Int.toNat_of_nonneg hgrid.1).symm
    refine .inr ⟨(b.core.best s).toNat, hp ▸ hgrid, hp, ?_, fun q hq => hzero q fun hr => ?_⟩
    · show 0 < qtyAt ((b.core.best s).toNat : Int) (x.orders s)
      rw [← hp]
      exact hrests _ hat
    · have := hmin q hr
      rw [← hp] at hq
      omega

theorem Joined.oneBook (h : Joined V g b f x) (hg : V.LEVELS = g.levels) (ht : Told b) : OneBook V g b f := by
  have hbid : f.bidQty = fun p : Nat => qtyAt p (x.orders .buy) := congrArg Depth.bid h.depth
  have hask : f.askQty = fun p : Nat => qtyAt p (x.orders .sell) := congrArg Depth.ask h.depth
  refine ⟨fun p => ?_, fun p => ?_, fun p hp => ?_, ?_, ?_, ?_⟩
  · rw [h.follows.shownAt, hbid]
  · rw [h.follows.shownAt, hask]
  · rw [h.follows.orderly.shown h.follows.typed.noIceberg h.sumsFit ⟨by omega, by omega⟩, h.follows.left_sum, hbid, hask]
  · have hflat := h.flat.bestBid
    rw [hbid] at hflat
    show b.core.best .buy = f.bestBid
    rcases h.follows.front .buy with ⟨hb, hz⟩ | ⟨p, -, hb, hp⟩
    · rcases hflat with ⟨hf, -⟩ | ⟨q, -, hq⟩
      · rw [hb, hf]
        rfl
      · exact absurd (hz q) (ne_of_gt hq.1)
    · rcases hflat with ⟨-, hz⟩ | ⟨q, hf, hq⟩
      · exact absurd (hz p) (ne_of_gt hp.1)
      · rw [hb, hf, hp.highest.unique hq]
  · have hflat := h.flat.bestAsk
    rw [hask] at hflat
    show (if b.core.best .sell = NO_ASK_TICKS then g.NO_ASK else b.core.best .sell) = f.bestAsk
    rcases h.follows.front .sell with ⟨hb, hz⟩ | ⟨p, hr, hb, hp⟩
    · rw [if_pos (show b.core.best .sell = NO_ASK_TICKS from hb)]
      rcases hflat with ⟨hf, -⟩ | ⟨q, -, hq⟩
      · exact hf.symm
      · exact absurd (hz q) (ne_of_gt hq.1)
    · have hne : ¬ b.core.best .sell = NO_ASK_TICKS := by
        have := V.levels_int32
        have := hr.2
        rw [hb]
        unfold NO_ASK_TICKS
        omega
      rw [if_neg hne]
      rcases hflat with ⟨-, hz⟩ | ⟨q, hf, hq⟩
      · exact absurd (hz p) (ne_of_gt hp.1)
      · rw [hb, hf, hp.lowest.unique hq]
  · rw [h.traded, RefBook.traded, ← h.follows.agrees.trades, ← ht.trades, map_map]
    rfl

theorem Paired.joined (hg : V.LEVELS = g.levels) (h : Paired V g b f) :
    (∃ x, Joined V g b f x) ∧ Book.Reach V (fun _ op _ => op.entry = true) b := by
  induction h with
  | init => exact ⟨⟨{}, (fresh_sim V).toFollows, (Flat.fresh_sound g).toRep, rfl, rfl⟩, .init⟩
  | step _ hr hs ih =>
    obtain ⟨⟨x, hx⟩, hreach⟩ := ih
    exact ⟨⟨_, hx.step hg hr hs⟩, .step hreach hs rfl⟩

end

/-- After the same orders the two books are one, and the book of queues returns from the next. -/
theorem two_engines_agree {V : Env} {g : Flat.Grid} {b : Book} {f : Flat.FlatBook} (hg : V.LEVELS = g.levels)
    (h : Paired V g b f) : OneBook V g b f ∧ ∀ r, Feeds g b f r → ∃ a b', Book.Step V b (.submit r) a b' := by
  obtain ⟨⟨x, hx⟩, hreach⟩ := h.joined hg
  refine ⟨hx.oneBook hg (Reach.told hreach), fun r hr => ?_⟩
  obtain ⟨n, y, b', hs⟩ := submit_returns hx.follows hx.sumsFit (.inl hr.plain)
  exact ⟨_, b', n, Option.map_eq_some_iff.mpr ⟨_, hs, rfl⟩⟩

instance (g : Flat.Grid) (b : Book) (f : Flat.FlatBook) (r : Request) : Decidable (Feeds g b f r) :=
  decidable_of_iff (r.type = .limit ∧ r.tif = .day ∧ r.minQty = 0 ∧ g.valid r.priceTicks r.qty = true ∧
      b.core.freeHead ≠ none ∧ (r.orderId ≠ 0 → b.core.find r.orderId = none) ∧
      f.fits g (r.side = .buy) r.priceTicks r.qty = true)
    ⟨fun h => ⟨h.1, h.2.1, h.2.2.1, h.2.2.2.1, h.2.2.2.2.1, h.2.2.2.2.2.1, h.2.2.2.2.2.2⟩,
      fun h => ⟨h.type, h.tif, h.minQty, h.valid, h.slot, h.id, h.fits⟩⟩

/-- The small book on the grid of the flat one. -/
def env128 : Env := { smallEnv with LEVELS := 128, levels_pos := by decide, levels_int32 := by decide }

/-- A BUY order takes a level of the lower word and rests in the upper. -/
theorem two_engines_agree_small : ∃ b f, Paired env128 Flat.grid128 b f ∧ f.traded = 5 ∧ f.bestBid = 64 ∧
    OneBook env128 Flat.grid128 b f := by
  let r : Request := { side := .sell, priceTicks := 63, qty := 5 }
  let r' : Request := { side := .buy, priceTicks := 64, qty := 8, clientId := 1, orderId := 9 }
  let f := (Flat.fresh Flat.grid128).addOrder Flat.grid128 r.flat
  have hrun : (Book.exec env128 20 (.submit r) (fresh env128)).any (fun y =>
      decide (Feeds Flat.grid128 (fresh env128) (Flat.fresh Flat.grid128) r) && decide (Feeds Flat.grid128 y.2 f r') &&
        (Book.exec env128 20 (.submit r') y.2).isSome) = true := by decide +kernel
  have hflat : (f.addOrder Flat.grid128 r'.flat).traded = 5 ∧ (f.addOrder Flat.grid128 r'.flat).bestBid = 64 := by decide +kernel
  obtain ⟨⟨a, b⟩, he, hf⟩ := (Option.any_eq_true _ _).mp hrun
  simp only [Bool.and_eq_true, decide_eq_true_eq] at hf
  obtain ⟨⟨h1, h2⟩, h3⟩ := hf
  obtain ⟨⟨a', b'⟩, he'⟩ := Option.isSome_iff_exists.mp h3
  have hp : Paired env128 Flat.grid128 b' (f.addOrder Flat.grid128 r'.flat) := .step (.step .init h1 ⟨20, he⟩) h2 ⟨20, he'⟩
  exact ⟨b', _, hp, hflat.1, hflat.2, (two_engines_agree rfl hp).1⟩

end HftLab.OrderBook
