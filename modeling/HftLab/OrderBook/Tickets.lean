/-
  HftLab.OrderBook.Tickets — the lists of the reference book through its own operations.

  A trade and an entry keep a list in order (`Ranks.trade`, `Ranks.enter`), so the reference book keeps
  its lists in order whatever it is given (`RefBook.Sane`). `heldBy k` is what the orders with the
  number `k` have left in a list: a trade takes from it, an entry of another order leaves it alone.
-/

import Mathlib.Data.List.TakeWhile
import HftLab.OrderBook.TwoEngines

namespace HftLab.OrderBook

open Lib Function List

/-- What the orders with the number `k` have left in a list. -/
def heldBy (k : Nat) (l : List Ticket) : Int := ((l.filter (·.id = k)).map Ticket.left).sum

/-- The lists of a reference book are in order, with prices on the grid. -/
structure RefBook.Sane (V : Env) (x : RefBook) : Prop where
  ranks : ∀ s, Ranks s (x.orders s)
  grid : ∀ s, ∀ m ∈ x.orders s, inRange V m.price

section

variable {V : Env} {x : RefBook} {r : Request} {s : Side} {l : List Ticket} {m t : Ticket} {ok : Ticket → Bool} {q : Int} {k : Nat}

theorem heldBy_cons (k : Nat) (m : Ticket) (l : List Ticket) :
    heldBy k (m :: l) = (if m.id = k then m.left else 0) + heldBy k l := by
  unfold heldBy
  by_cases e : m.id = k
  · rw [if_pos e, filter_cons_of_pos (by simpa using e), map_cons, sum_cons]
  · rw [if_neg e, filter_cons_of_neg (by simpa using e), Int.zero_add]

theorem heldBy_none (h : ∀ m ∈ l, m.id ≠ k) : heldBy k l = 0 := by
  unfold heldBy
  rw [filter_eq_nil_iff.mpr fun m hm hc => h m hm (of_decide_eq_true hc)]
  rfl

theorem heldBy_enter (k : Nat) (t : Ticket) (l : List Ticket) :
    heldBy k (enter t l) = (if t.id = k then t.left else 0) + heldBy k l := by
  rw [← heldBy_cons]
  exact (((enter_perm t l).filter _).map _).sum_eq

/-- A maker that a trade leaves was there before, with as much left or more. -/
theorem mem_trade (h : m ∈ (trade ok l q).1) : ∃ k ∈ l, k.id = m.id ∧ k.price = m.price ∧ k.side = m.side := by
  induction l generalizing q with
  | nil => cases h
  | cons k l ih =>
    rw [trade] at h
    split at h
    · exact ⟨m, h, rfl, rfl, rfl⟩
    · split at h
      · obtain ⟨j, hj, he⟩ := ih h
        exact ⟨j, mem_cons_of_mem _ hj, he⟩
      · rcases mem_cons.mp h with rfl | h
        · exact ⟨k, mem_cons_self, rfl, rfl, rfl⟩
        · exact ⟨m, mem_cons_of_mem _ h, rfl, rfl, rfl⟩

theorem Ranks.trade (h : Ranks s l) (ok : Ticket → Bool) (q : Int) : Ranks s (trade ok l q).1 := by
  induction l generalizing q with
  | nil => exact h
  | cons m l ih =>
    obtain ⟨hm, hl⟩ := pairwise_cons.mp h.sorted
    rw [OrderBook.trade]
    split
    · exact h
    · split
      · exact ih h.tail (q - m.left)
      · refine ⟨pairwise_cons.mpr ⟨hm, hl⟩, fun k hk => ?_⟩
        rcases mem_cons.mp hk with rfl | hk
        · show 0 < m.qty - (m.filled + q)
          have : ¬ m.qty - m.filled ≤ q := by assumption
          omega
        · exact h.pos k (mem_cons_of_mem _ hk)

theorem heldBy_trade (h : ∀ m ∈ l, 0 < m.left) (k : Nat) (ok : Ticket → Bool) (q : Int) :
    heldBy k (trade ok l q).1 ≤ heldBy k l := by
  induction l generalizing q with
  | nil => exact le_rfl
  | cons m l ih =>
    have hm := h m mem_cons_self
    rw [trade]
    split
    · exact le_rfl
    · split
      · refine (ih (fun j hj => h j (mem_cons_of_mem _ hj)) _).trans ?_
        rw [heldBy_cons]
        split <;> omega
      · rw [heldBy_cons, heldBy_cons]
        show (if m.id = k then m.qty - (m.filled + q) else 0) + _ ≤ (if m.id = k then m.qty - m.filled else 0) + _
        split <;> omega

theorem trade_rest_le (ok : Ticket → Bool) (h : ∀ m ∈ l, 0 < m.left) (hq : 0 ≤ q) :
    0 ≤ (trade ok l q).2.1 ∧ (trade ok l q).2.1 ≤ q := by
  induction l generalizing q with
  | nil => exact ⟨hq, le_rfl⟩
  | cons m l ih =>
    have hm := h m mem_cons_self
    rw [trade]
    split
    · exact ⟨hq, le_rfl⟩
    · split
      · obtain ⟨h1, h2⟩ := ih (q := q - m.left) (fun j hj => h j (mem_cons_of_mem _ hj)) (by omega)
        refine ⟨h1, h2.trans ?_⟩
        omega
      · exact ⟨le_rfl, hq⟩

theorem Ranks.enter (h : Ranks s l) (hs : t.side = s) (ht : 0 < t.left) : Ranks s (enter t l) := by
  subst hs
  have hfront : ∀ m ∈ l.takeWhile (fun m => t.side.rank m.price ≤ t.side.rank t.price), t.side.rank m.price ≤ t.side.rank t.price := by
    intro m hm
    have := mem_takeWhile_imp hm
    simpa using this
  have hback : ∀ m ∈ l.dropWhile (fun m => t.side.rank m.price ≤ t.side.rank t.price), t.side.rank t.price ≤ t.side.rank m.price := by
    intro m hm
    have hsorted := h.sorted.sublist (dropWhile_sublist fun m : Ticket => decide (t.side.rank m.price ≤ t.side.rank t.price))
    cases hd : l.dropWhile (fun m => t.side.rank m.price ≤ t.side.rank t.price) with
    | nil =>
      rw [hd] at hm
      cases hm
    | cons k ks =>
      have hk : ¬ t.side.rank k.price ≤ t.side.rank t.price := by
        have := List.head?_dropWhile_not (fun m : Ticket => decide (t.side.rank m.price ≤ t.side.rank t.price)) l
        rw [hd] at this
        simpa using this
      rw [hd] at hm hsorted
      rcases mem_cons.mp hm with rfl | hm
      · omega
      · have := (pairwise_cons.mp hsorted).1 m hm
        omega
  refine ⟨?_, fun m hm => ?_⟩
  · refine pairwise_append.mpr ⟨h.sorted.sublist (takeWhile_sublist _), ?_, fun m hm k hk => ?_⟩
    · exact pairwise_cons.mpr ⟨hback, h.sorted.sublist (dropWhile_sublist _)⟩
    · rcases mem_cons.mp hk with rfl | hk
      · exact hfront m hm
      · exact (hfront m hm).trans (hback k hk)
  · rcases mem_enter hm with rfl | hm
    · exact ht
    · exact h.pos m hm

theorem Ranks.filter (h : Ranks s l) (f : Ticket → Bool) : Ranks s (l.filter f) :=
  ⟨h.sorted.sublist filter_sublist, fun m hm => h.pos m (mem_filter.mp hm).1⟩

/-! ## The book -/

/-- A LIMIT or an IOC order without a minimum is not refused, if it is one at all. -/
theorem refuses_none (hty : r.type = .limit ∨ r.type = .ioc) (hm : r.minQty = 0) (hq : 0 < r.qty) (hp : inRange V r.priceTicks) :
    x.refuses V r = none := by
  have hpo : r.type ≠ .postOnly := by
    intro h
    rw [h] at hty
    simp at hty
  have hfok : r.type ≠ .fok := by
    intro h
    rw [h] at hty
    simp at hty
  unfold RefBook.refuses
  rw [if_neg (by omega), if_neg (not_not.mpr hp), if_neg fun h => hpo h.1, if_neg fun h => hfok h.1, if_neg (by omega)]

/-- What a LIMIT order makes of the lists: the other side trades, and what is left of it enters. -/
theorem RefBook.submit_lists (hty : r.type = .limit) (hm : r.minQty = 0) (hq : 0 < r.qty) (hp : inRange V r.priceTicks)
    (hid : r.orderId ≠ 0) : (x.submit V r).2.orders r.side.other =
        (trade (Ticket.within r.side r.priceTicks) (x.orders r.side.other) r.qty).1 ∧
      (x.submit V r).2.orders r.side = if (trade (Ticket.within r.side r.priceTicks) (x.orders r.side.other) r.qty).2.1 ≤ 0
        then x.orders r.side
        else enter ⟨r.orderId, r.side, r.priceTicks, r.qty,
          r.qty - (trade (Ticket.within r.side r.priceTicks) (x.orders r.side.other) r.qty).2.1, .limit⟩ (x.orders r.side) := by
  unfold RefBook.submit
  rw [refuses_none (.inl hty) hm hq hp]
  dsimp only
  rw [if_neg (by rw [hty]; decide), if_neg hid, if_neg hid]
  unfold RefBook.meet RefBook.settle
  dsimp only
  rw [hty]
  have hne : (r.side : Side) ≠ r.side.other := (Side.other_ne _).symm
  split
  · exact ⟨update_self .., update_of_ne hne ..⟩
  · rw [if_neg (by decide)]
    refine ⟨?_, ?_⟩
    · dsimp only
      rw [update_of_ne hne.symm, update_self]
    · dsimp only
      rw [update_self, update_of_ne hne]

theorem RefBook.Sane.submit (h : x.Sane V) (hty : r.type = .limit) (hm : r.minQty = 0) (hq : 0 < r.qty) (hp : inRange V r.priceTicks)
    (hid : r.orderId ≠ 0) : (x.submit V r).2.Sane V := by
  obtain ⟨hother, hown⟩ := RefBook.submit_lists hty hm hq hp hid
  have hrest := trade_rest_le (Ticket.within r.side r.priceTicks) (h.ranks r.side.other).pos hq.le
  have hentered : Ranks r.side ((x.submit V r).2.orders r.side) ∧ ∀ m ∈ (x.submit V r).2.orders r.side, inRange V m.price := by
    rw [hown]
    split
    · exact ⟨h.ranks r.side, h.grid r.side⟩
    · rename_i hpos
      refine ⟨(h.ranks r.side).enter rfl ?_, fun m hm => ?_⟩
      · show 0 < r.qty - (r.qty - _)
        omega
      · rcases mem_enter hm with rfl | hm
        · exact hp
        · exact h.grid r.side m hm
  have htraded : Ranks r.side.other ((x.submit V r).2.orders r.side.other) ∧
      ∀ m ∈ (x.submit V r).2.orders r.side.other, inRange V m.price := by
    rw [hother]
    refine ⟨(h.ranks r.side.other).trade _ _, fun m hm => ?_⟩
    obtain ⟨k, hk, -, hprice, -⟩ := mem_trade hm
    exact hprice ▸ h.grid r.side.other k hk
  have hall : ∀ s, Ranks s ((x.submit V r).2.orders s) ∧ ∀ m ∈ (x.submit V r).2.orders s, inRange V m.price := by
    intro s
    by_cases e : s = r.side
    · rw [e]
      exact hentered
    · rw [Side.eq_other_of_ne e]
      exact htraded
  exact ⟨fun s => (hall s).1, fun s => (hall s).2⟩

theorem RefBook.Sane.drop (h : x.Sane V) (k : Nat) : (x.drop k).Sane V :=
  ⟨fun s => (h.ranks s).filter _, fun s m hm => h.grid s m (mem_filter.mp hm).1⟩

end

end HftLab.OrderBook
