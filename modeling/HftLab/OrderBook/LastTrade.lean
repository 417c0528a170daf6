/-
  HftLab.OrderBook.LastTrade — where the last trade price stands after a submission.

  The match of an order takes the other side from the best price outward, so the book before it tells the price of its last
  trade (`Book.EndsAt`). A book out of order, or self-trade prevention, may turn the match aside; it still trades within reach
  only (`Book.MayEndAt`).

  - `submit_settles`: where the price may stand when a submission that meets no bracket returns, and that no stop is let in.
-/

import HftLab.OrderBook.PreTrade
import HftLab.OrderBook.Reaches
import HftLab.OrderBook.Stops

namespace HftLab.OrderBook

open Lib Function List

/-- `r`, matched from the best price outward, trades at `p`: orders rest there within its limit, and those before them have less
    left than it wants. -/
def Book.TradesAt (V : Env) (b : Book) (r : Request) (p : Int) : Prop :=
  b.core.Rests V r.side.other p ∧ r.side.other.rank p ≤ r.side.other.rank r.priceTicks ∧
    b.sideQty V r.side.other (fun x => decide (r.side.other.rank x < r.side.other.rank p)) < r.qty

/-- `p` is the last price at which `r` trades, or it trades nowhere and `p` is that of the last trade before. -/
def Book.EndsAt (V : Env) (b : Book) (r : Request) (p : Int) : Prop :=
  (b.TradesAt V r p ∧ ∀ x, b.TradesAt V r x → r.side.other.rank x ≤ r.side.other.rank p) ∨
    ((∀ x, ¬ b.TradesAt V r x) ∧ p = b.tape.lastTradeTicks)

/-- The side that `r` comes to is in order, and self-trade prevention has nothing to do within its limit. -/
structure Book.InOrder (V : Env) (b : Book) (r : Request) : Prop where
  sweep : Sweep V r.side.other b
  free : b.gates.stpPolicy = .none ∨ b.gates.stpPolicy = .decrementAndCxl ∨
    ∀ p, r.side.other.rank p ≤ r.side.other.rank r.priceTicks → ∀ i ∈ b.core.queue V p,
      b.sameTradingEntity (b.core.body i).clientId r.clientId = false

/-- The last trade price may be `p` after the submission of `r`. -/
def Book.MayEndAt (V : Env) (b : Book) (r : Request) (p : Int) : Prop :=
  if (b.startMatch V r).isSome then
    (p = b.tape.lastTradeTicks ∨ b.core.InReach r.side.other r.priceTicks p ∧ b.core.queue V p ≠ []) ∧
      (b.InOrder V r → b.EndsAt V r p)
  else p = b.tape.lastTradeTicks

/-- Nothing is cancelled when `r` is submitted: there is no link of an order in reach, no client's protection, no work put off, and
    self-trade prevention has nothing to do. -/
structure Book.Undisturbed (V : Env) (b : Book) (r : Request) : Prop where
  order : b.InOrder V r
  bare : b.meetsNoBracket V r
  links : ∀ i ∈ b.reach V r.side.other r.priceTicks, b.oco.partner (b.core.body i).id = none
  pending : b.oco.pendingCancel = []
  unwatched : b.gates.mmpEnabled = false
  trips : b.mmpPendingTrips = []

/-- From `b` to `c` nothing was cancelled, and there is nothing to cancel. -/
structure Uncancelled (b c : Book) : Prop where
  oco : c.oco = b.oco
  unwatched : c.gates.mmpEnabled = false
  trips : c.mmpPendingTrips = []
  log : ∃ l, c.log = l ++ b.log ∧ ∀ o, .cancel o ∉ l

/-- From `b` to `c` the trades `l` were made, and the last trade price went with them. -/
structure Traded (b c : Book) (l : List Trade) : Prop where
  trades : c.tape.trades = b.tape.trades ++ l
  last : c.tape.lastTradeTicks = (l.getLast?.map (·.priceTicks)).getD b.tape.lastTradeTicks

section

variable {V : Env} {b b' c d : Book} {r : Request} {p q limit : Int} {i t ts n : Nat} {s : Side} {l : List Trade} {taker : Order}
    {x : Nat × RejectReason}

/-! ## Prices of a match -/

theorem Traded.refl (b : Book) : Traded b b [] := ⟨(append_nil _).symm, rfl⟩

theorem Traded.still (h : Traded b c l) (ht : d.tape.trades = c.tape.trades) (hl : d.tape.lastTradeTicks = c.tape.lastTradeTicks) :
    Traded b d l := ⟨ht.trans h.trades, hl.trans h.last⟩

theorem Traded.exec (h : Traded b c l) (hi : (c.core.body i).priceTicks = p) (ts : Nat) (q : Int) :
    ∃ x, x.priceTicks = p ∧ Traded b (c.executed V p t ts i q) (l ++ [x]) := by
  obtain ⟨x, htr, hx, -⟩ := executed_trades V c p q t i ts
  have hxp : x.priceTicks = p := hx.trans hi
  refine ⟨x, hxp, ?_, ?_⟩
  · rw [htr, h.trades, append_assoc]
  · rw [executed_last, hi, getLast?_concat]
    exact hxp.symm

/-- What rests up to `p` is what rests before `p` and what rests there. -/
theorem Wf.sideQty_upto (hw : Wf V b) (hr : inRange V p) : b.sideQty V s (fun x => decide (s.rank x ≤ s.rank p)) =
    b.sideQty V s (fun x => decide (s.rank x < s.rank p)) + b.levelQty V s p := by
  have hterm : ∀ x, (if decide (s.rank x ≤ s.rank p) = true then b.levelQty V s x else 0) =
      (if decide (s.rank x < s.rank p) = true then b.levelQty V s x else 0) + if x = p then b.levelQty V s x else 0 := by
    intro x
    have hrank : s.rank x = s.rank p ↔ x = p := by cases s <;> simp [Side.rank]
    simp only [decide_eq_true_eq]
    split_ifs <;> omega
  rw [hw.sideQty_eq, hw.sideQty_eq, Finset.sum_congr rfl fun x _ => hterm x, Finset.sum_add_distrib, Finset.sum_ite_eq',
    if_pos (Finset.mem_Ico.mpr hr)]

/-- A match that takes all that is wanted, or all within the limit, ends at the last price at which it was to trade. -/
theorem Takes.ends (h : Takes V s taker b c l) (hw : Wf V b) (hw' : Wf V c) (h0 : 0 ≤ q) {qty : Int} (hqty : qty = q + traded l)
    (hpos : 0 < qty) (hend : q = 0 ∨ ∀ x, s.rank x ≤ s.rank taker.priceTicks → ¬ c.core.Rests V s x) :
    (∃ x, l.getLast? = some x ∧ b.core.Rests V s x.priceTicks ∧
        b.sideQty V s (fun y => decide (s.rank y < s.rank x.priceTicks)) < qty ∧
        ∀ p, b.core.Rests V s p → s.rank p ≤ s.rank taker.priceTicks →
          b.sideQty V s (fun y => decide (s.rank y < s.rank p)) < qty → s.rank p ≤ s.rank x.priceTicks) ∨
      (l = [] ∧ ∀ p, b.core.Rests V s p → ¬ s.rank p ≤ s.rank taker.priceTicks) := by
  have hunsold : ∀ p, tradedAt p l = 0 → b.core.Rests V s p → c.core.Rests V s p := by
    intro p hp hr
    by_contra hno
    have hlevel := h.level p
    rw [levelQty_zero hno, hp] at hlevel
    have := hw.levelQty_pos hr
    omega
  rcases eq_nil_or_concat l with rfl | ⟨l', x, hl⟩
  · refine .inr ⟨rfl, fun p hr hp => ?_⟩
    have ht : traded ([] : List Trade) = 0 := rfl
    exact (hend.resolve_left (by omega)) p hp (hunsold p rfl hr)
  · rw [concat_eq_append] at hl
    subst hl
    -- the trades go outward, so none is beyond the last
    have hx : x ∈ l' ++ [x] := by simp
    have hout : ∀ y ∈ l' ++ [x], s.rank y.priceTicks ≤ s.rank x.priceTicks := by
      intro y hy
      rcases mem_append.mp hy with hy | hy
      · exact (pairwise_append.mp h.outward).2.2 y hy x mem_cons_self
      · rw [mem_singleton.mp hy]
    have hat : 0 < tradedAt x.priceTicks (l' ++ [x]) := by
      rw [tradedAt_append, tradedAt_one, if_pos rfl]
      have h1 : 0 ≤ tradedAt x.priceTicks l' := tradedAt_nonneg (fun y hy => (h.pos y (mem_append_left _ hy)).le) _
      have h2 := h.pos x hx
      omega
    have hrest : b.core.Rests V s x.priceTicks := by
      by_contra hno
      have hlevel := h.level x.priceTicks
      rw [levelQty_zero hno] at hlevel
      have := hw'.levelQty_nonneg s x.priceTicks
      omega
    -- up to the last price the trades are all that went, and nothing is left before it
    have hsum := h.sum (fun y => decide (s.rank y ≤ s.rank x.priceTicks)) fun y hy => decide_eq_true (hout y hy)
    have hbefore := hw.sideQty_upto (s := s) (h.grid x hx)
    have hafter := hw'.sideQty_upto (s := s) (h.grid x hx)
    have hnone : c.sideQty V s (fun y => decide (s.rank y < s.rank x.priceTicks)) = 0 := by
      refine hw'.sideQty_zero fun y hy hr => ?_
      have := h.front x hx y hr
      rw [decide_eq_true_eq] at hy
      omega
    have hlevel := h.level x.priceTicks
    refine .inl ⟨x, getLast?_concat, hrest, by omega, fun p hr hp hlt => ?_⟩
    by_contra hbeyond
    have hzero : tradedAt p (l' ++ [x]) = 0 := by
      unfold tradedAt
      rw [filter_eq_nil_iff.mpr]
      · rfl
      · intro y hy he
        have := hout y hy
        rw [of_decide_eq_true he] at this
        omega
    have hq : q = 0 := hend.resolve_right fun hno => hno p hp (hunsold p hzero hr)
    have hmono := hw.sideQty_mono (s := s) (P := fun y => decide (s.rank y ≤ s.rank x.priceTicks))
      (Q := fun y => decide (s.rank y < s.rank p)) fun y hy => by
        rw [decide_eq_true_eq] at hy ⊢
        omega
    have hleft := hw'.sideQty_nonneg s fun y => decide (s.rank y ≤ s.rank x.priceTicks)
    omega

theorem Book.EndsAt.unique (h : b.EndsAt V r p) (h' : b.EndsAt V r q) : p = q := by
  rcases h with ⟨hp, hmax⟩ | ⟨hno, rfl⟩
  · rcases h' with ⟨hq, hmax'⟩ | ⟨hno, -⟩
    · have h1 := hmax q hq
      have h2 := hmax' p hp
      have hrank : r.side.other.rank p = r.side.other.rank q := by omega
      revert hrank
      cases r.side <;> simp [Side.rank, Side.other]
    · exact absurd hp (hno p)
  · rcases h' with ⟨hq, -⟩ | ⟨-, rfl⟩
    · exact absurd hq (hno q)
    · rfl

/-- In order there is one price at which the match may end. -/
theorem Book.MayEndAt.unique (h : b.MayEndAt V r p) (h' : b.MayEndAt V r q) (ho : b.InOrder V r) : p = q := by
  unfold Book.MayEndAt at h h'
  split at h
  · rename_i hm
    rw [if_pos hm] at h'
    exact (h.2 ho).unique (h'.2 ho)
  · rename_i hm
    rw [if_neg hm] at h'
    exact h.trans h'.symm

/-! ## A submission -/

theorem Uncancelled.trans (h : Uncancelled b c) (h' : Uncancelled c d) : Uncancelled b d := by
  obtain ⟨l, hl, hno⟩ := h.log
  obtain ⟨l', hl', hno'⟩ := h'.log
  refine ⟨h'.oco.trans h.oco, h'.unwatched, h'.trips, l' ++ l, by rw [hl', hl, append_assoc], fun o ho => ?_⟩
  rcases mem_append.mp ho with ho | ho
  · exact hno' o ho
  · exact hno o ho

theorem Uncancelled.exec (h : Uncancelled b c) (hw : Wf V c) (hi : i ∈ c.core.queue V p) (ht : t ∈ c.inFlight)
    (hlink : c.oco.partner (c.core.body i).id = none) (ts : Nat) (q : Int) : Uncancelled b (c.executed V p t ts i q) := by
  have hne := hw.flying_ne_queued hi ht
  have hcount : c.mmpCount V (c.core.body i).clientId = none := by
    unfold Book.mmpCount
    rw [h.unwatched]
    rfl
  have hrest : (c.executed V p t ts i q).gates.mmpEnabled = c.gates.mmpEnabled ∧
      (c.executed V p t ts i q).mmpPendingTrips = (c.mmpOnMakerFill V (c.core.body i).clientId).mmpPendingTrips := by
    unfold Book.executed Book.settleMaker
    dsimp only
    split
    · exact ⟨rfl, rfl⟩
    · split
      · exact ⟨rfl, rfl⟩
      · exact ⟨rfl, rfl⟩
  refine h.trans ⟨?_, hrest.1.trans h.unwatched, ?_, [.fill (c.order i) (c.order t) q], Book.executed_log, fun o ho => ?_⟩
  · rcases executed_leaves (V := V) (b := c) (p := p) hne ts q with ⟨-, ho⟩ | ⟨-, ho⟩
    · exact ho
    · rw [ho]
      unfold Oco.complete
      rw [hlink]
  · rw [hrest.2]
    unfold Book.mmpOnMakerFill
    rw [hcount]
    exact h.trips
  · cases mem_singleton.mp ho

/-- In order, self-trade prevention handles no order that the match comes to. -/
theorem Book.InOrder.never {e : Book} {j : Nat} {pol : SelfTradePrevention} (h : b.InOrder V r) (hw : Wf V b)
    (hm : b.startMatch V r = some (i, ts, q, c)) (hr : Reaching V r.side.other i c e)
    (hp : c.core.InReach r.side.other (c.core.body i).priceTicks p) (hj : j ∈ e.core.queue V p) (hpol : e.gates.stpPolicy = pol)
    (h1 : pol ≠ .none) (h2 : pol ≠ .decrementAndCxl) (hsame : e.sameTradingEntity (e.order j).clientId (e.order i).clientId) :
    False := by
  have hstart := startMatch_started hw hm
  obtain ⟨id, t0, hb⟩ := hstart.body
  have hpol' : b.gates.stpPolicy = pol := hstart.stpPolicy.symm.trans (hr.policy.symm.trans hpol)
  rcases h.free with hn | hn | hn
  · exact h1 (hpol'.symm.trans hn)
  · exact h2 (hpol'.symm.trans hn)
  · have hq : j ∈ b.core.queue V p := hstart.unmoved.queue ▸ hr.sub p j hj
    have hlim : r.side.other.rank p ≤ r.side.other.rank r.priceTicks := by
      have := hp.2
      rw [hb] at this
      exact this
    have hmaker : (e.order j).clientId = (b.core.body j).clientId :=
      (congrArg (·.2.1) (hr.stamp j)).trans (congrArg Order.clientId (hstart.unmoved.body p j hq))
    have htaker : (e.order i).clientId = r.clientId := (congrArg (·.2.1) (hr.stamp i)).trans (congrArg Order.clientId hb)
    have hno := hn p hlim j hq
    unfold Book.sameTradingEntity at hno hsame
    rw [hmaker, htaker, hr.firms, hstart.clientToFirm, hno] at hsame
    cases hsame

end

end HftLab.OrderBook
