/-
  HftLab.OrderBook.Previews — `fok_fillable`, `walk_the_book` and `would_cross` against the reference book.

  The previews walk the levels from the cached best price to the limit. In an orderly book whose sums
  fit they see exactly the makers within the limit (`Spans`, `tailQty`). `fok_fillable` adds the levels
  up in 32 bits: it is right as long as its sum fits until the quantity is reached (`fokFits`).
-/

import HftLab.OrderBook.Simulation

namespace HftLab.OrderBook

open Lib List

/-- The running sum of `fok_fillable` stays in 32 bits until it reaches the quantity. -/
def Core.fokFits (c : Core) (dp qty : Int) : Nat → Int → Int → Bool
  | 0, _, _ => true
  | n + 1, p, avail =>
    let avail := avail + (c.levels p).totalQty
    avail ≤ int32Max && (qty ≤ avail || c.fokFits dp qty n (p + dp) avail)

/-- The `n` levels from `p` on, away from the best price of side `s`, are those on the grid within `limit`. -/
structure Spans (V : Env) (s : Side) (limit : Int) (n : Nat) (p : Int) : Prop where
  all : ∀ r, inRange V r → s.rank r ≤ s.rank limit → s.rank r < s.rank p + n
  only : ∀ r, s.rank p ≤ s.rank r → s.rank r < s.rank p + n → inRange V r ∧ s.rank r ≤ s.rank limit

/-- What the makers within `limit`, at `p` or worse, have left. -/
def tailQty (s : Side) (limit p : Int) (l : List Ticket) : Int :=
  ((l.filter fun m => s.rank m.price ≤ s.rank limit && s.rank p ≤ s.rank m.price).map Ticket.left).sum

/-- What the makers at `p` have left. -/
def qtyAt (p : Int) (l : List Ticket) : Int := ((l.filter (·.price = p)).map Ticket.left).sum

section

variable {V : Env} {b : Book} {p limit qty : Int} {n : Nat} {s : Side} {l : List Ticket}

theorem Spans.next (h : Spans V s limit (n + 1) p) : Spans V s limit n (s.worse p) := by
  refine ⟨fun r hr hl => ?_, fun r hr hl => ?_⟩
  · have := h.all r hr hl
    rw [s.rank_worse]
    push_cast at this
    omega
  · rw [s.rank_worse] at hr hl
    exact h.only r (by omega) (by push_cast; omega)

theorem Spans.here (h : Spans V s limit (n + 1) p) : inRange V p ∧ s.rank p ≤ s.rank limit :=
  h.only p le_rfl (by push_cast; omega)

theorem scanStep_worse (s : Side) (p : Int) : p + Core.scanStep s.other = s.worse p := by
  cases s with
  | buy => rfl
  | sell => rfl

theorem tailQty_step (h : s.rank p ≤ s.rank limit) : tailQty s limit p l = qtyAt p l + tailQty s limit (s.worse p) l := by
  refine sum_filter_or Ticket.left (fun m _ => ?_) fun m _ hm => ?_
  · rw [s.rank_worse, Bool.eq_iff_iff]
    simp only [Bool.and_eq_true, Bool.or_eq_true, decide_eq_true_eq]
    constructor
    · rintro ⟨h1, h2⟩
      by_cases e : m.price = p
      · exact .inl e
      · have : s.rank m.price ≠ s.rank p := fun he => e (Side.rank_inj he)
        exact .inr ⟨h1, by omega⟩
    · rintro (rfl | ⟨h1, h2⟩)
      · exact ⟨h, le_rfl⟩
      · exact ⟨h1, by omega⟩
  · rw [decide_eq_true_eq] at hm
    rw [s.rank_worse, hm, Bool.and_eq_false_iff, decide_eq_false_iff_not, decide_eq_false_iff_not]
    omega

theorem tailQty_nonneg (h : ∀ m ∈ l, 0 ≤ m.left) : 0 ≤ tailQty s limit p l := by
  refine sum_nonneg fun x hx => ?_
  obtain ⟨m, hm, rfl⟩ := mem_map.mp hx
  exact h m (mem_of_mem_filter hm)

theorem tailQty_over (hg : ∀ m ∈ l, inRange V m.price) (h : Spans V s limit 0 p) : tailQty s limit p l = 0 := by
  unfold tailQty
  rw [filter_eq_nil_iff.mpr]
  · rfl
  · intro m hm
    simp only [Bool.and_eq_true, decide_eq_true_eq, not_and]
    intro hl hr
    have := h.all m.price (hg m hm) hl
    push_cast at this
    omega

theorem qtyAt_nonneg (h : ∀ m ∈ l, 0 ≤ m.left) : 0 ≤ qtyAt p l := by
  refine sum_nonneg fun x hx => ?_
  obtain ⟨m, hm, rfl⟩ := mem_map.mp hx
  exact h m (mem_of_mem_filter hm)

/-! ## The two scans -/

/-- From `start` on, the levels show what the makers have left. -/
structure Faithful (V : Env) (s : Side) (c : Core) (start : Int) (l : List Ticket) : Prop where
  level : ∀ r, inRange V r → s.rank start ≤ s.rank r → (c.levels r).totalQty = qtyAt r l
  grid : ∀ m ∈ l, inRange V m.price
  left : ∀ m ∈ l, 0 ≤ m.left

theorem fokScan_eq {c : Core} {start avail : Int} (h : Faithful V s c start l) (hs : Spans V s limit n p)
    (hp : s.rank start ≤ s.rank p) (h0 : 0 ≤ avail) (hfit : c.fokFits (Core.scanStep s.other) qty n p avail) :
    c.fokScan (Core.scanStep s.other) qty n p avail = decide (qty ≤ avail + tailQty s limit p l) := by
  induction n generalizing p avail with
  | zero => rw [Core.fokScan, tailQty_over h.grid hs, Int.add_zero]
  | succ n ih =>
    obtain ⟨hr, hlim⟩ := hs.here
    have hlev := h.level p hr hp
    have hq := qtyAt_nonneg (p := p) h.left
    have ht : 0 ≤ tailQty s limit (s.worse p) l := tailQty_nonneg h.left
    rw [Core.fokFits, scanStep_worse] at hfit
    simp only [Bool.and_eq_true, Bool.or_eq_true, decide_eq_true_eq] at hfit
    rw [Core.fokScan, scanStep_worse, tailQty_step hlim]
    rw [i32_eq ⟨by unfold int32Min; omega, hfit.1⟩]
    split
    · exact (decide_eq_true (by omega)).symm
    · rename_i hn
      rw [ih hs.next (by rw [s.rank_worse]; omega) (by omega) (hfit.2.resolve_left hn), hlev, Int.add_assoc]

theorem walkScan_eq {c : Core} {start remaining : Int} (sum : Int) (w : WalkResult) (h : Faithful V s c start l)
    (hs : Spans V s limit n p) (hp : s.rank start ≤ s.rank p) (h0 : 0 ≤ remaining) :
    (c.walkScan (Core.scanStep s.other) n p remaining sum w).2.fillableQty = w.fillableQty + min remaining (tailQty s limit p l) := by
  induction n generalizing p remaining sum w with
  | zero =>
    rw [Core.walkScan, tailQty_over h.grid hs, min_eq_right h0, Int.add_zero]
  | succ n ih =>
    obtain ⟨hr, hlim⟩ := hs.here
    have hlev := h.level p hr hp
    have hq := qtyAt_nonneg (p := p) h.left
    have ht : 0 ≤ tailQty s limit (s.worse p) l := tailQty_nonneg h.left
    have hp' : s.rank start ≤ s.rank (s.worse p) := by rw [s.rank_worse]; omega
    rw [Core.walkScan, scanStep_worse, tailQty_step hlim]
    split
    · show w.fillableQty = _
      omega
    · dsimp only
      split
      · rw [ih _ _ hs.next hp' h0]
        omega
      · rw [ih _ _ hs.next hp' (by omega)]
        show w.fillableQty + min (c.levels p).totalQty remaining + _ = _
        omega

/-! ## In an orderly book -/

/-- Level `p` in the list of a side. -/
theorem ranked_at (hw : Wf V b) (hp : inRange V p) : (b.ranked V s).filter (·.price = p) = (b.tickets V p).filter (·.side = s) := by
  obtain ⟨X, Y, hX, hY, hsplit⟩ := ranked_split hp s b
  have hne : ∀ (r : Int) (m : Ticket), r ≠ p → m ∈ b.tickets V r → decide (m.price = p) = false := by
    intro r m hr hm
    obtain ⟨i, hi, rfl⟩ := mem_tickets.mp hm
    rw [hw.ticket_price hi]
    exact decide_eq_false hr
  have h1 : X.filter (·.price = p) = [] := by
    rw [filter_eq_nil_iff]
    intro m hm
    obtain ⟨r, hr, hmr, -⟩ := hX m hm
    rw [hne r m (by rintro rfl; omega) hmr]
    exact Bool.false_ne_true
  have h2 : Y.filter (·.price = p) = [] := by
    rw [filter_eq_nil_iff]
    intro m hm
    obtain ⟨r, hr, hmr, -⟩ := hY m hm
    rw [hne r m (by rintro rfl; omega) hmr]
    exact Bool.false_ne_true
  have h3 : ((b.tickets V p).filter (·.side = s)).filter (·.price = p) = (b.tickets V p).filter (·.side = s) := by
    rw [filter_eq_self]
    intro m hm
    obtain ⟨i, hi, rfl⟩ := mem_tickets.mp (mem_filter.mp hm).1
    rw [hw.ticket_price hi]
    exact decide_eq_true rfl
  rw [hsplit b fun _ _ => rfl, filter_append, filter_append, h1, h2, h3, nil_append, append_nil]

theorem mem_ranked_of (hw : Wf V b) {i : Nat} (hi : i ∈ b.core.queue V p) (hs : (b.core.body i).side = s) :
    (b.core.body i).ticket ∈ b.ranked V s := by
  refine mem_flatMap.mpr ⟨p, mem_ladder.mpr (hw.links.grid p i hi), mem_filter.mpr ⟨?_, ?_⟩⟩
  · exact mem_tickets.mpr ⟨i, hi, rfl⟩
  · exact decide_eq_true hs

/-- What a level shows is what its orders have left. -/
theorem Orderly.shown (h : Orderly V b) (hn : b.NoIceberg V) (hf : b.SumsFit V) (hp : inRange V p) :
    (b.core.levels p).totalQty = ((b.tickets V p).map Ticket.left).sum := by
  have hsum : shownSum b.core.body (b.core.queue V p) = ((b.tickets V p).map Ticket.left).sum := by
    unfold shownSum Book.tickets
    rw [map_map]
    refine congrArg List.sum (map_congr_left fun i hi => ?_)
    exact (h.visible p i hi).whole_shown (h.wf.resting hi) (hn p i hi)
  have h0 : 0 ≤ shownSum b.core.body (b.core.queue V p) := by
    refine sum_nonneg fun x hx => ?_
    obtain ⟨i, hi, rfl⟩ := mem_map.mp hx
    exact (h.visible p i hi).shown.le
  have hmax := hf p.toNat (mem_range.mpr (by have := hp.1; have := hp.2; omega))
  rw [Int.toNat_of_nonneg hp.1] at hmax
  have h1 : (b.core.levels p).totalQty = i32 (shownSum b.core.body (b.core.queue V p)) := congrArg Tally.qty (h.summed p)
  rw [h1, i32_eq ⟨by unfold int32Min; omega, hmax⟩, hsum]

theorem Orderly.faithful (h : Orderly V b) (hn : b.NoIceberg V) (hf : b.SumsFit V) (hu : b.core.Uncrossed V) (s : Side) :
    Faithful V s b.core (b.core.best s) (b.ranked V s) := by
  refine ⟨fun r hr hbest => ?_, fun m hm => ?_, fun m hm => ?_⟩
  · have hside : ∀ m ∈ b.tickets V r, m.side = s := by
      intro m hm
      obtain ⟨i, hi, rfl⟩ := mem_tickets.mp hm
      by_contra hne
      rcases h.best s with ⟨h1, -⟩ | ⟨h1, -⟩
      · rw [h1] at hbest
        have := Side.rank_lt_noBest hr s
        omega
      · exact hu.behind h1 hbest ⟨i, hi, Side.eq_other_of_ne hne⟩
    unfold qtyAt
    rw [h.shown hn hf hr, ranked_at h.wf hr, filter_eq_self.mpr fun m hm => decide_eq_true (hside m hm)]
  · obtain ⟨-, p, i, hi, rfl⟩ := mem_ranked hm
    rw [h.wf.ticket_price hi]
    exact h.wf.links.grid p i hi
  · obtain ⟨-, p, i, hi, rfl⟩ := mem_ranked hm
    have := (h.wf.resting hi).left
    show 0 ≤ (b.core.body i).totalQty - (b.core.body i).filledQty
    omega

theorem scan_spans (hb : b.core.best s = s.noBest ∨ inRange V (b.core.best s)) :
    Spans V s limit (b.core.scanLength V s.other limit) (b.core.best s) := by
  have hmax := V.levels_int32
  cases s with
  | sell =>
    have hb : b.core.bestAsk = int32Max ∨ inRange V b.core.bestAsk := hb
    unfold inRange at hb
    have hn : b.core.scanLength V Side.sell.other limit = (min limit (V.LEVELS - 1) - b.core.bestAsk + 1).toNat := rfl
    refine ⟨fun r hr hl => ?_, fun r h1 h2 => ?_⟩
    · have hl : r ≤ limit := hl
      have hr2 := hr.2
      show r < b.core.bestAsk + _
      rw [hn]
      omega
    · have h1 : b.core.bestAsk ≤ r := h1
      have h2 : r < b.core.bestAsk + (b.core.scanLength V Side.sell.other limit : Nat) := h2
      rw [hn] at h2
      refine ⟨⟨by omega, by omega⟩, ?_⟩
      show r ≤ limit
      omega
  | buy =>
    have hb : b.core.bestBid = -1 ∨ inRange V b.core.bestBid := hb
    unfold inRange at hb
    have hpos := V.levels_pos
    have hn : b.core.scanLength V Side.buy.other limit = (b.core.bestBid - max limit 0 + 1).toNat := rfl
    refine ⟨fun r hr hl => ?_, fun r h1 h2 => ?_⟩
    · have hl : -r ≤ -limit := hl
      have hr1 := hr.1
      show -r < -b.core.bestBid + _
      rw [hn]
      omega
    · have h1 : -b.core.bestBid ≤ -r := h1
      have h2 : -r < -b.core.bestBid + (b.core.scanLength V Side.buy.other limit : Nat) := h2
      rw [hn] at h2
      refine ⟨⟨by omega, by omega⟩, ?_⟩
      show -r ≤ -limit
      omega

/-- All the makers within the limit are at the best price or behind it. -/
theorem reach_eq (hw : Wf V b) (hb : b.core.BestAt V s) :
    reach s.other limit (b.ranked V s) = tailQty s limit (b.core.best s) (b.ranked V s) := by
  refine congrArg (fun l : List Ticket => (l.map Ticket.left).sum) (filter_congr fun m hm => ?_)
  have hrest := hw.rests_of_ranked hm
  have hle : s.rank (b.core.best s) ≤ s.rank m.price := by
    rcases hb with ⟨-, h2⟩ | ⟨-, h2⟩
    · exact absurd hrest (h2 _)
    · exact h2 _ hrest
  unfold Ticket.within
  rw [Side.other_other, decide_eq_true hle, Bool.and_true]

theorem scanStart_best (c : Core) (s : Side) : c.scanStart s.other = c.best s := by cases s <;> rfl

theorem fokFillable_eq (h : Orderly V b) (hn : b.NoIceberg V) (hf : b.SumsFit V) (hu : b.core.Uncrossed V)
    (hfit : b.core.fokFits (Core.scanStep s.other) qty (b.core.scanLength V s.other limit) (b.core.best s) 0) :
    b.core.fokFillable V s.other limit qty = decide (qty ≤ reach s.other limit (b.ranked V s)) := by
  have hspan : Spans V s limit _ _ := scan_spans ((h.best s).onGrid h.wf)
  unfold Core.fokFillable
  rw [scanStart_best, fokScan_eq (h.faithful hn hf hu s) hspan le_rfl le_rfl hfit, reach_eq h.wf (h.best s), Int.zero_add]

theorem walkTheBook_eq (h : Orderly V b) (hn : b.NoIceberg V) (hf : b.SumsFit V) (hu : b.core.Uncrossed V) (hq : 0 ≤ qty) :
    (b.core.walkTheBook V s.other qty limit).fillableQty = min qty (reach s.other limit (b.ranked V s)) := by
  have hspan : Spans V s limit _ _ := scan_spans ((h.best s).onGrid h.wf)
  have hw := walkScan_eq 0 {} (h.faithful hn hf hu s) hspan le_rfl hq
  unfold Core.walkTheBook
  rw [scanStart_best, reach_eq h.wf (h.best s)]
  exact hw.trans (Int.zero_add _)

theorem wouldCross_eq (hw : Wf V b) (hb : b.core.BestAt V s) :
    b.core.wouldCross s.other limit = (b.ranked V s).any (Ticket.within s.other limit) := by
  rw [Bool.eq_iff_iff, wouldCross_side, any_eq_true]
  have hok : ∀ m : Ticket, Ticket.within s.other limit m ↔ s.rank m.price ≤ s.rank limit := by
    intro m
    unfold Ticket.within
    rw [Side.other_other, decide_eq_true_eq]
  constructor
  · rintro ⟨hne, hle⟩
    rcases hb with ⟨h1, -⟩ | ⟨⟨i, hi, hs⟩, -⟩
    · exact absurd h1 hne
    · exact ⟨_, mem_ranked_of hw hi hs, (hok _).mpr (by rw [hw.ticket_price hi]; exact hle)⟩
  · rintro ⟨m, hm, hk⟩
    have hrest := hw.rests_of_ranked hm
    have hle := (hok m).mp hk
    rcases hb with ⟨-, h2⟩ | ⟨⟨i, hi, -⟩, h2⟩
    · exact absurd hrest (h2 _)
    · refine ⟨fun he => ?_, (h2 _ hrest).trans hle⟩
      rw [he] at hi
      exact Side.not_inRange_noBest V s (hw.links.grid _ i hi)

end

end HftLab.OrderBook
