/-
  HftLab.OrderBook.Sweep — a match, level by level, and the cached best prices.

  `Sweep V s b`: an uncrossed book of visible orders whose caches are right, as the price loop against
  side `s` finds it at each iteration. While a level is matched the cache stays where it is, until the
  level is empty (`Mid`). Both the cancel of self-trade prevention and the price loop move it then; if
  the cancel does, the price loop moves it once more, past the next level (`Report.strands`).

  - `priceLoop_sweep`: unless a cancel stranded a level, the caches are right at every iteration, and the
    loop ends with all of the taker's quantity matched, at its limit, or stopped (`Passed`).
-/

import HftLab.OrderBook.BestPrice
import HftLab.OrderBook.Conservation
import HftLab.OrderBook.Sums

namespace HftLab.OrderBook

open Lib Function List

/-! ## Orders that show themselves -/

/-- A resting order shows quantity; all it has left, unless it is an iceberg. -/
structure Order.Visible (o : Order) : Prop where
  shown : 0 < o.displayedQty
  whole : o.type ≠ .iceberg → o.totalQty - o.filledQty ≤ o.displayedQty

/-- An order in flight would show all of it, unless it is an iceberg. -/
structure Order.Coming (o : Order) : Prop where
  shown : 0 < o.displayedQty
  whole : o.type ≠ .iceberg → o.totalQty ≤ o.displayedQty

theorem Order.Coming.atRest {o : Order} (h : o.Coming) (h0 : 0 ≤ o.filledQty) (hlt : o.filledQty < o.totalQty) :
    o.atRest.Visible := by
  have hs := h.shown
  unfold Order.atRest
  split
  · refine ⟨?_, fun ht => ?_⟩
    · show 0 < min o.displayedQty (o.totalQty - o.filledQty)
      omega
    · have hw := h.whole ht
      show o.totalQty - o.filledQty ≤ min o.displayedQty (o.totalQty - o.filledQty)
      omega
  · refine ⟨hs, fun ht => ?_⟩
    have hw := h.whole ht
    show o.totalQty - o.filledQty ≤ o.displayedQty
    omega

theorem Request.order_coming {r : Request} (hq : 0 < r.qty) (ht : r.type ≠ .hidden) (id ts : Nat) : (r.order id ts).Coming := by
  have hshow : 0 < r.shown ∧ (r.type ≠ .iceberg → r.qty ≤ r.shown) := by
    unfold Request.shown Request.iceShow
    rw [if_neg ht]
    by_cases hi : r.type = .iceberg ∧ 0 < r.displayedQty
    · rw [if_pos hi, if_pos (by omega)]
      exact ⟨by omega, fun hn => absurd hi.1 hn⟩
    · rw [if_neg hi, if_neg (by omega)]
      exact ⟨hq, fun _ => le_rfl⟩
  exact ⟨hshow.1, hshow.2⟩

def Book.AllVisible (V : Env) (b : Book) : Prop := ∀ p, ∀ i ∈ b.core.queue V p, (b.core.body i).Visible

/-! ## What happens at one level -/

/-- Only the queue of level `p` changed, and only by losing orders or reordering them. -/
structure Aside (V : Env) (p : Int) (b b' : Book) : Prop where
  queue : ∀ r, r ≠ p → b'.core.queue V r = b.core.queue V r
  levels : ∀ r, r ≠ p → b'.core.levels r = b.core.levels r
  sub : ∀ r, ∀ j ∈ b'.core.queue V r, j ∈ b.core.queue V r
  side : ∀ j, (b'.core.body j).side = (b.core.body j).side

section

variable {V : Env} {b b' b'' : Book} {p : Int} {t i : Nat} {s : Side} {r q : Int} {l : List Nat}

theorem Aside.refl (V : Env) (p : Int) (b : Book) : Aside V p b b :=
  ⟨fun _ _ => rfl, fun _ _ => rfl, fun _ _ h => h, fun _ => rfl⟩

theorem Aside.trans (h : Aside V p b b') (h' : Aside V p b' b'') : Aside V p b b'' :=
  ⟨fun r hr => (h'.queue r hr).trans (h.queue r hr), fun r hr => (h'.levels r hr).trans (h.levels r hr),
    fun r j hj => h.sub r j (h'.sub r j hj), fun j => (h'.side j).trans (h.side j)⟩

theorem Aside.rests (h : Aside V p b b') (hr : b'.core.Rests V s r) : b.core.Rests V s r := by
  obtain ⟨j, hj, hs⟩ := hr
  exact ⟨j, h.sub r j hj, (h.side j).symm.trans hs⟩

theorem Aside.uncrossed (h : Aside V p b b') (hu : b.core.Uncrossed V) : b'.core.Uncrossed V :=
  fun r q hr hq => hu r q (h.rests hr) (h.rests hq)

theorem Aside.rests_iff (h : Aside V p b b') (hr : r ≠ p) : b'.core.Rests V s r ↔ b.core.Rests V s r := by
  unfold Core.Rests
  rw [h.queue r hr]
  simp only [h.side]

theorem Aside.tells (h : Aside V p b b') (hr : r ≠ p) (ht : b.core.Tells V r) : b'.core.Tells V r := by
  unfold Core.Tells
  rw [h.queue r hr, h.levels r hr]
  exact ht

theorem mem_of_update {Q : Int → List Nat} {j : Nat} (hl : ∀ k ∈ l, k ∈ Q p) (hj : j ∈ update Q p l r) : j ∈ Q r := by
  by_cases e : r = p
  · subst e
    rw [update_self] at hj
    exact hl j hj
  · rwa [update_of_ne e] at hj

theorem executed_levels (hne : i ≠ t) (ts : Nat) (q : Int) (hr : r ≠ p) :
    (b.executed V p t ts i q).core.levels r = b.core.levels r := by
  have hf : (b.core.fill p t i q).levels r = b.core.levels r := update_of_ne hr ..
  have hs : Settled b p t i q (b.executed V p t ts i q) := Book.settled hne
  cases hs with
  | refresh shown _ _ _ _ hc =>
    rw [hc, ← hf]
    unfold Core.refresh
    dsimp only
    split
    · exact update_of_ne hr ..
    · rw [Core.requeue_levels_of_ne _ _ _ hr]
      exact update_of_ne hr ..
  | complete _ hc =>
    rw [hc, ← hf]
    show (Core.setLevel _ p _).levels r = _
    rw [Core.setLevel_levels_of_ne hr, Core.splice_levels_of_ne _ _ hr]
    rfl
  | partial_ _ _ hc =>
    rw [hc, ← hf]
    rfl

theorem executed_cached (hne : i ≠ t) (ts : Nat) (q : Int) : (b.executed V p t ts i q).core.best = b.core.best ∧
    (b.executed V p t ts i q).core.nextOrderId = b.core.nextOrderId := by
  have hs : Settled b p t i q (b.executed V p t ts i q) := Book.settled hne
  cases hs with
  | refresh shown _ _ _ _ hc =>
    rw [hc]
    unfold Core.refresh
    dsimp only
    split <;> exact ⟨rfl, rfl⟩
  | complete _ hc =>
    rw [hc]
    exact ⟨rfl, rfl⟩
  | partial_ _ _ hc =>
    rw [hc]
    exact ⟨rfl, rfl⟩

theorem executed_best (hne : i ≠ t) (ts : Nat) (q : Int) : (b.executed V p t ts i q).core.best = b.core.best :=
  (executed_cached hne ts q).1

theorem executed_aside (hw : Wf V b) (hi : i ∈ b.core.queue V p) (ht : t ∈ b.inFlight) (ts : Nat) (q : Int) :
    Aside V p b (b.executed V p t ts i q) := by
  have hne := hw.flying_ne_queued hi ht
  obtain ⟨o, l, hcase, hQ, hB⟩ := hw.executed_cases hi ht ts q
  refine ⟨fun r hr => ?_, fun r hr => executed_levels hne ts q hr, fun r j hj => ?_, fun j => ?_⟩
  · rw [hQ, update_of_ne hr]
  · rw [hQ] at hj
    exact mem_of_update (fun k hk => hcase.sub hi hk) hj
  · rw [hB]
    by_cases e : j = i
    · subst e
      rw [update_self]
      cases hcase <;> rfl
    · rw [update_of_ne e]
      by_cases e' : j = t
      · subst e'
        rw [update_self]
        rfl
      · rw [update_of_ne e']

/-- A maker that showed itself still does, if it stays in its level. -/
theorem Executed.visible {o o' : Order} {l' : List Nat} (h : Executed o l i q o' l') (hn : l.Nodup) (hi : i ∈ l') (ho : o.Visible)
    (hq : q ≤ o.displayedQty) : o'.Visible := by
  cases h with
  | refresh shown hD hpos _ htype => exact ⟨hpos, fun hne => absurd htype hne⟩
  | complete => exact absurd hi hn.not_mem_erase
  | partial_ hlt hty =>
    have hrest : q ≠ o.displayedQty := by
      intro e
      have := ho.whole (hty e.symm)
      omega
    refine ⟨?_, fun hne => ?_⟩
    · show 0 < o.displayedQty - q
      omega
    · have := ho.whole hne
      show o.totalQty - (o.filledQty + q) ≤ o.displayedQty - q
      omega

theorem executed_visible (h : b.AllVisible V) (hw : Wf V b) (hi : i ∈ b.core.queue V p) (ht : t ∈ b.inFlight) (ts : Nat)
    (hq : q ≤ (b.core.body i).displayedQty) : (b.executed V p t ts i q).AllVisible V := by
  have hi' := h p i hi
  have haside := executed_aside hw hi ht ts q
  obtain ⟨o, l, hcase, hQ, hB⟩ := hw.executed_cases hi ht ts q
  have ho : i ∈ l → o.Visible := fun hm => hcase.visible (hw.links.level p).nodup hm hi' hq
  intro r j hj
  have hr : j ∈ b.core.queue V r := haside.sub r j hj
  rw [hB]
  by_cases e : j = i
  · subst e
    have hp : r = p := hw.links.unique hr hi
    subst hp
    rw [hQ, update_self] at hj
    rw [update_self]
    exact ho hj
  · rw [update_of_ne e, update_of_ne (hw.flying_ne_queued hr ht)]
    exact h r j hr

theorem leave_levels (c : Core) {s : OrderStatus} (hr : r ≠ c.price i) : (c.leave V i s).levels r = c.levels r := by
  obtain ⟨x, y, he⟩ := (c.unlinkFromLevel i).refreshIfEmptied_eq (c.pool i).priceTicks V (c.pool i).side
  unfold Core.leave
  rw [he]
  exact Core.unlinkFromLevel_levels_of_ne c i hr

theorem cancel_aside (hw : Wf V b) (hi : i ∈ b.core.queue V p) (e : Bool) : Aside V p b (b.cancelInternal V i e) := by
  have hv := hw.cancelInternal_view hi e
  have hc := Book.cancelInternal_core (V := V) (e := e) (hw.resting hi).active
  refine ⟨fun r hr => ?_, fun r hr => ?_, fun r j hj => ?_, fun j => ?_⟩
  · rw [queue_of_view hv]
    exact update_of_ne hr ..
  · rw [hc]
    exact leave_levels _ (fun h => hr (h.trans (hw.price hi)))
  · rw [queue_of_view hv] at hj
    exact mem_of_update (fun k hk => mem_of_mem_erase hk) hj
  · rw [body_of_view hv]
    by_cases ej : j = i
    · subst ej
      show (update b.core.body j _ j).side = _
      rw [update_self]
      rfl
    · show (update b.core.body i _ j).side = _
      rw [update_of_ne ej]

theorem cancel_visible (h : b.AllVisible V) (hw : Wf V b) (hi : i ∈ b.core.queue V p) (e : Bool) :
    (b.cancelInternal V i e).AllVisible V := by
  have hv := hw.cancelInternal_view hi e
  intro r j hj
  have hne : j ≠ i := by
    rintro rfl
    exact hw.not_queued_of_erase hi (queue_of_view hv) ⟨r, hj⟩
  rw [body_of_view hv]
  show (update b.core.body i _ j).Visible
  rw [update_of_ne hne]
  exact h r j ((cancel_aside hw hi e).sub r j hj)

/-- The level at the cached price keeps an order: the cache stays right. -/
theorem Aside.bestAt (h : Aside V p b b') (hb : b.core.BestAt V s) (hbest : b'.core.best s = b.core.best s)
    (hkeep : b.core.best s = p → b.core.Rests V s p → b'.core.Rests V s p) : b'.core.BestAt V s := by
  rcases hb with ⟨h1, h2⟩ | ⟨h1, h2⟩
  · exact .inl ⟨hbest.trans h1, fun r hr => h2 r (h.rests hr)⟩
  · refine .inr ⟨?_, fun r hr => ?_⟩
    · rw [hbest]
      by_cases e : b.core.best s = p
      · rw [e] at h1 ⊢
        exact hkeep e h1
      · exact (h.rests_iff e).mpr h1
    · rw [hbest]
      exact h2 r (h.rests hr)

/-- With an order of side `s` at `p`, none of the other side rests there or behind. -/
theorem Core.Uncrossed.behind {c : Core} (h : c.Uncrossed V) (hp : c.Rests V s p) (hr : s.rank p ≤ s.rank r) :
    ¬ c.Rests V s.other r := by
  intro ho
  have := h.rank hp ho
  omega

/-- A level that lost orders but has some left keeps its side. -/
theorem Aside.keeps_side (h : Aside V p b b') (hu : b.core.Uncrossed V) (hp : b.core.Rests V s p)
    (hne : b'.core.queue V p ≠ []) : b'.core.Rests V s p := by
  obtain ⟨j, hj⟩ := exists_mem_of_ne_nil _ hne
  refine Core.rests_of_mem hj fun ho => ?_
  exact hu.behind hp le_rfl (h.rests ho)

/-- The best level, at `p`, was emptied: the scan from the next price on is right. -/
theorem Aside.scan (h : Aside V p b b') (hw : Wf V b) (hb : b.core.BestAt V s) (hbp : b.core.best s = p)
    (hu : b.core.Uncrossed V) (ht : ∀ r, r ≠ p → b.core.Tells V r) (hp : b.core.Rests V s p)
    (hnil : b'.core.queue V p = []) : (b'.core.refreshBest V s (s.worse p)).BestAt V s := by
  have hgrid : inRange V p := by
    obtain ⟨i, hi, -⟩ := hp
    exact hw.links.grid p i hi
  have hmin : ∀ r, b.core.Rests V s r → s.rank p ≤ s.rank r := by
    rcases hb with ⟨-, h2⟩ | ⟨-, h2⟩
    · exact absurd hp (h2 p)
    · rwa [hbp] at h2
  have hnp : ∀ r, s.rank (s.worse p) ≤ s.rank r → r ≠ p := by
    rintro r hr rfl
    rw [s.rank_worse] at hr
    omega
  refine scan_exact (worse_start s hgrid) ?_ ?_ ?_ ?_
  · intro r hr
    obtain ⟨j, hj⟩ := exists_mem_of_ne_nil _ hr
    exact hw.links.grid r j (h.sub r j hj)
  · intro r hr
    have hne : r ≠ p := by
      rintro rfl
      obtain ⟨j, hj, -⟩ := hr
      rw [hnil] at hj
      cases hj
    have h1 := hmin r (h.rests hr)
    have h2 : s.rank r ≠ s.rank p := fun e => hne (Side.rank_inj e)
    rw [s.rank_worse]
    omega
  · intro r hr ho
    rw [s.rank_worse] at hr
    exact hu.behind hp (by omega) (h.rests ho)
  · exact fun r hr => h.tells (hnp r hr) (ht r (hnp r hr))

/-- The best prices after an order of side `s` was taken out of level `p`. -/
theorem cancel_best (hw : Wf V b) (hi : i ∈ b.core.queue V p) (hs : (b.core.body i).side = s) (e : Bool) :
    (b.cancelInternal V i e).core.best s.other = b.core.best s.other ∧
    (b.cancelInternal V i e).core.best s =
      if (b.cancelInternal V i e).core.queue V p = [] ∧ p = b.core.best s then
        ((b.cancelInternal V i e).core.refreshBest V s (s.worse p)).best s
      else b.core.best s := by
  have hp : (b.core.pool i).priceTicks = p := hw.price hi
  have hs' : (b.core.pool i).side = s := hs
  have hQ := hw.cancelInternal_queue hi e
  have hl := hw.links.unlink hi
  have hempty : ((b.core.unlinkFromLevel i).levels p).empty ↔ (b.cancelInternal V i e).core.queue V p = [] := by
    rw [hl.empty_iff, hQ]
  have hc : (b.cancelInternal V i e).core.best = ((b.core.unlinkFromLevel i).refreshIfEmptied V s p).best := by
    rw [Book.cancelInternal_core (hw.resting hi).active]
    unfold Core.leave
    rw [hs', hp]
    rfl
  have hlev : (b.cancelInternal V i e).core.levels = (b.core.unlinkFromLevel i).levels := by
    rw [Book.cancelInternal_core (hw.resting hi).active]
    unfold Core.leave
    obtain ⟨x, y, he⟩ := (b.core.unlinkFromLevel i).refreshIfEmptied_eq (b.core.pool i).priceTicks V (b.core.pool i).side
    rw [he]
    rfl
  have hrefresh : ((b.core.unlinkFromLevel i).refreshBest V s (s.worse p)).best s =
      ((b.cancelInternal V i e).core.refreshBest V s (s.worse p)).best s := by
    cases s
    · simp only [Core.refreshBest, Core.refreshBestBidFrom, Core.best, hlev]
    · simp only [Core.refreshBest, Core.refreshBestAskFrom, Core.best, hlev]
  have hb : (b.core.unlinkFromLevel i).best = b.core.best := rfl
  rw [hc, Core.refreshIfEmptied_side, hb]
  by_cases hcond : (b.cancelInternal V i e).core.queue V p = [] ∧ p = b.core.best s
  · rw [if_pos ⟨hempty.mpr hcond.1, hcond.2⟩, if_pos hcond]
    exact ⟨Core.refreshBest_other .., hrefresh⟩
  · rw [if_neg fun h => hcond ⟨hempty.mp h.1, h.2⟩, if_neg hcond]
    exact ⟨rfl, rfl⟩

/-- A cancel in an uncrossed book whose other levels tell the truth keeps the cache of its side right. -/
theorem cancel_bestAt (hw : Wf V b) (hi : i ∈ b.core.queue V p) (hs : (b.core.body i).side = s) (e : Bool)
    (hb : b.core.BestAt V s) (hu : b.core.Uncrossed V) (ht : ∀ r, r ≠ p → b.core.Tells V r) :
    (b.cancelInternal V i e).core.BestAt V s := by
  have haside := cancel_aside hw hi e
  have hrest : b.core.Rests V s p := ⟨i, hi, hs⟩
  obtain ⟨-, hbest⟩ := cancel_best hw hi hs e
  by_cases hc : (b.cancelInternal V i e).core.queue V p = [] ∧ p = b.core.best s
  · rw [if_pos hc] at hbest
    refine (haside.scan hw hb hc.2.symm hu ht hrest hc.1).congr hbest fun r => ?_
    exact (Core.Rests.congr Core.refreshBest_queue Core.refreshBest_body).symm
  · rw [if_neg hc] at hbest
    exact haside.bestAt hb hbest fun he _ => haside.keeps_side hu hrest fun hn => hc ⟨hn, he.symm⟩

end

/-! ## What a match reports -/

/-- A maker cancelled by self-trade prevention was alone at its price, and another order of its side
    rests elsewhere. -/
def Report.strands (V : Env) : Report → Bool
  | .stpCancel _ m c => (c.queue V m.priceTicks).length = 1 &&
      (c.restingSlots V).any fun i => (c.pool i).side = m.side && (c.pool i).priceTicks ≠ m.priceTicks
  | _ => false

def Report.isAbort : Report → Bool
  | .stpAbort _ _ => true
  | _ => false

def Report.isAccept : Report → Bool
  | .accept _ => true
  | _ => false

/-- Self-trade prevention stopped an order that is not an IOC. -/
def Report.stops : Report → Bool
  | .stpAbort o _ => o.type ≠ .ioc && o.tif ≠ .ioc
  | _ => false

/-- A report of the matching loop, with `o` as the taker. -/
def Report.OfMatch (o : Order) : Report → Prop
  | .fill _ _ _ | .stpCancel _ _ _ | .cancel _ => True
  | .stpAbort x _ => x.type = o.type ∧ x.tif = o.tif
  | _ => False

/-- The taker in slot `t` came from `b₀` to `b`, with `q` left to match: all of its quantity, unless it was stopped. -/
def Passed (t : Nat) (b₀ : Book) (q : Int) (b : Book) : Prop :=
  (∃ x, b.core.body t = (b₀.core.body t).tookBy x) ∧
  ∃ l, b.log = l ++ b₀.log ∧ (∀ e ∈ l, e.OfMatch (b₀.core.body t)) ∧
    (q = (b.core.body t).remainingQty ∨ ∃ e ∈ l, e.isAbort = true)

section

variable {V : Env} {b b' b₀ : Book} {p q : Int} {t i ts : Nat} {s : Side} {q' x : Int} {l : List Report} {n : Nat} {c : Book}

theorem Passed.refl : Passed t b (b.core.body t).remainingQty b := by
  refine ⟨⟨0, ?_⟩, [], rfl, fun e he => (by cases he), .inl rfl⟩
  unfold Order.tookBy
  rw [Int.add_zero]

theorem Passed.step (h : Passed t b₀ q b) (ht : b'.core.body t = (b.core.body t).tookBy x) (hl : b'.log = l ++ b.log)
    (hof : ∀ e ∈ l, e.OfMatch (b₀.core.body t)) (hq : (q' = q - x) ∨ ∃ e ∈ l, e.isAbort) : Passed t b₀ q' b' := by
  obtain ⟨⟨y, hy⟩, l0, hl0, hof0, hq0⟩ := h
  refine ⟨⟨y + x, ?_⟩, l ++ l0, ?_, ?_, ?_⟩
  · rw [ht, hy]
    unfold Order.tookBy
    simp only [Int.add_assoc]
  · rw [hl, hl0, append_assoc]
  · intro e he
    rcases mem_append.mp he with he | he
    · exact hof e he
    · exact hof0 e he
  · rcases hq with hq | ⟨e, he, ha⟩
    · rcases hq0 with hq0 | ⟨e, he, ha⟩
      · left
        rw [hq, hq0, ht, Order.tookBy_remaining]
      · exact .inr ⟨e, mem_append_right _ he, ha⟩
    · exact .inr ⟨e, mem_append_left _ he, ha⟩

theorem executed_passed (h : Passed t b₀ q b) (hw : Wf V b) (hi : i ∈ b.core.queue V p) (ht : t ∈ b.inFlight) (ts : Nat)
    (x : Int) : Passed t b₀ (q - x) (b.executed V p t ts i x) := by
  refine h.step (l := [.fill (b.order i) (b.order t) x]) (executed_taker hw hi ht) Book.executed_log ?_ (.inl rfl)
  intro e he
  rw [mem_singleton.mp he]
  trivial

/-- A maker is cancelled for the taker; `l` is reported before. -/
theorem cancel_passed (h : Passed t b₀ q b) (hw : Wf V b) (hi : i ∈ b.core.queue V p) (ht : t ∈ b.inFlight)
    (hc : b'.core = b.core) (hl : b'.log = l ++ b.log) (hof : ∀ e ∈ l, e.OfMatch (b₀.core.body t))
    (hq : q' = q ∨ ∃ e ∈ l, e.isAbort) : Passed t b₀ q' (b'.cancelInternal V i true) := by
  have ha : (b'.order i).isActive := by
    show (b'.core.body i).isActive
    rw [hc]
    exact (hw.resting hi).active
  have hne := hw.flying_ne_queued hi ht
  refine h.step (x := 0) (l := .cancel (b'.order i) :: l) ?_ ?_ ?_ ?_
  · rw [Book.cancelInternal_core ha, hc, Core.leave_body, update_of_ne hne.symm]
    unfold Order.tookBy
    rw [Int.add_zero]
  · rw [(Book.cancelInternal_rest true ha).1, hl]
    rfl
  · intro e he
    rcases mem_cons.mp he with rfl | he
    · trivial
    · exact hof e he
  · rcases hq with hq | ⟨e, he, ha⟩
    · exact .inl (by omega)
    · exact .inr ⟨e, mem_cons_of_mem _ he, ha⟩

/-- A pass of the FIFO loop. -/
theorem visit_passed {v : Book.Visit} (h : Passed t b₀ q b) (hw : Wf V b) (hi : i ∈ b.core.queue V p) (ht : t ∈ b.inFlight)
    (ts : Nat) (hcase : VisitCase V b p t ts i q v) : Passed t b₀ v.left v.book := by
  have htk : (b.order t).type = (b₀.core.body t).type ∧ (b.order t).tif = (b₀.core.body t).tif := by
    obtain ⟨⟨x, hx⟩, -⟩ := h
    have h1 : (b.core.body t).type = (b₀.core.body t).type := by rw [hx]; rfl
    have h2 : (b.core.body t).tif = (b₀.core.body t).tif := by rw [hx]; rfl
    exact ⟨h1, h2⟩
  cases hcase with
  | newest _ _ =>
    refine h.step (x := 0) ?_ rfl ?_ (.inr ⟨_, mem_singleton_self _, rfl⟩)
    · unfold Order.tookBy
      rw [Int.add_zero]
      rfl
    · intro e he
      rw [mem_singleton.mp he]
      exact htk
  | both _ _ =>
    refine cancel_passed (l := [.stpAbort (b.order t) (b.order i), .stpCancel (b.order t) (b.order i) b.core]) h hw hi ht
      rfl rfl ?_ (.inr ⟨_, mem_cons_self, rfl⟩)
    intro e he
    rcases mem_cons.mp he with rfl | he
    · exact htk
    · rw [mem_singleton.mp he]
      trivial
  | oldest _ _ =>
    refine cancel_passed (l := [.stpCancel (b.order t) (b.order i) b.core]) h hw hi ht rfl rfl ?_ (.inl rfl)
    intro e he
    rw [mem_singleton.mp he]
    trivial
  | exec _ => exact executed_passed h hw hi ht ts _

/-! ## A match keeps the best prices -/

/-- The book at the start of an iteration of the price loop against side `s`. -/
structure Sweep (V : Env) (s : Side) (b : Book) : Prop where
  visible : b.AllVisible V
  summed : b.Summed V
  uncrossed : b.core.Uncrossed V
  best : b.core.BestAt V s
  other : b.core.BestAt V s.other
  tells : ∀ r, r ≠ b.core.best s → b.core.Tells V r

/-- The book while level `p` is matched: the cache is still there, unless a cancelled maker was the
    last order of its side. -/
structure Mid (V : Env) (s : Side) (p : Int) (b₀ b : Book) : Prop where
  aside : Aside V p b₀ b
  visible : b.AllVisible V
  summed : b.Summed V
  other : b.core.best s.other = b₀.core.best s.other
  best : b.core.best s = p ∨ (b.core.queue V p = [] ∧ b.core.best s = s.noBest ∧ ∀ r, ¬ b.core.Rests V s r)

theorem Sweep.rests (h : Sweep V s b) (hp : b.core.best s = p) (hr : inRange V p) : b.core.Rests V s p := by
  rcases h.best with ⟨h1, -⟩ | ⟨h1, -⟩
  · rw [h1] at hp
    rw [← hp] at hr
    exact absurd hr (s.not_inRange_noBest V)
  · rwa [hp] at h1

theorem Mid.note (h : Mid V s p b₀ b) (e : Report) : Mid V s p b₀ (b.note e) :=
  ⟨⟨h.aside.queue, h.aside.levels, h.aside.sub, h.aside.side⟩, h.visible, h.summed, h.other, h.best⟩

theorem Mid.exec (h : Mid V s p b₀ b) (hw : Wf V b) (hi : i ∈ b.core.queue V p) (ht : t ∈ b.inFlight) (ts : Nat)
    (hx : x ≤ (b.core.body i).displayedQty) : Mid V s p b₀ (b.executed V p t ts i x) := by
  have hbest := executed_best (V := V) (b := b) (p := p) (hw.flying_ne_queued hi ht) ts x
  have hp : b.core.best s = p := by
    rcases h.best with h1 | ⟨h1, -⟩
    · exact h1
    · rw [h1] at hi
      cases hi
  refine ⟨h.aside.trans (executed_aside hw hi ht ts x), executed_visible h.visible hw hi ht ts hx,
    h.summed.exec hw hi ht ts hx, ?_, .inl ?_⟩
  · rw [hbest]
    exact h.other
  · rw [hbest]
    exact hp

/-- A maker is cancelled by self-trade prevention: unless that strands its side, the caches stay right. -/
theorem Mid.cancel (h : Mid V s p b₀ b) (h0 : Sweep V s b₀) (hw0 : Wf V b₀) (hp0 : b₀.core.best s = p) (hw : Wf V b)
    (hi : i ∈ b.core.queue V p) (taker : Order) (hn : (Report.stpCancel taker (b.order i) b.core).strands V = false) :
    Mid V s p b₀ (b.cancelInternal V i true) := by
  have hr0 : b₀.core.Rests V s p := h0.rests hp0 (hw0.links.grid p i (h.aside.sub p i hi))
  have hne : b.core.queue V p ≠ [] := ne_nil_of_mem hi
  have hp : b.core.best s = p := by
    rcases h.best with h1 | ⟨h1, -⟩
    · exact h1
    · exact absurd h1 hne
  have hu := h.aside.uncrossed h0.uncrossed
  have hrest : b.core.Rests V s p := h.aside.keeps_side h0.uncrossed hr0 hne
  have hs : (b.core.body i).side = s := by
    by_contra hns
    exact hu.behind hrest le_rfl ⟨i, hi, Side.eq_other_of_ne hns⟩
  have hb : b.core.BestAt V s := h.aside.bestAt h0.best (hp.trans hp0.symm) fun _ _ => hrest
  have haside := cancel_aside hw hi true
  have htells : ∀ r, r ≠ p → b.core.Tells V r := fun r hr => h.aside.tells hr (h0.tells r (hp0 ▸ hr))
  have hbest' := cancel_bestAt hw hi hs true hb hu htells
  obtain ⟨hother, hbest⟩ := cancel_best hw hi hs true
  refine ⟨h.aside.trans haside, cancel_visible h.visible hw hi true, ?_, hother.trans h.other, ?_⟩
  · exact (Act.cancel p i hi).summed trivial hw h.summed
  · by_cases hnil : (b.cancelInternal V i true).core.queue V p = []
    · -- the level is empty: nothing of this side rests elsewhere, or the report would strand it
      have hlen : (b.core.queue V p).length = 1 := by
        have hnil' := hnil
        rw [hw.cancelInternal_queue hi true, update_self] at hnil'
        have h1 := length_erase_of_mem hi
        rw [hnil'] at h1
        have h2 := length_pos_of_mem hi
        simp at h1
        omega
      have hprice : (b.order i).priceTicks = p := hw.price hi
      have hnone : ∀ r, ¬ (b.cancelInternal V i true).core.Rests V s r := by
        intro r hr
        have hrp : r ≠ p := by
          rintro rfl
          obtain ⟨j, hj, -⟩ := hr
          rw [hnil] at hj
          cases hj
        obtain ⟨j, hj, hjs⟩ := (haside.rests_iff hrp).mp hr
        have hjp : (b.core.pool j).priceTicks = r := hw.price hj
        have hjs' : (b.core.pool j).side = (b.order i).side := hjs.trans hs.symm
        have hn : ((b.core.queue V (b.order i).priceTicks).length = 1 &&
          (b.core.restingSlots V).any fun j => (b.core.pool j).side = (b.order i).side &&
            (b.core.pool j).priceTicks ≠ (b.order i).priceTicks) = false := hn
        rw [hprice, hlen] at hn
        simp only [decide_true, Bool.true_and, any_eq_false, Bool.and_eq_true, decide_eq_true_eq, not_and] at hn
        exact hn j (hw.mem_restingSlots.mpr ⟨r, hj⟩) hjs' (by rwa [hjp])
      rcases hbest' with ⟨h1, -⟩ | ⟨h1, -⟩
      · exact .inr ⟨hnil, h1, hnone⟩
      · exact absurd h1 (hnone _)
    · left
      rw [hbest, if_neg fun hc => hnil hc.1]
      exact hp

/-- Some maker was cancelled at the cost of its side's cache. -/
def Book.Stranded (V : Env) (b : Book) : Prop := ∃ e ∈ b.log, e.strands V = true

theorem Book.Stranded.grows (h : b.Stranded V) (hl : b'.log = l ++ b.log) : b'.Stranded V := by
  obtain ⟨e, he, hs⟩ := h
  exact ⟨e, by rw [hl]; exact mem_append_right _ he, hs⟩

/-- A pass of the FIFO loop. -/
theorem visit_mid (h : Mid V s p b₀ b) (h0 : Sweep V s b₀) (hw0 : Wf V b₀) (hp0 : b₀.core.best s = p)
    (hw : Wf V b) (hi : i ∈ b.core.queue V p) (ht : t ∈ b.inFlight) (ts : Nat) {v : Book.Visit}
    (hcase : VisitCase V b p t ts i q v) : v.book.Stranded V ∨ Mid V s p b₀ v.book := by
  -- `l` is reported, then the maker is cancelled
  have hcancel : ∀ l : List Report, Report.stpCancel (b.order t) (b.order i) b.core ∈ l →
      (({ b with log := l ++ b.log } : Book).cancelInternal V i true).Stranded V ∨
        Mid V s p b₀ (({ b with log := l ++ b.log } : Book).cancelInternal V i true) := by
    intro l hmem
    have hwl : Wf V { b with log := l ++ b.log } := hw.of_core rfl rfl
    by_cases hs : (Report.stpCancel (b.order t) (b.order i) b.core).strands V
    · left
      refine ⟨_, ?_, hs⟩
      rw [(Book.cancelInternal_rest true (hwl.resting hi).active).1]
      exact mem_cons_of_mem _ (mem_append_left _ hmem)
    · right
      have hm : Mid V s p b₀ { b with log := l ++ b.log } :=
        ⟨⟨h.aside.queue, h.aside.levels, h.aside.sub, h.aside.side⟩, h.visible, h.summed, h.other, h.best⟩
      have hs' : (Report.stpCancel (b.order t) (b.order i) b.core).strands V = false := by simpa using hs
      exact hm.cancel h0 hw0 hp0 hwl hi (b.order t) hs'
  cases hcase with
  | newest _ _ => exact .inr (h.note _)
  | both _ _ => exact hcancel [.stpAbort (b.order t) (b.order i), .stpCancel (b.order t) (b.order i) b.core] (by simp)
  | oldest _ _ => exact hcancel [.stpCancel (b.order t) (b.order i) b.core] (by simp)
  | exec _ => exact .inr (h.exec hw hi ht ts (min_le_right _ _))

theorem visit_log (hw : Wf V b) (hi : i ∈ b.core.queue V p) (ts : Nat) {v : Book.Visit} (hcase : VisitCase V b p t ts i q v) :
    ∃ l, v.book.log = l ++ b.log := by
  have hactive : (b.order i).isActive := (hw.resting hi).active
  cases hcase with
  | newest _ _ => exact ⟨[_], rfl⟩
  | both _ _ =>
    refine ⟨[.cancel (b.order i), .stpAbort (b.order t) (b.order i), .stpCancel (b.order t) (b.order i) b.core], ?_⟩
    exact (Book.cancelInternal_rest true (by exact hactive)).1
  | oldest _ _ =>
    refine ⟨[.cancel (b.order i), .stpCancel (b.order t) (b.order i) b.core], ?_⟩
    exact (Book.cancelInternal_rest true (by exact hactive)).1
  | exec _ => exact ⟨[_], Book.executed_log⟩

/-- The FIFO loop over the best level. -/
theorem matchAtLevel_mid (h0 : b₀.Stranded V ∨ Sweep V s b₀) (hp0 : b₀.core.best s = p) (ht : Taking V b₀ t q)
    (hpass : Passed t c q b₀) (hm : Book.matchAtLevel V p t ts n (b₀.core.levels p).head q b₀ = some (q', b')) :
    (b'.Stranded V ∨ (Sweep V s b₀ ∧ Mid V s p b₀ b')) ∧ Passed t c q' b' := by
  refine (matchAtLevel_passes (I := fun q b => (b.Stranded V ∨ (Sweep V s b₀ ∧ Mid V s p b₀ b)) ∧ Passed t c q b)
    (fun {i q b v} htk hI _ hi _ hcase => ?_) ht (ht.wf.at_head p) ?_ hm).2
  · obtain ⟨hok, hpass⟩ := hI
    refine ⟨?_, visit_passed hpass htk.wf hi htk.flying ts hcase⟩
    rcases hok with hbad | ⟨hs, hmid⟩
    · obtain ⟨l, hl⟩ := visit_log htk.wf hi ts hcase
      exact .inl (hbad.grows hl)
    · rcases visit_mid hmid hs ht.wf hp0 htk.wf hi htk.flying ts hcase with hbad | hmid
      · exact .inl hbad
      · exact .inr ⟨hs, hmid⟩
  · refine ⟨?_, hpass⟩
    rcases h0 with hbad | hs
    · exact .inl hbad
    · exact .inr ⟨hs, Aside.refl V p b₀, hs.visible, hs.summed, rfl, .inl hp0⟩

/-- An empty level shows nothing. -/
theorem Book.Summed.tells_empty (h : b.Summed V) (hp : b.core.queue V p = []) : b.core.Tells V p := by
  have ht : (b.core.levels p).totalQty = 0 := by
    have := congrArg Tally.qty (h p)
    rw [hp] at this
    exact this
  unfold Core.Tells
  rw [ht, hp]
  simp

/-- The level is done: the cache moves on if nothing is left there. -/
theorem Mid.advance (h : Mid V s p b₀ b) (h0 : Sweep V s b₀) (hw0 : Wf V b₀) (hp0 : b₀.core.best s = p) (hr : inRange V p)
    (hw : Wf V b) : Sweep V s (b.advanceBest V s.other p) := by
  have hrest0 : b₀.core.Rests V s p := h0.rests hp0 hr
  have hother : b.core.BestAt V s.other :=
    h.aside.bestAt h0.other h.other fun _ hrest => absurd hrest (h0.uncrossed.behind hrest0 le_rfl)
  have hu := h.aside.uncrossed h0.uncrossed
  have htells : ∀ r, r ≠ p → b.core.Tells V r := fun r hrp => h.aside.tells hrp (h0.tells r (hp0 ▸ hrp))
  rw [advanceBest_side]
  by_cases hnil : b.core.queue V p = []
  · have hall : ∀ r, b.core.Tells V r := by
      intro r
      by_cases e : r = p
      · exact e ▸ h.summed.tells_empty hnil
      · exact htells r e
    rw [if_pos ((hw.links.empty_iff p).mpr hnil)]
    have hbest : (b.core.refreshBest V s (i32 (s.worse (b.core.best s)))).BestAt V s := by
      rcases h.best with hb | ⟨-, hb, hnone⟩
      · rw [hb, i32_worse s hr]
        exact h.aside.scan hw0 h0.best hp0 h0.uncrossed (fun r hrp => h0.tells r (hp0 ▸ hrp)) hrest0 hnil
      · refine .inl ⟨?_, fun r hrr => hnone r ((Core.Rests.congr Core.refreshBest_queue Core.refreshBest_body).mp hrr)⟩
        rw [hb]
        exact refreshBest_off (noBest_worse V s)
    obtain ⟨x, y, he⟩ : ∃ x y, b.core.refreshBest V s (i32 (s.worse (b.core.best s))) =
        { b.core with bestBid := x, bestAsk := y } := ⟨_, _, Core.refreshBest_rest ..⟩
    have hob : (b.core.refreshBest V s (i32 (s.worse (b.core.best s)))).best s.other = b.core.best s.other :=
      Core.refreshBest_other ..
    show Sweep V s { b with core := b.core.refreshBest V s (i32 (s.worse (b.core.best s))) }
    rw [he] at hbest hob ⊢
    exact ⟨h.visible, h.summed, hu, hbest, hother.congr hob fun _ => Iff.rfl, fun r _ => hall r⟩
  · have hp : b.core.best s = p := by
      rcases h.best with hb | ⟨hb, -⟩
      · exact hb
      · exact absurd hb hnil
    rw [if_neg fun he => hnil ((hw.links.empty_iff p).mp he)]
    refine ⟨h.visible, h.summed, hu, ?_, hother, fun r hrp => htells r (hp ▸ hrp)⟩
    exact h.aside.bestAt h0.best (hp.trans hp0.symm) fun _ hrest => h.aside.keeps_side h0.uncrossed hrest hnil

theorem Sweep.inRange (h : Sweep V s b) (hw : Wf V b) (hp : b.core.best s = p) (hne : p ≠ s.noBest) : inRange V p := by
  rcases h.best with ⟨h1, -⟩ | ⟨⟨i, hi, -⟩, -⟩
  · exact absurd (hp.symm.trans h1) hne
  · rw [hp] at hi
    exact hw.links.grid p i hi

/-- The price loop keeps the best prices right, unless a cancel stranded one; it ends when nothing is
    left to match or at the limit. -/
theorem priceLoop_sweep (h : b.Stranded V ∨ Sweep V s b) (ht : Taking V b t q) (hside : (c.core.body t).side = s.other)
    (hpass : Passed t c q b) (hm : Book.priceLoop V t ts n q b = some b') :
    ∃ q', (b'.Stranded V ∨ Sweep V s b') ∧ Passed t c q' b' ∧ (q' ≤ 0 ∨ b'.nextLevel t = none) := by
  have hsd : ∀ {q b}, Passed t c q b → (b.order t).side = s.other := by
    rintro q b ⟨⟨x, hx⟩, -⟩
    have : (b.core.body t).side = (c.core.body t).side := by rw [hx]; rfl
    exact this.trans hside
  refine priceLoop_rule (I := fun q b => Taking V b t q ∧ (b.Stranded V ∨ Sweep V s b) ∧ Passed t c q b)
    (J := fun b => ∃ q', (b.Stranded V ∨ Sweep V s b) ∧ Passed t c q' b ∧ (q' ≤ 0 ∨ b.nextLevel t = none))
    ?_ ?_ n q b b' ⟨ht, h, hpass⟩ hm
  · rintro k q b p q1 b1 ⟨htk, hok, hpass⟩ hpos hnext hl
    obtain ⟨hp, hne⟩ := nextLevel_some hnext (hsd hpass)
    obtain ⟨hok', hpass'⟩ := matchAtLevel_mid hok hp htk hpass hl
    obtain ⟨-, -, htk'⟩ := matchAtLevel_acts htk (htk.wf.at_head p) hl
    obtain ⟨x, y, hb⟩ := advanceBest_eq (b1.order t).side
    have hpass2 : Passed t c q1 (b1.advanceBest V (b1.order t).side p) := by
      rw [hb]
      exact hpass'
    have htk2 : Taking V (b1.advanceBest V (b1.order t).side p) t q1 := by
      rw [hb]
      exact htk'.best x y
    refine ⟨htk2, ?_, hpass2⟩
    rcases hok' with hbad | ⟨hs, hmid⟩
    · refine .inl (hbad.grows (l := []) ?_)
      rw [hb]
      rfl
    · rw [hsd hpass']
      exact .inr (hmid.advance hs htk.wf hp (hs.inRange htk.wf hp hne) htk'.wf)
  · rintro q b ⟨-, hok, hpass⟩ hend
    exact ⟨q, hok, hpass, hend⟩

end

end HftLab.OrderBook
