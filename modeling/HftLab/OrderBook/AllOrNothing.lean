/-
  HftLab.OrderBook.AllOrNothing — FOK and the minimum quantity.

  `submit` lets an order of these kinds pass when a preview finds enough (`fok_fillable`, `walk_the_book`), and then matches it. The
  preview counts what the levels announce, from the cached best price to the limit; matching takes these levels in the same
  order, and leaves one only when it is empty (`priceLoop_clears`). So the order gets at least what was counted, whatever
  else rests there: orders that show nothing, reserves of icebergs, orders of its own side.

  Left out are auctions, in which nothing is matched on entry and the minimum quantity is not asked for (`submit_minQty`), and
  self-trade prevention, which takes back makers that were counted.
-/

import HftLab.OrderBook.Caches
import HftLab.OrderBook.Previews
import HftLab.OrderBook.Takings

namespace HftLab.OrderBook

open Lib List

/-- What `n` levels announce, from `p` on in steps of `dp`. -/
def Core.announced (c : Core) (dp : Int) : Nat → Int → Int
  | 0, _ => 0
  | n + 1, p => (c.levels p).totalQty + c.announced dp n (p + dp)

/-- The match so far: the taker in slot `t`, with `q` of `q₀` left, came from `b₀` to `b` by the trades `l`. -/
structure Consumes (V : Env) (s : Side) (t : Nat) (b₀ : Book) (q₀ q : Int) (b : Book) (l : List Trade) : Prop where
  taking : Taking V b t q
  nonneg : 0 ≤ q
  free : b.Unhindered V t s (b₀.core.body t).priceTicks
  body : b.core.body t = (b₀.core.body t).tookBy (q₀ - q)
  trades : b.tape.trades = b₀.tape.trades ++ l
  by_ : ∀ x ∈ l, x.takerOrderId = (b₀.core.body t).id
  pos : ∀ x ∈ l, 0 ≤ x.qty
  sum : q₀ = q + traded l
  level : ∀ p, b₀.leftAt V (fun _ => true) p = b.leftAt V (fun _ => true) p + tradedAt p l

/-- The levels that the match has left behind gave what they announced, and those to come are as they were. -/
structure Cleared (V : Env) (s : Side) (b₀ b : Book) (l : List Trade) : Prop where
  grid : b.core.best s = s.noBest ∨ inRange V (b.core.best s)
  behind : ∀ r, inRange V r → s.rank (b₀.core.best s) ≤ s.rank r → s.rank r < s.rank (b.core.best s) →
    (b₀.core.levels r).totalQty ≤ tradedAt r l
  ahead : ∀ r, s.rank (b.core.best s) < s.rank r → b.core.levels r = b₀.core.levels r

section

variable {V : Env} {b b' b₀ : Book} {p q q₀ q' : Int} {t i ts n : Nat} {s : Side} {l : List Trade}
    {c : Core} {x : Nat × RejectReason} {dp : Int} {r : Request}

/-- One more maker of level `p` is executed. -/
theorem Consumes.exec (h : Consumes V s t b₀ q₀ q b l) (hi : i ∈ b.core.queue V p) (ts : Nat)
    (htk : Taking V (b.executed V p t ts i (min q (b.core.body i).displayedQty)) t (q - min q (b.core.body i).displayedQty)) :
    ∃ x, Consumes V s t b₀ q₀ (q - min q (b.core.body i).displayedQty)
      (b.executed V p t ts i (min q (b.core.body i).displayedQty)) (l ++ [x]) := by
  have hw := h.taking.wf
  have hfly := h.taking.flying
  have hres := hw.resting hi
  have hshown : 0 ≤ (b.core.body i).displayedQty := hres.shown
  have hle : (b.core.body i).displayedQty ≤ (b.core.body i).remainingQty := by
    have := hres.hidden
    unfold Order.hiddenQty at this
    unfold Order.remainingQty
    omega
  have hq := h.nonneg
  obtain ⟨x, htr, hxp, hxq, hxid, -⟩ := executed_trades V b p (min q (b.core.body i).displayedQty) t i ts
  have hprice : x.priceTicks = p := hxp.trans (hw.price hi)
  have hid : (b.order t).id = (b₀.core.body t).id := by
    show (b.core.body t).id = _
    rw [h.body]
    rfl
  refine ⟨x, htk, by omega, executed_unhindered h.free hw hi hfly ts _, ?_, ?_, fun y hy => ?_, fun y hy => ?_, ?_, fun r => ?_⟩
  · rw [executed_taker hw hi hfly, h.body, tookBy_tookBy]
    congr 1
    omega
  · rw [htr, h.trades, append_assoc]
  · rcases mem_append.mp hy with hy | hy
    · exact h.by_ y hy
    · rw [mem_singleton.mp hy, hxid, hid]
  · rcases mem_append.mp hy with hy | hy
    · exact h.pos y hy
    · rw [mem_singleton.mp hy, hxq]
      omega
  · have := h.sum
    rw [traded_append, traded_one, hxq]
    omega
  · rw [h.level r, executed_leftAt hw hi hfly (fun _ => true) ts (by omega) r, tradedAt_append, tradedAt_one, hprice, hxq]
    simp only [if_true]
    omega

/-- The FIFO loop over the best level. -/
theorem matchAtLevel_consumes (h : Consumes V s t b₀ q₀ q b l) (hlim : s.rank p ≤ s.rank (b₀.core.body t).priceTicks)
    (hm : Book.matchAtLevel V p t ts n (b.core.levels p).head q b = some (q', b')) :
    ∃ l', Consumes V s t b₀ q₀ q' b' (l ++ l') ∧ Aside V p b b' ∧ b'.core.best = b.core.best := by
  refine (matchAtLevel_passes
    (I := fun q c => ∃ l', Consumes V s t b₀ q₀ q c (l ++ l') ∧ Aside V p b c ∧ c.core.best = b.core.best)
    (fun {i q c v} htk0 hI _ hi htk hcase => ?_) h.taking (h.taking.wf.at_head p)
    ⟨[], by rwa [append_nil], Aside.refl V p b, rfl⟩ hm).2
  obtain ⟨l', hc, haside, hbest⟩ := hI
  have hw := hc.taking.wf
  have hfly := hc.taking.flying
  cases hcase with
  | newest hpol hsame | oldest hpol hsame | both hpol hsame => exact (hc.free.never hlim hi hsame (by rw [hpol]; decide)).elim
  | exec _ =>
    obtain ⟨x, hx⟩ := hc.exec hi ts htk
    rw [append_assoc] at hx
    refine ⟨l' ++ [x], hx, haside.trans (executed_aside hw hi hfly ts _), ?_⟩
    exact (executed_best (hw.flying_ne_queued hi hfly) ts _).trans hbest

theorem Consumes.cached (h : Consumes V s t b₀ q₀ q b l) (x y : Int) :
    Consumes V s t b₀ q₀ q { b with core := { b.core with bestBid := x, bestAsk := y } } l :=
  ⟨h.taking.best x y, h.nonneg, h.free, h.body, h.trades, h.by_, h.pos, h.sum,
    h.level⟩

/-- A level that is empty after its match has given all it announced; one that is not stays the best one. -/
theorem Cleared.advance {l' : List Trade} (h : Cleared V s b₀ b l) (hp : b.core.best s = p) (hr : inRange V p)
    (hshow : ∀ r, inRange V r → (b₀.core.levels r).totalQty ≤ b₀.leftAt V (fun _ => true) r)
    (hc : Consumes V s t b₀ q₀ q b' (l ++ l')) (hnew : ∀ x ∈ l', 0 ≤ x.qty) (haside : Aside V p b b') (hbest : b'.core.best = b.core.best) :
    Cleared V s b₀ (b'.advanceBest V s.other p) (l ++ l') := by
  have hmono : ∀ r, tradedAt r l ≤ tradedAt r (l ++ l') := by
    intro r
    rw [tradedAt_append]
    have := tradedAt_nonneg hnew r
    omega
  have hahead : ∀ r, s.rank p < s.rank r → b'.core.levels r = b₀.core.levels r := by
    intro r hlt
    have hne : r ≠ p := by
      rintro rfl
      omega
    rw [haside.levels r hne]
    exact h.ahead r (hp ▸ hlt)
  rw [advanceBest_side]
  by_cases hnil : b'.core.queue V p = []
  · rw [if_pos ((hc.taking.wf.links.empty_iff p).mpr hnil)]
    have hscan : FirstShowing V b'.core.levels s (s.worse p) ((b'.core.refreshBest V s (i32 (s.worse (b'.core.best s)))).best s) := by
      rw [hbest, hp, i32_worse s hr]
      exact refreshBest_spec V b'.core s (s.worse p) (worse_start s hr)
    have hhere : (b₀.core.levels p).totalQty ≤ tradedAt p (l ++ l') := by
      have hleft : b'.leftAt V (fun _ => true) p = 0 := by
        unfold Book.leftAt
        rw [hnil]
        rfl
      have := hc.level p
      have := hshow p hr
      omega
    -- between the level and the next one nothing is announced
    have hbetween : ∀ r, inRange V r → s.rank p < s.rank r → ¬ 0 < (b'.core.levels r).totalQty →
        (b₀.core.levels r).totalQty ≤ tradedAt r (l ++ l') := by
      intro r _ hlt hno
      rw [hahead r hlt] at hno
      have := tradedAt_nonneg hc.pos r
      omega
    have hrank := s.rank_worse p
    have hgrid := refreshBest_grid b'.core s (i32 (s.worse (b'.core.best s))) (V := V)
    have hlev : (b'.core.refreshBest V s (i32 (s.worse (b'.core.best s)))).levels = b'.core.levels := by
      rw [Core.refreshBest_rest]
    refine ⟨hgrid, fun r hrr hlo hhi => ?_, fun r hlt => ?_⟩
    · have hhi' : s.rank r < s.rank ((b'.core.refreshBest V s (i32 (s.worse (b'.core.best s)))).best s) := hhi
      rcases lt_trichotomy (s.rank r) (s.rank p) with hlt | heq | hgt
      · exact (h.behind r hrr hlo (hp ▸ hlt)).trans (hmono r)
      · rw [Side.rank_inj heq]
        exact hhere
      · rcases hscan with ⟨-, hnone⟩ | ⟨-, -, -, hnone⟩
        · exact hbetween r hrr hgt (hnone r hrr (by omega))
        · exact hbetween r hrr hgt (hnone r hrr (by omega) hhi')
    · show (b'.core.refreshBest V s (i32 (s.worse (b'.core.best s)))).levels r = _
      rw [hlev]
      refine hahead r ?_
      have hlt' : s.rank ((b'.core.refreshBest V s (i32 (s.worse (b'.core.best s)))).best s) < s.rank r := hlt
      rcases hscan with ⟨hno, -⟩ | ⟨-, hfrom, -, -⟩
      · rw [hno] at hlt'
        have := Side.rank_lt_noBest hr s
        omega
      · omega
  · rw [if_neg fun he => hnil ((hc.taking.wf.links.empty_iff p).mp he)]
    refine ⟨?_, fun r hrr hlo hhi => ?_, fun r hlt => ?_⟩
    · rw [hbest]
      exact h.grid
    · rw [hbest] at hhi
      exact (h.behind r hrr hlo hhi).trans (hmono r)
    · rw [hbest, hp] at hlt
      exact hahead r hlt

/-- The price loop ends with all of `q₀` executed, or every level within the limit gave what it announced. -/
theorem priceLoop_clears (ht : Taking V b t q₀) (h0 : 0 ≤ q₀) (hside : (b.core.body t).side = s.other)
    (hfree : b.Unhindered V t s (b.core.body t).priceTicks) (hgrid : b.core.best s = s.noBest ∨ inRange V (b.core.best s))
    (hshow : ∀ r, inRange V r → (b.core.levels r).totalQty ≤ b.leftAt V (fun _ => true) r)
    (hm : Book.priceLoop V t ts n q₀ b = some b') : ∃ q' l, Consumes V s t b q₀ q' b' l ∧
      (q' = 0 ∨ ∀ r, inRange V r → s.rank (b.core.best s) ≤ s.rank r → s.rank r ≤ s.rank (b.core.body t).priceTicks →
        (b.core.levels r).totalQty ≤ tradedAt r l) := by
  have hsd : ∀ {q c l}, Consumes V s t b q₀ q c l →
      (c.order t).side = s.other ∧ (c.order t).priceTicks = (b.core.body t).priceTicks := by
    intro q c l hc
    show (c.core.body t).side = s.other ∧ (c.core.body t).priceTicks = (b.core.body t).priceTicks
    rw [hc.body]
    exact ⟨hside, rfl⟩
  refine priceLoop_rule (I := fun q c => ∃ l, Consumes V s t b q₀ q c l ∧ Cleared V s b c l)
    (J := fun c => ∃ q' l, Consumes V s t b q₀ q' c l ∧
      (q' = 0 ∨ ∀ r, inRange V r → s.rank (b.core.best s) ≤ s.rank r → s.rank r ≤ s.rank (b.core.body t).priceTicks →
        (b.core.levels r).totalQty ≤ tradedAt r l)) ?_ ?_ n q₀ b b' ?_ hm
  · intro k q c p q1 c1 hI hpos hnext hl
    obtain ⟨l, hc, hcl⟩ := hI
    obtain ⟨hp, hne⟩ := nextLevel_some hnext (hsd hc).1
    have hr : inRange V p := by
      rcases hcl.grid with hno | hr
      · exact absurd (hp.symm.trans hno) hne
      · exact hp ▸ hr
    have hlim := (hsd hc).2 ▸ nextLevel_within hnext (hsd hc).1
    obtain ⟨l', hc', haside, hbest⟩ := matchAtLevel_consumes hc hlim hl
    have hadv := hcl.advance hp hr hshow hc' (fun x hx => hc'.pos x (mem_append_right _ hx)) haside hbest
    rw [(hsd hc').1]
    refine ⟨l ++ l', ?_, hadv⟩
    obtain ⟨x, y, hb⟩ := advanceBest_eq s.other
    rw [hb]
    exact hc'.cached x y
  · intro q c hI hend
    obtain ⟨l, hc, hcl⟩ := hI
    refine ⟨q, l, hc, ?_⟩
    rcases hend with hq | hnone
    · exact .inl (by have := hc.nonneg; omega)
    · refine .inr fun r hr hlo hhi => hcl.behind r hr hlo ?_
      rcases nextLevel_none hnone (hsd hc).1 with hno | hbehind
      · rw [hno]
        exact Side.rank_lt_noBest hr s
      · rw [(hsd hc).2] at hbehind
        omega
  · refine ⟨[], ⟨ht, h0, hfree, ?_, (append_nil _).symm, fun _ h => absurd h not_mem_nil,
      fun _ h => absurd h not_mem_nil, (Int.add_zero _).symm, fun _ => (Int.add_zero _).symm⟩, hgrid, ?_, fun _ _ => rfl⟩
    · unfold Order.tookBy
      rw [Int.sub_self, Int.add_zero]
    · intro r _ hlo hhi
      omega

/-! ## The previews -/

/-- What was traded at `p` and beyond, away from the best price of side `s`. -/
def tradedFrom (s : Side) (p : Int) (l : List Trade) : Int := traded (l.filter fun x => s.rank p ≤ s.rank x.priceTicks)

/-- From `p` on is at `p` or from the next price on. -/
theorem sumFrom_step (f : Trade → Int) (s : Side) (p : Int) (l : List Trade) :
    ((l.filter fun x => s.rank p ≤ s.rank x.priceTicks).map f).sum =
      ((l.filter fun x => x.priceTicks = p).map f).sum + ((l.filter fun x => s.rank (s.worse p) ≤ s.rank x.priceTicks).map f).sum := by
  refine sum_filter_or f (fun x _ => ?_) fun x _ hx => ?_
  · rw [s.rank_worse, Bool.eq_iff_iff]
    simp only [Bool.or_eq_true, decide_eq_true_eq]
    constructor
    · intro hle
      by_cases e : x.priceTicks = p
      · exact .inl e
      · have : s.rank x.priceTicks ≠ s.rank p := fun he => e (Side.rank_inj he)
        exact .inr (by omega)
    · rintro (rfl | hle)
      · exact le_rfl
      · omega
  · rw [decide_eq_true_eq] at hx
    rw [s.rank_worse, hx, decide_eq_false_iff_not]
    omega

theorem tradedFrom_step (s : Side) (p : Int) (l : List Trade) : tradedFrom s p l = tradedAt p l + tradedFrom s (s.worse p) l :=
  sumFrom_step Trade.qty s p l

theorem tradedFrom_le (h : ∀ x ∈ l, 0 ≤ x.qty) (s : Side) (p : Int) : tradedFrom s p l ≤ traded l := by
  induction l with
  | nil => exact le_rfl
  | cons x l ih =>
    have hx := h x mem_cons_self
    have hl := ih fun y hy => h y (mem_cons_of_mem _ hy)
    unfold tradedFrom traded at hl ⊢
    rw [filter_cons]
    split
    · rw [map_cons, map_cons, sum_cons, sum_cons]
      omega
    · rw [map_cons, sum_cons]
      omega

theorem announced_nonneg (h : ∀ r, 0 ≤ (c.levels r).totalQty) (dp : Int) (n : Nat) (p : Int) : 0 ≤ c.announced dp n p := by
  induction n generalizing p with
  | zero => exact le_rfl
  | succ n ih =>
    have hp := h p
    have hrest := ih (p + dp)
    unfold Core.announced
    omega

theorem i32_le {x : Int} (h : int32Min ≤ x) : i32 x ≤ x := by
  by_cases hx : x ≤ int32Max
  · rw [i32_eq ⟨h, hx⟩]
  · have := (isInt32_i32 x).2
    omega

/-- `fok_fillable` finds no more than is announced, also where its sum wraps. -/
theorem fokScan_announced {qty avail : Int} (h : ∀ r, 0 ≤ (c.levels r).totalQty) (hmin : int32Min ≤ avail)
    (hs : c.fokScan dp qty n p avail) : qty ≤ avail + c.announced dp n p := by
  induction n generalizing p avail with
  | zero =>
    have hqty : qty ≤ avail := of_decide_eq_true hs
    exact hqty.trans (Int.le_of_eq (Int.add_zero avail).symm)
  | succ n ih =>
    have hp := h p
    have hle : i32 (avail + (c.levels p).totalQty) ≤ avail + (c.levels p).totalQty := i32_le (by omega)
    have hrest := announced_nonneg h dp n (p + dp)
    rw [Core.fokScan] at hs
    rw [Core.announced]
    split at hs
    · omega
    · have := ih (isInt32_i32 _).1 hs
      omega

/-- `walk_the_book` finds no more than is announced. -/
theorem walkScan_announced {rem sum : Int} {w : WalkResult} (h : ∀ r, 0 ≤ (c.levels r).totalQty) :
    (c.walkScan dp n p rem sum w).2.fillableQty ≤ w.fillableQty + c.announced dp n p := by
  induction n generalizing p rem sum w with
  | zero => exact Int.le_of_eq (Int.add_zero _).symm
  | succ n ih =>
    have hp := h p
    have hrest := announced_nonneg h dp n (p + dp)
    rw [Core.walkScan, Core.announced]
    split
    · show w.fillableQty ≤ _
      omega
    · dsimp only
      split
      · refine ih.trans ?_
        omega
      · refine ih.trans ?_
        show w.fillableQty + min (c.levels p).totalQty rem + _ ≤ _
        omega

/-- The levels of a scan that each gave what they announced gave it together. -/
theorem Spans.announced_le {limit : Int} (h : Spans V s limit n p) (hpos : ∀ x ∈ l, 0 ≤ x.qty)
    (hgave : ∀ r, inRange V r → s.rank p ≤ s.rank r → s.rank r ≤ s.rank limit → (c.levels r).totalQty ≤ tradedAt r l) :
    c.announced (Core.scanStep s.other) n p ≤ tradedFrom s p l := by
  induction n generalizing p with
  | zero => exact traded_nonneg fun x hx => hpos x (mem_of_mem_filter hx)
  | succ n ih =>
    obtain ⟨hr, hlim⟩ := h.here
    have hrest := ih h.next fun r hr hle => hgave r hr (by rw [s.rank_worse] at hle; omega)
    rw [Core.announced, scanStep_worse, tradedFrom_step]
    have := hgave p hr le_rfl hlim
    omega

/-! ## From the preview to the end of the match -/

/-- The order of `r` meets no resting order that self-trade prevention handles. -/
def Book.MeetsOthers (V : Env) (b : Book) (r : Request) : Prop :=
  b.gates.stpPolicy = .none ∨ b.gates.stpPolicy = .decrementAndCxl ∨
    ∀ p, r.side.other.rank p ≤ r.side.other.rank r.priceTicks →
      ∀ i ∈ b.core.queue V p, b.sameTradingEntity (b.core.body i).clientId r.clientId = false

/-- A level announces nothing that does not rest there. -/
theorem Book.Summed.announces (h : b.Summed V) (hw : Wf V b) (hf : b.SumsFit V) (r : Int) :
    0 ≤ (b.core.levels r).totalQty ∧ (b.core.levels r).totalQty ≤ b.leftAt V (fun _ => true) r := by
  have hqty : (b.core.levels r).totalQty = i32 (shownSum b.core.body (b.core.queue V r)) := congrArg Tally.qty (h r)
  have h0 : 0 ≤ shownSum b.core.body (b.core.queue V r) := by
    refine sum_nonneg fun x hx => ?_
    obtain ⟨i, hi, rfl⟩ := mem_map.mp hx
    exact (hw.resting hi).shown
  have hle : shownSum b.core.body (b.core.queue V r) ≤ b.leftAt V (fun _ => true) r := by
    refine sum_le_sum fun i hi => ?_
    have hhidden := (hw.resting hi).hidden
    simp only [if_true]
    unfold Order.hiddenQty at hhidden
    unfold Order.remainingQty
    omega
  have hmax : shownSum b.core.body (b.core.queue V r) ≤ int32Max := by
    by_cases hr : inRange V r
    · have := hf r.toNat (mem_range.mpr (by have := hr.1; have := hr.2; omega))
      rwa [Int.toNat_of_nonneg hr.1] at this
    · have hnil : b.core.queue V r = [] := by
        by_contra hne
        obtain ⟨i, hi⟩ := exists_mem_of_ne_nil _ hne
        exact hr (hw.links.grid r i hi)
      rw [hnil]
      show (0 : Int) ≤ int32Max
      decide
  rw [hqty, i32_eq ⟨by unfold int32Min; omega, hmax⟩]
  exact ⟨h0, hle⟩

/-- The match of an order that meets only others ends with all of it executed, or with all that was announced within its limit. -/
theorem match_consumes {b1 c : Book} (hw : Wf V b) (hsum : b.Summed V) (hf : b.SumsFit V) (hg : b.core.OnGrid V)
    (hmeet : b.MeetsOthers V r) (hm : b.startMatch V r = some (i, ts, q, b1)) (hl : Book.priceLoop V i ts n q b1 = some c) :
    ∃ l, c.tape.trades = b.tape.trades ++ l ∧
      (∀ x ∈ l, x.takerOrderId = (b1.order i).id) ∧ traded l ≤ r.qty ∧
      (traded l = r.qty ∨ b.core.announced (Core.scanStep r.side) (b.core.scanLength V r.side r.priceTicks)
        (b.core.scanStart r.side) ≤ traded l) := by
  have hstart := startMatch_started hw hm
  obtain ⟨id, t0, hbody⟩ := hstart.body
  have hbest : b1.core.best = b.core.best := hstart.unmoved.best
  have hside : (b1.core.body i).side = r.side.other.other := by
    rw [hbody, Side.other_other]
    rfl
  have hprice : (b1.core.body i).priceTicks = r.priceTicks := by
    rw [hbody]
    rfl
  have hfree : b1.Unhindered V i r.side.other (b1.core.body i).priceTicks := by
    unfold Book.Unhindered
    rw [hstart.stpPolicy, hprice]
    rcases hmeet with hnone | hdec | hother
    · exact .inl hnone
    · exact .inr (.inl hdec)
    · refine .inr (.inr fun p hp j hj => ?_)
      rw [hstart.unmoved.queue] at hj
      rw [hstart.unmoved.body p j hj, hbody]
      unfold Book.sameTradingEntity
      rw [hstart.clientToFirm]
      exact hother p hp j hj
  have hshow : ∀ p, inRange V p → (b1.core.levels p).totalQty ≤ b1.leftAt V (fun _ => true) p := by
    intro p _
    rw [hstart.unmoved.levels, hstart.unmoved.leftAt]
    exact (hsum.announces hw hf p).2
  have hgrid : b1.core.best r.side.other = r.side.other.noBest ∨ inRange V (b1.core.best r.side.other) := by
    rw [hbest]
    exact hg _
  have hfull : q = r.qty := hstart.full
  rw [hfull] at hl
  obtain ⟨q', l, hc, hend⟩ := priceLoop_clears (hfull ▸ hstart.taking) (Int.le_of_lt hstart.pos) hside hfree hgrid hshow hl
  have hq' := hc.nonneg
  have htotal := hc.sum
  refine ⟨l, ?_, hc.by_, by omega, ?_⟩
  · rw [hc.trades, hstart.trades]
  · rcases hend with hdone | hlevels
    · exact .inl (by omega)
    · right
      have hspan : Spans V r.side.other r.priceTicks (b.core.scanLength V r.side.other.other r.priceTicks) (b.core.best r.side.other) :=
        scan_spans (hg _)
      have hscan := hspan.announced_le hc.pos fun p hp hlo hhi => by
        have hgave := hlevels p hp (hbest ▸ hlo) (hprice ▸ hhi)
        rwa [hstart.unmoved.levels] at hgave
      rw [← scanStart_best, Side.other_other] at hscan
      exact hscan.trans (tradedFrom_le hc.pos _ _)

/-- A POST_ONLY order that does not cross the book is not fillable at once. -/
theorem postOnly_not_fillable (hg : b.core.OnGrid V) (hq : 0 < r.qty) (hcross : b.core.wouldCross r.side r.priceTicks = false) :
    b.core.fokFillable V r.side r.priceTicks r.qty = false := by
  have hspan : Spans V r.side.other r.priceTicks (b.core.scanLength V r.side.other.other r.priceTicks) (b.core.best r.side.other) :=
    scan_spans (hg _)
  rw [Side.other_other] at hspan
  unfold Core.fokFillable
  cases hn : b.core.scanLength V r.side r.priceTicks with
  | zero =>
    rw [Core.fokScan]
    exact decide_eq_false (by omega)
  | succ n =>
    rw [hn] at hspan
    obtain ⟨hr, hlim⟩ := hspan.here
    have hno : b.core.best r.side.other ≠ r.side.other.noBest := by
      intro he
      exact Side.not_inRange_noBest V _ (he ▸ hr)
    have hyes : b.core.wouldCross r.side.other.other r.priceTicks := (wouldCross_side _ _ _).mpr ⟨hno, hlim⟩
    rw [Side.other_other, hcross] at hyes
    cases hyes

/-! ## Whole calls -/

/-- From `b` to `b'` the order `id` took `q` in its own match, before anything else was traded. -/
def Book.Executes (b b' : Book) (id : Nat) (q : Int) : Prop :=
  ∃ l rest, b'.tape.trades = b.tape.trades ++ l ++ rest ∧ (∀ x ∈ l, x.takerOrderId = id) ∧ traded l = q

/-- `submit r` returned `id` and took `b` to `b'`: all or nothing. -/
structure AllOrNothing (r : Request) (b : Book) (id : Nat) (b' : Book) : Prop where
  refused : id = 0 → b'.core = b.core ∧ b'.tape.trades = b.tape.trades
  fok : id ≠ 0 → r.type = .fok ∨ r.tif = .fok → b.Executes b' id r.qty
  minQty : id ≠ 0 → 0 < r.minQty → r.type ≠ .postOnly → r.type ≠ .hidden → ∃ q, min r.minQty r.qty ≤ q ∧ b.Executes b' id q

theorem limitReject_minQty (ha : b.gates.inAuctionMode) (m : Int) :
    b.limitReject V { r with minQty := m } = b.limitReject V r := by
  have hpreview : ∀ c : Book, c.gates.inAuctionMode → c.previewReject V { r with minQty := m } = c.previewReject V r := by
    intro c hc
    unfold Book.previewReject
    simp [hc]
  unfold Book.limitReject
  dsimp only
  have hmode : (if b.gates.rateLimitingEnabled && (!b.gates.inInternalSubmit && r.clientId ≠ 0) then
      b.consumeRateToken V r.clientId else (true, b)).2.gates.inAuctionMode := by
    split
    · unfold Book.consumeRateToken
      split <;> exact ha
    · exact ha
  rw [hpreview _ hmode]

/-- In auction mode the minimum quantity is not looked at. -/
theorem submit_minQty (ha : b.gates.inAuctionMode) (n : Nat) (m : Int) :
    Book.submit V n { r with minQty := m } b = Book.submit V n r b := by
  have hadmission : b.admission V { r with minQty := m } = b.admission V r := by
    unfold Book.admission
    rw [limitReject_minQty ha]
  cases n with
  | zero => rfl
  | succ n =>
    show Book.submitWith V (Book.submit V n) n { r with minQty := m } b = Book.submitWith V (Book.submit V n) n r b
    unfold Book.submitWith
    rw [hadmission]
    rfl

/-- A call that returns 0 has done nothing. -/
theorem submit_refused (hw : Wf V b) (hid : b.core.nextOrderId ≠ 0) (h : Book.submit V n r b = some (x, b')) (h0 : x.1 = 0) :
    b'.core = b.core ∧ b'.tape.trades = b.tape.trades := by
  obtain ⟨g, a, he, -⟩ := (admission_spec (V := V) (b := b) (r := r)).1
  obtain ⟨nid, why⟩ := x
  obtain rfl : nid = 0 := h0
  obtain ⟨reason, rfl⟩ := submit_zero hw hid h
  rw [he]
  exact ⟨rfl, rfl⟩

/-- In continuous trading an accepted order that meets only others took all it wanted in its match, or at least what was announced
    within its limit. -/
theorem submit_consumes (hw : Wf V b) (hsum : b.Summed V) (hf : b.SumsFit V) (hg : b.core.OnGrid V)
    (hcont : b.gates.inAuctionMode = false) (hh : r.type ≠ .hidden) (hp : r.type ≠ .postOnly) (hmeet : b.MeetsOthers V r)
    (h : Book.submit V n r b = some (x, b')) (h0 : x.1 ≠ 0) :
    ∃ q, b.Executes b' x.1 q ∧ q ≤ r.qty ∧ (q = r.qty ∨
      b.core.announced (Core.scanStep r.side) (b.core.scanLength V r.side r.priceTicks) (b.core.scanStart r.side) ≤ q) := by
  rcases submit_cases hw (.inl trivial) h with ⟨reason, rfl, -⟩ | ⟨i, b1, b2, m, -, hc, -⟩
  · exact absurd rfl h0
  · have hon : b1.matchesOnEntry r := by
      unfold Book.matchesOnEntry
      rw [hc.mode, hcont]
      simp [hh, hp]
    have hm := hc.startMatch hon
    obtain ⟨hx, k, c, d, hl, hdoes, -, -, -, hfin⟩ := submit_flight hw hm h
    obtain ⟨l, htrades, hby, hle, hgot⟩ := match_consumes hw hsum hf hg hmeet hm hl
    have hwc : Wf V c := (priceLoop_acts (startMatch_started hw hm).taking hl).1.wf (startMatch_started hw hm).taking.wf
    obtain ⟨rest, hrest⟩ := hdoes.trades_prefix hwc
    refine ⟨traded l, ⟨l, rest, ?_, ?_, rfl⟩, hle, hgot⟩
    · rw [finish_trades hfin, ← hrest, htrades]
    · rw [hx]
      exact hby

end

/-- A FOK order and a minimum quantity are all or nothing. In every reachable state a call that returns 0 has done nothing; in
    auction mode the minimum quantity makes no difference; and in continuous trading an accepted order that is matched on entry and
    meets no order that self-trade prevention handles got what it asked for. Where every order shows itself and no bracket waits,
    the call returns. -/
theorem fok_and_min_qty_honoured {V : Env} {b : Book} {r : Request} (h : Book.Reach V (fun _ _ _ => True) b) :
    (b.AllVisible V → b.NoBracket → (r.type = .market → inRange V r.priceTicks) → ∃ n x b', Book.submit V n r b = some (x, b')) ∧
    (b.gates.inAuctionMode → ∀ n m, Book.submit V n { r with minQty := m } b = Book.submit V n r b) ∧
    ∀ n x b', Book.submit V n r b = some (x, b') →
      (x.1 = 0 → b'.core = b.core ∧ b'.tape.trades = b.tape.trades) ∧
      (Book.Reach V (fun b op _ => b.reducesStop op = false) b → b.gates.inAuctionMode = false → r.type ≠ .hidden →
        b.MeetsOthers V r → b.SumsFit V → AllOrNothing r b x.1 b') := by
  have hw := (Reach.wf h).1
  have hg := Reach.onGrid h
  have hid := Reach.nextOrderId_ne_zero h
  refine ⟨fun hv hb hr => submit_ends hw hg hv hb hr, fun ha n m => submit_minQty ha n m,
    fun n x b' hs => ⟨submit_refused hw hid hs, ?_⟩⟩
  intro h hcont hh hmeet hf
  have hshown : ∀ p, 0 ≤ (b.core.levels p).totalQty := fun p => ((Reach.summed h).announces hw hf p).1
  have hconsumes := fun hp h0 => submit_consumes hw (Reach.summed h) hf hg hcont hh hp hmeet hs h0
  have hpass : x.1 ≠ 0 → 0 < r.qty ∧ b.previewReject V r = none := by
    intro h0
    rcases submit_cases hw (Or.inl trivial) hs with ⟨reason, rfl, -⟩ | ⟨i, b₁, b₂, m, -, hc, -⟩
    · exact absurd rfl h0
    · exact ⟨((admission_spec).2 hc.passed).1, admission_preview hc.passed⟩
  refine ⟨submit_refused hw hid hs, fun h0 hfok => ?_, fun h0 hmin hp _ => ?_⟩
  · obtain ⟨hq, hpreview⟩ := hpass h0
    obtain ⟨hcross, hfillable, -⟩ := previewReject_none hpreview
    have hp : r.type ≠ .postOnly := by
      intro ht
      have hno := postOnly_not_fillable hg hq (hcross ht)
      rw [hfillable hfok] at hno
      cases hno
    obtain ⟨q, hexec, hle, hgot⟩ := hconsumes hp h0
    have hannounced := fokScan_announced hshown (by decide) (hfillable hfok)
    have hall : q = r.qty := by
      rcases hgot with hall | hgot
      · exact hall
      · omega
    exact hall ▸ hexec
  · obtain ⟨hq, hpreview⟩ := hpass h0
    obtain ⟨-, -, hwalk⟩ := previewReject_none hpreview
    obtain ⟨q, hexec, hle, hgot⟩ := hconsumes hp h0
    have hfill := (hwalk hmin hp hh hcont).trans (walkScan_announced hshown)
    refine ⟨q, ?_, hexec⟩
    rcases hgot with hall | hgot
    · omega
    · have hzero : ({} : WalkResult).fillableQty = 0 := rfl
      omega

/-- A FOK order to BUY finds what it wants on two levels. -/
theorem fok_honoured_small : ∃ b x b', Book.runIf smallEnv 20 (fun b op _ => !b.reducesStop op)
      [.submit { side := .sell, priceTicks := 3, qty := 5 }, .submit { side := .sell, priceTicks := 4, qty := 5 }]
      (fresh smallEnv) = some b ∧
    Book.submit smallEnv 20 { side := .buy, priceTicks := 4, qty := 7, type := .fok } b = some (x, b') ∧ x.1 = 3 ∧
    AllOrNothing { side := .buy, priceTicks := 4, qty := 7, type := .fok } b x.1 b' := by
  have hrun : (Book.runIf smallEnv 20 (fun b op _ => !b.reducesStop op)
      [.submit { side := .sell, priceTicks := 3, qty := 5 }, .submit { side := .sell, priceTicks := 4, qty := 5 }]
      (fresh smallEnv)).any (fun b => !b.gates.inAuctionMode && b.gates.stpPolicy = .none && b.SumsFit smallEnv &&
        (Book.submit smallEnv 20 { side := .buy, priceTicks := 4, qty := 7, type := .fok } b).any fun y => y.1.1 = 3) = true := by
    decide +kernel
  obtain ⟨b, hb, hr, hf⟩ := Reach.ofRun hrun fun b op b' h => by
    simpa using h
  simp only [Bool.and_eq_true, decide_eq_true_eq, Bool.not_eq_true', Option.any_eq_true, Prod.exists] at hf
  obtain ⟨⟨⟨hcont, hstp⟩, hfit⟩, x, e, b', hs, hx⟩ := hf
  refine ⟨b, (x, e), b', hb, hs, hx, ?_⟩
  exact ((fok_and_min_qty_honoured (Reach.mono (fun _ _ _ _ => trivial) hr)).2.2 20 (x, e) b' hs).2 hr hcont (by decide) (Or.inl hstp) hfit

/-- In auction mode the minimum quantity is not asked for: the order is accepted and executes nothing. -/
theorem min_qty_waived_in_auction : ∃ b x b', Book.runIf smallEnv 20 (fun _ _ _ => true) [.setAuctionMode true]
      (fresh smallEnv) = some b ∧
    Book.submit smallEnv 20 { side := .buy, priceTicks := 3, qty := 5, minQty := 5 } b = some (x, b') ∧ x.1 = 1 ∧
    b'.tape.trades = [] ∧ ¬ AllOrNothing { side := .buy, priceTicks := 3, qty := 5, minQty := 5 } b x.1 b' := by
  have hrun : (Book.runIf smallEnv 20 (fun _ _ _ => true) [.setAuctionMode true] (fresh smallEnv)).any (fun b =>
      (Book.submit smallEnv 20 { side := .buy, priceTicks := 3, qty := 5, minQty := 5 } b).any fun y =>
        y.1.1 = 1 && y.2.tape.trades = []) = true := by decide +kernel
  obtain ⟨b, hb, -, hf⟩ := Reach.ofRun hrun fun _ _ _ _ => trivial
  simp only [Bool.and_eq_true, decide_eq_true_eq, Option.any_eq_true, Prod.exists] at hf
  obtain ⟨x, e, b', hs, hx, htrades⟩ := hf
  refine ⟨b, (x, e), b', hb, hs, hx, htrades, fun hall => ?_⟩
  have hne : x ≠ 0 := by omega
  obtain ⟨q, hle, l, rest, happend, -, hq⟩ := hall.minQty hne (by decide) (by decide) (by decide)
  rw [htrades] at happend
  have hnil : l = [] := by
    have := List.append_eq_nil_iff.mp happend.symm
    exact (List.append_eq_nil_iff.mp this.1).2
  rw [hnil] at hq
  have hzero : traded [] = 0 := rfl
  have hmin : min (5 : Int) 5 = 5 := rfl
  rw [hmin, ← hq, hzero] at hle
  exact absurd hle (by decide)

end HftLab.OrderBook
