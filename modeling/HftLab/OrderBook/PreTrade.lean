/-
  HftLab.OrderBook.PreTrade — `walk_the_book` against the execution it predicts.

  The walk adds up what the levels show; an IOC order takes what their orders have left, level by level. Where no order rests that
  is an iceberg the two are the same. A level with reserves gives more than it shows, and the levels behind it less than the walk
  expects (`Book.foresees` says when that does not happen).

  - `preview_exact`: over runs of order entry without self-trade prevention, the quantity foreseen is the quantity executed, and the
    average price accounts for the notional up to its rounding.
-/

import Mathlib.Algebra.BigOperators.Ring.List
import HftLab.OrderBook.AllOrNothing
import HftLab.OrderBook.Priority

namespace HftLab.OrderBook

open Lib List

/-- A book in order between two calls: its best prices are right, its sides do not meet, and self-trade prevention is off. -/
structure Regular (V : Env) (b : Book) : Prop where
  orderly : Orderly V b
  uncrossed : b.core.Uncrossed V
  stp : b.gates.stpPolicy = .none

/-- LIMIT, IOC, FOK, POST_ONLY and ICEBERG orders are submitted, orders are cancelled and modified. -/
def Op.trading : Op → Bool
  | .submit r => r.type = .limit || r.type = .ioc || r.type = .fok || r.type = .postOnly || r.type = .iceberg
  | .cancel _ | .modify _ _ _ => true
  | _ => false

/-- A modify that reduces an order in place leaves it something to show. -/
def Book.keepsShown (b : Book) : Op → Bool
  | .modify id newPrice newQty => (b.core.find id).all fun i =>
      let o := b.order i
      !(newPrice = o.priceTicks && newQty < o.totalQty && o.filledQty < newQty) || o.totalQty - newQty < o.displayedQty
  | _ => true

/-- What was paid for `l`. -/
def worth (l : List Trade) : Int := (l.map fun x => x.qty * x.priceTicks).sum

/-- What was paid at `p` and beyond, away from the best price of side `s`. -/
def worthFrom (s : Side) (p : Int) (l : List Trade) : Int := worth (l.filter fun x => s.rank p ≤ s.rank x.priceTicks)

/-- Over the `n` levels of side `s` from `p` on, until `rem` is found, a level shows all its orders have left, or all that is still
    wanted. -/
def Book.foreseesFrom (V : Env) (b : Book) (s : Side) : Nat → Int → Int → Bool
  | 0, _, _ => true
  | n + 1, p, rem =>
    let shown := (b.core.levels p).totalQty
    rem ≤ shown || (shown = b.levelQty V s p && b.foreseesFrom V s n (s.worse p) (rem - shown))

/-- No reserve of an iceberg is drawn on by an order for `q` up to `limit`, before the levels have shown `q`. -/
def Book.foresees (V : Env) (b : Book) (side : Side) (q limit : Int) : Bool :=
  b.foreseesFrom V side.other (b.core.scanLength V side limit) (b.core.scanStart side) q

section

variable {V : Env} {b b' b1 b2 : Book} {p q limit start : Int} {i n : Nat} {s : Side} {r : Request} {l : List Trade} {taker : Order}
    {x : Nat × RejectReason} {rem sum : Int} {w : WalkResult} {side : Side}

/-! ## Order entry keeps a book regular -/

/-- What is left after a match, or of a POST_ONLY order, would rest beyond the other side. -/
theorem beyond_best (hb : b.core.BestAt V s) (hno : ∀ x, s.rank x ≤ s.rank p → ¬ b.core.Rests V s x) :
    b.core.best s = s.noBest ∨ s.rank p < s.rank (b.core.best s) := by
  rcases hb with ⟨hnone, -⟩ | ⟨hrest, -⟩
  · exact .inl hnone
  · exact .inr (not_le.mp fun hle => hno _ hle hrest)

/-- An order of a regular book that is matched on entry takes from side `s`, all it wants or all there is within its limit. -/
theorem entered_takes (h : Regular V b) (hf : b.SumsFit V) (ht : r.type ≠ .hidden) (hp : r.type ≠ .postOnly) (hs : r.side = s.other)
    (hen : Entered V n r b b' i b1 b2) : ∃ b0 q', Wf V b0 ∧ Unmoved V b b0 ∧ b0.tape.trades = b.tape.trades ∧
      b0.core.body i = r.order (b.core.newId r.orderId) (V.clock b.asked) ∧ Underway V s i b0 r.qty q' b2 ∧ Sweep V s b2 ∧
      (q' = 0 ∨ ∀ x, s.rank x ≤ s.rank r.priceTicks → ¬ b2.core.Rests V s x) := by
  obtain ⟨hq, -⟩ := screen_none hen.passed
  have hm := hen.matched
  have hw1 := hen.act.wf h.orderly.wf
  have hun := accept_unmoved h.orderly.wf hen.accepted
  have hrest := Book.accept_rest hen.accepted
  have hbody := accept_body h.orderly.wf hen.accepted
  have hsame : SameSlots b1 (b1.monoNsNow V).2 := .of_core rfl rfl
  have hmoved : Unmoved V b (b1.monoNsNow V).2 := ⟨hun.queue, hun.levels, hun.best, hun.body⟩
  have hsweep : Sweep V s (b1.monoNsNow V).2 :=
    hmoved.sweep (h.orderly.sweep hf h.uncrossed s) (hsame.summed (hen.act.summed trivial h.orderly.wf h.orderly.summed))
  have hleft : (b1.core.body i).remainingQty = r.qty := by
    rw [hbody]
    exact Int.sub_zero r.qty
  have htk : Taking V (b1.monoNsNow V).2 i r.qty := ⟨hw1.aside hsame, hen.flying, hleft.ge⟩
  have hside : (b1.core.body i).side = s.other := by
    rw [hbody]
    exact hs
  have hstp : (b1.monoNsNow V).2.gates.stpPolicy = .none := (congrArg Gates.stpPolicy hrest.2.2.2.1).trans h.stp
  unfold Book.matchEntry at hm
  rw [if_pos ⟨hp, ht⟩] at hm
  have hloop : Book.priceLoop V i (b1.monoNsNow V).1 n r.qty (b1.monoNsNow V).2 = some b2 := by
    rw [← hleft]
    exact hm
  obtain ⟨q', hu, hs', hend⟩ := priceLoop_takes hsweep htk (by omega) hside (.inl hstp) hloop
  refine ⟨_, q', htk.wf, hmoved, hrest.2.2.2.2, hbody, hu, hs', hend.imp_right fun hnone x hx => hnone x ?_⟩
  have hprice : (b1.core.body i).priceTicks = r.priceTicks := by
    rw [hbody]
    rfl
  show s.rank x ≤ s.rank (b1.core.body i).priceTicks
  rw [hprice]
  exact hx

/-- An order of a regular book, from its entry to the end of its match. -/
theorem entered_regular (h : Regular V b) (hf : b.SumsFit V) (ht : r.type ≠ .hidden) (hs : r.side = s.other)
    (hen : Entered V n r b b' i b1 b2) : Wf V b2 ∧ Sweep V s b2 ∧
      (∃ x, b2.core.body i = (r.order (b.core.newId r.orderId) (V.clock b.asked)).tookBy x) ∧
      ((b2.core.body i).filledQty < (b2.core.body i).totalQty →
        b2.core.best s = s.noBest ∨ s.rank (b2.core.body i).priceTicks < s.rank (b2.core.best s)) := by
  by_cases hp : r.type = .postOnly
  · -- nothing is matched: the order did not cross
    have hm := hen.matched
    unfold Book.matchEntry at hm
    rw [if_neg fun hc => hc.1 hp] at hm
    cases hm
    have hun := accept_unmoved h.orderly.wf hen.accepted
    have hbody := accept_body h.orderly.wf hen.accepted
    have hsweep : Sweep V s b1 :=
      hun.sweep (h.orderly.sweep hf h.uncrossed s) (hen.act.summed trivial h.orderly.wf h.orderly.summed)
    refine ⟨hen.act.wf h.orderly.wf, hsweep, ⟨0, ?_⟩, fun _ => ?_⟩
    · rw [hbody]
      unfold Order.tookBy
      rw [Int.add_zero]
    · have hcross := (previewReject_none (screen_none hen.passed).2.2).1 hp
      rw [hs] at hcross
      have hprice : (b1.core.body i).priceTicks = r.priceTicks := by
        rw [hbody]
        rfl
      have hnot := mt (wouldCross_side b.core s r.priceTicks).mpr (by rw [hcross]; simp)
      rw [hprice, hun.best]
      by_cases hb : b.core.best s = s.noBest
      · exact .inl hb
      · exact .inr (not_le.mp fun hle => hnot ⟨hb, hle⟩)
  · obtain ⟨b0, q', -, -, -, hbody, hu, hs', hend⟩ := entered_takes h hf ht hp hs hen
    have htook := hu.body
    rw [hbody] at htook
    refine ⟨hu.taking.wf, hs', ⟨_, htook⟩, fun hlt => beyond_best hs'.best fun x hx => ?_⟩
    rw [htook] at hlt hx
    have hlt' : 0 + (r.qty - q') < r.qty := hlt
    rcases hend with hz | hnone
    · omega
    · exact hnone x hx

theorem submit_regular (h : Regular V b) (hf : b.SumsFit V) (ht : r.type ≠ .hidden) (hs : Book.submit V n r b = some (x, b')) :
    Regular V b' := by
  obtain ⟨l, hprints, -⟩ := submit_prints h.orderly.wf hs
  have hstp : b'.gates.stpPolicy = .none := hprints.stpPolicy.trans h.stp
  rcases submit_entered h.orderly.cont hs with ⟨reason, -, rfl, -⟩ | ⟨m, i, b1, b2, -, hen⟩
  · exact ⟨(reject_keeps h.orderly h.uncrossed reason).orderly, h.uncrossed, hstp⟩
  · obtain ⟨hw2, hsweep, ⟨y, htook⟩, hlim⟩ := entered_regular h hf ht (Side.other_other _).symm hen
    have hcont := matchEntry_continuous (accept_continuous h.orderly.cont hen.accepted) hen.matched
    have hflight : b2.inFlight = [i] := by
      rw [matchEntry_inFlight (hen.act.wf h.orderly.wf) hen.flying hen.matched, accept_inFlight hen.accepted, h.orderly.idle]
    have hi : i ∈ b2.inFlight := by
      rw [hflight]
      exact mem_singleton_self i
    have hcom : (b2.core.body i).Coming := by
      have hcoming := Request.order_coming (screen_none hen.passed).1 ht (b.core.newId r.orderId) (V.clock b.asked)
      rw [htook]
      exact ⟨hcoming.shown, hcoming.whole⟩
    have hty : (b2.core.body i).type ≠ .hidden := by
      rw [htook]
      exact ht
    have hside : (b2.core.body i).side = r.side.other.other := by
      rw [htook, Side.other_other]
      rfl
    exact ⟨finish_orderly hw2 hflight hcont hsweep hcom hty hen.finished,
      finish_uncrossed hw2 hi hsweep hside (fun hlt _ _ => hlim hlt) hen.finished, hstp⟩

theorem cancelInternal_regular (h : Regular V b) (hf : b.SumsFit V) (hi : i ∈ b.core.queue V p) (e : Bool) :
    Regular V (b.cancelInternal V i e) where
  orderly := (cancelInternal_keeps h.orderly hf h.uncrossed hi e).orderly
  uncrossed := (cancel_aside h.orderly.wf hi e).uncrossed h.uncrossed
  stp := by
    rw [(Book.cancelInternal_rest e (h.orderly.wf.resting hi).active).2.2.2.1]
    exact h.stp

theorem modify_regular {y : Nat × RejectReason} (h : Regular V b) (hf : b.SumsFit V) (hty : b.Typed V fun k => k.1 ≠ .hidden)
    {id : Nat} {newPrice newQty : Int} (hk : b.keepsShown (.modify id newPrice newQty))
    (hm : b.modify V n id newPrice newQty = some (y, b')) : Regular V b' := by
  have hw := h.orderly.wf
  rw [modify_eq h.orderly.cont hw] at hm
  cases hfind : b.core.find id with
  | none =>
    rw [hfind] at hm
    cases hm
    exact h
  | some i =>
    rw [hfind] at hm
    obtain ⟨p, hi⟩ := h.orderly.cont.queued hw hfind
    dsimp only at hm
    by_cases hc : newPrice = (b.order i).priceTicks ∧ newQty < (b.order i).totalQty ∧ (b.order i).filledQty < newQty
    · rw [if_pos hc] at hm
      cases hm
      have hshow : (b.core.body i).totalQty - newQty < (b.core.body i).displayedQty := by
        simp only [Book.keepsShown, hfind] at hk
        simp [hc] at hk
        exact hk
      obtain ⟨horderly, hrests⟩ := reduce_orderly h.orderly hfind hi hc.2.1 hc.2.2 hshow
      refine ⟨horderly, fun p q hp hq => ?_, h.stp⟩
      exact h.uncrossed p q ((hrests _ p).mp hp) ((hrests _ q).mp hq)
    · rw [if_neg hc] at hm
      exact submit_regular (cancelInternal_regular h hf hi false) (SumsFit.cancel hf h.orderly.wf hi false) (hty.queued p i hi) hm

theorem exec_regular {op : Op} {x : Outcome} (h : Regular V b) (hf : b.SumsFit V) (hty : b.Typed V fun k => k.1 ≠ .hidden)
    (hop : op.trading) (hk : b.keepsShown op) (he : Book.exec V n op b = some (x, b')) : Regular V b' := by
  cases op with
  | submit r =>
    obtain ⟨y, hs⟩ := Book.returned he fun _ => rfl
    refine submit_regular h hf ?_ hs
    intro hh
    simp [Op.trading, hh] at hop
  | cancel id =>
    cases he
    rw [cancel_eq h.orderly.cont h.orderly.wf]
    split
    · exact h
    · rename_i i hfind
      obtain ⟨p, hi⟩ := h.orderly.cont.queued h.orderly.wf hfind
      exact cancelInternal_regular h hf hi true
  | modify id newPrice newQty =>
    obtain ⟨y, hs⟩ := Book.returned he fun _ => rfl
    exact modify_regular h hf hty hk hs
  | _ => cases hop

theorem Reach.regular (h : Book.Reach V (fun b op _ => op.trading = true ∧ b.SumsFit V ∧ b.keepsShown op) b) :
    Regular V b := by
  induction h with
  | init =>
    have h := fresh_orderly V
    refine ⟨h, fun p q hp _ => ?_, rfl⟩
    obtain ⟨i, hi, -⟩ := hp
    rw [fresh_queue] at hi
    cases hi
  | @step c c' op x hr hs hp ih =>
    obtain ⟨m, hm⟩ := hs
    obtain ⟨hop, hf, hk⟩ := hp
    have hty : c.Typed V fun k => k.1 ≠ .hidden := by
      refine (Reach.moved (Reach.mono (fun _ op _ hp => ?_) hr) trivial fun _ _ _ _ => trivial).1
      cases op with
      | submit r =>
        intro hh
        simp [Request.kind] at hh
        simp [Op.trading, hh] at hp
      | cancel id => rfl
      | modify id newPrice newQty => rfl
      | _ => cases hp.1
    exact exec_regular ih hf hty hop hk hm

/-! ## The walk along the levels -/

theorem traded_nil (h : ∀ x ∈ l, 0 < x.qty) (h0 : traded l ≤ 0) : l = [] := by
  cases l with
  | nil => rfl
  | cons x l =>
    have hx := h x mem_cons_self
    have hl : 0 ≤ traded l := traded_nonneg fun y hy => Int.le_of_lt (h y (mem_cons_of_mem _ hy))
    have hsum : traded (x :: l) = x.qty + traded l := sum_cons
    omega

theorem worthFrom_nil (h : ∀ x ∈ l, 0 < x.qty) (h0 : tradedFrom s p l ≤ 0) : worthFrom s p l = 0 := by
  unfold worthFrom
  rw [traded_nil (fun x hx => h x (mem_of_mem_filter hx)) h0]
  rfl

theorem worthFrom_step (s : Side) (p : Int) (l : List Trade) :
    worthFrom s p l = tradedAt p l * p + worthFrom s (s.worse p) l := by
  have hat : ∀ l : List Trade, ((l.filter fun x => x.priceTicks = p).map fun x => x.qty * x.priceTicks).sum = tradedAt p l * p := by
    intro l
    unfold tradedAt
    rw [← sum_map_mul_right]
    refine congrArg List.sum (map_congr_left fun x hx => ?_)
    rw [of_decide_eq_true (mem_filter.mp hx).2]
  rw [← hat]
  exact sumFrom_step (fun x => x.qty * x.priceTicks) s p l

theorem walkScan_done {c : Core} {dp : Int} (h : rem ≤ 0) : c.walkScan dp n p rem sum w = (sum, w) := by
  cases n with
  | zero => rfl
  | succ n => rw [Core.walkScan, if_pos h]

/-- A level gives all its orders have left, or what is still wanted. -/
theorem Takes.at_level (h : Takes V s taker b b' l) (hw' : Wf V b') (h0 : 0 ≤ q)
    (hend : q = 0 ∨ ∀ x, s.rank x ≤ s.rank limit → ¬ b'.core.Rests V s x) (hp : s.rank p ≤ s.rank limit) :
    tradedAt p l = min (b.levelQty V s p) (q + tradedFrom s p l) := by
  have hlevel := h.level p
  have hrest := hw'.levelQty_nonneg s p
  have hstep := tradedFrom_step s p l
  have hfrom : 0 ≤ tradedFrom s (s.worse p) l := traded_nonneg fun x hx => Int.le_of_lt (h.pos x (mem_of_mem_filter hx))
  by_cases hr : b'.core.Rests V s p
  · -- the match ended here
    have hq : q = 0 := hend.resolve_right fun hno => hno p hp hr
    have hnone : tradedFrom s (s.worse p) l = 0 := by
      unfold tradedFrom
      rw [filter_eq_nil_iff.mpr]
      · rfl
      · intro x hx hle
        have hfront := h.front x hx p hr
        rw [decide_eq_true_eq, s.rank_worse] at hle
        omega
    omega
  · have hzero := levelQty_zero hr
    omega

/-- Where the levels show what will be taken, the walk counts the trades. -/
theorem Takes.walked (h : Takes V s taker b b' l) (hw : Wf V b) (hw' : Wf V b') (h0 : 0 ≤ q)
    (hend : q = 0 ∨ ∀ x, s.rank x ≤ s.rank limit → ¬ b'.core.Rests V s x) (hlim : taker.priceTicks = limit)
    (hshow : ∀ r, s.rank start ≤ s.rank r → (b.core.levels r).totalQty ≤ b.levelQty V s r) (hs : Spans V s limit n p)
    (hp : s.rank start ≤ s.rank p) (hrem : rem = q + tradedFrom s p l) (hfor : b.foreseesFrom V s n p rem) :
    (b.core.walkScan (Core.scanStep s.other) n p rem sum w).1 = sum + worthFrom s p l ∧
      (b.core.walkScan (Core.scanStep s.other) n p rem sum w).2.fillableQty = w.fillableQty + tradedFrom s p l := by
  have hdone : ∀ {p : Int}, tradedFrom s p l = 0 → worthFrom s p l = 0 := fun hz => worthFrom_nil h.pos hz.le
  have hfrom : ∀ p, 0 ≤ tradedFrom s p l := fun p => traded_nonneg fun x hx => Int.le_of_lt (h.pos x (mem_of_mem_filter hx))
  induction n generalizing p sum w rem with
  | zero =>
    have hz : tradedFrom s p l = 0 := by
      unfold tradedFrom
      rw [filter_eq_nil_iff.mpr]
      · rfl
      · intro x hx hle
        have hlimit := h.limit x hx
        rw [hlim] at hlimit
        have := hs.all _ (h.grid x hx) hlimit
        rw [decide_eq_true_eq] at hle
        omega
    rw [hz, hdone hz, Int.add_zero, Int.add_zero]
    exact ⟨rfl, rfl⟩
  | succ n ih =>
    obtain ⟨hr, hwithin⟩ := hs.here
    have hat := h.at_level hw' h0 hend hwithin
    have hstep := tradedFrom_step s p l
    have hworth := worthFrom_step s p l
    have hqty := hw.levelQty_nonneg s p
    have hnext := hfrom (s.worse p)
    have hle := hshow p hp
    rw [← hrem] at hat
    rw [Core.walkScan, scanStep_worse]
    by_cases hpos : rem ≤ 0
    · rw [if_pos hpos]
      have hz : tradedFrom s p l = 0 := by
        have := hfrom p
        omega
      rw [hz, hdone hz, Int.add_zero, Int.add_zero]
      exact ⟨rfl, rfl⟩
    · rw [if_neg hpos]
      dsimp only
      by_cases hall : rem ≤ (b.core.levels p).totalQty
      · -- the level shows what is still wanted: the match ends in it
        have htake : tradedAt p l = rem := by omega
        have hz : tradedFrom s (s.worse p) l = 0 := by omega
        rw [if_neg (by omega), min_eq_right hall, walkScan_done (by omega), hworth, hdone hz, htake]
        refine ⟨by rw [Int.add_zero], ?_⟩
        show w.fillableQty + rem = _
        omega
      · obtain ⟨hexact, hrest⟩ : (b.core.levels p).totalQty = b.levelQty V s p ∧
            b.foreseesFrom V s n (s.worse p) (rem - (b.core.levels p).totalQty) = true := by
          simpa [Book.foreseesFrom, hall] using hfor
        have htake : tradedAt p l = (b.core.levels p).totalQty := by omega
        have hnext' : s.rank start ≤ s.rank (s.worse p) := by
          rw [s.rank_worse]
          omega
        rw [hworth, htake]
        split
        · have hzero : (b.core.levels p).totalQty = 0 := by omega
          rw [hzero, Int.sub_zero] at hrest
          obtain ⟨h1, h2⟩ : (b.core.walkScan (Core.scanStep s.other) n (s.worse p) rem sum w).1 = _ ∧
              (b.core.walkScan (Core.scanStep s.other) n (s.worse p) rem sum w).2.fillableQty = _ :=
            ih hs.next hnext' (by omega) hrest
          rw [h1, h2, hzero, Int.zero_mul, Int.zero_add]
          exact ⟨rfl, by omega⟩
        · rw [min_eq_left (by omega)]
          obtain ⟨h1, h2⟩ := ih hs.next hnext' (by omega) hrest
          rw [h1, h2]
          refine ⟨Int.add_assoc .., ?_⟩
          show w.fillableQty + _ + _ = _
          omega

/-! ## The prediction -/

/-- `submit(side, limit, q, IOC)` -/
def iocOrder (side : Side) (limit q : Int) : Request := { side := side, priceTicks := limit, qty := q, type := .ioc }

/-- The walk for `q` within `limit` found what the trades `l` executed and, if there was anything to find, the average price accounts
    for the notional up to its rounding. -/
structure Foretold (V : Env) (b : Book) (side : Side) (q limit : Int) (l : List Trade) : Prop where
  qty : (b.core.walkTheBook V side q limit).fillableQty = traded l
  worth : b.core.wouldCross side limit = true →
    |(b.core.walkTheBook V side q limit).avgPriceTicks * (b.core.walkTheBook V side q limit).fillableQty - worth l| <
      (b.core.walkTheBook V side q limit).fillableQty

/-- A level from the best price on shows no more than its orders have left. -/
theorem Regular.shown_le (h : Regular V b) (hf : b.SumsFit V) {x : Int} (hx : s.rank (b.core.best s) ≤ s.rank x) :
    (b.core.levels x).totalQty ≤ b.levelQty V s x := by
  refine (h.orderly.summed.announces h.orderly.wf hf x).2.trans (le_of_eq ?_)
  rw [levelQty_eq]
  refine congrArg List.sum (map_congr_left fun j hj => ?_)
  have hside : (b.core.body j).side = s := by
    by_contra hne
    have hother : b.core.Rests V s.other x := ⟨j, hj, Side.eq_other_of_ne hne⟩
    rcases h.orderly.best s with ⟨hnone, -⟩ | ⟨hrest, -⟩
    · have hlt := Side.rank_lt_noBest (h.orderly.wf.links.grid x j hj) s
      rw [hnone] at hx
      omega
    · exact h.uncrossed.behind hrest hx hother
  rw [hside]
  simp

theorem Wf.levelQty_pos (hw : Wf V b) (h : b.core.Rests V s p) : 0 < b.levelQty V s p := by
  obtain ⟨i, hi, hs⟩ := h
  have hmem : (b.order i).remainingQty ∈ ((b.core.queue V p).filter fun j => (b.order j).side = s).map
      fun j => (b.order j).remainingQty :=
    mem_map_of_mem (mem_filter.mpr ⟨hi, decide_eq_true hs⟩)
  refine lt_of_lt_of_le (hw.remaining_pos hi) (single_le_sum (fun x hx => ?_) _ hmem)
  obtain ⟨j, hj, rfl⟩ := mem_map.mp hx
  exact Int.le_of_lt (hw.remaining_pos (mem_filter.mp hj).1)

theorem screen_ioc (hq : 0 < q) (hlim : inRange V limit) : b.screen V (iocOrder side limit q) = none := by
  have hq' : ¬ (iocOrder side limit q).qty ≤ 0 := not_le.mpr hq
  have hlim' : ¬ (¬ inRange V (iocOrder side limit q).priceTicks ∧ (iocOrder side limit q).type ≠ .market) := fun hc => hc.1 hlim
  unfold Book.screen Book.previewReject
  rw [if_neg hq', if_neg hlim']
  simp [iocOrder]

/-- All trades are made from the best price on. -/
theorem Takes.all_from (h : Takes V s taker b b' l) (hw' : Wf V b') (hb : b.core.BestAt V s) :
    ∀ x ∈ l, s.rank (b.core.best s) ≤ s.rank x.priceTicks := by
  intro x hx
  have hat : 0 < tradedAt x.priceTicks l := by
    by_contra hle
    have hnil := traded_nil (fun y hy => h.pos y (mem_of_mem_filter hy)) (not_lt.mp hle)
    exact not_mem_nil (hnil ▸ mem_filter.mpr ⟨hx, decide_eq_true rfl⟩)
  have hrest : b.core.Rests V s x.priceTicks := by
    by_contra hno
    have hlevel := h.level x.priceTicks
    rw [levelQty_zero hno] at hlevel
    have := hw'.levelQty_nonneg s x.priceTicks
    omega
  rcases hb with ⟨-, hnone⟩ | ⟨-, hmin⟩
  · exact absurd hrest (hnone _)
  · exact hmin _ hrest

/-- A match that could start trades something. -/
theorem Takes.some_traded (h : Takes V s taker b b' l) (hw : Wf V b) (hw' : Wf V b') (h0 : 0 ≤ q)
    (hend : q = 0 ∨ ∀ x, s.rank x ≤ s.rank limit → ¬ b'.core.Rests V s x) (hb : b.core.BestAt V s)
    (hcross : b.core.wouldCross s.other limit) (hpos : 0 < q + traded l) : 0 < traded l := by
  obtain ⟨hne, hle⟩ := (wouldCross_side b.core s limit).mp hcross
  have hrest : b.core.Rests V s (b.core.best s) := (hb.resolve_left fun hc => hne hc.1).1
  by_contra hno
  have hnil := traded_nil h.pos (not_lt.mp hno)
  subst hnil
  have hat := h.at_level hw' h0 hend hle
  have hqty := hw.levelQty_pos hrest
  have h1 : tradedAt (b.core.best s) [] = 0 := rfl
  have h2 : tradedFrom s (b.core.best s) [] = 0 := rfl
  have h3 : traded [] = 0 := rfl
  omega

/-- The average price, times the quantity, is the notional but for the remainder of the division. -/
theorem avg_close {f : Int} (hf : 0 < f) : |sum / f * f - sum| < f := by
  have hdiv := Int.mul_ediv_add_emod sum f
  have h0 := Int.emod_nonneg sum hf.ne'
  have hlt := Int.emod_lt_of_pos sum hf
  rw [Int.mul_comm, abs_lt]
  omega

theorem submit_foretold (h : Regular V b) (hf : b.SumsFit V) (hq : 0 < q) (hlim : inRange V limit)
    (hslot : b.core.freeHead ≠ none) (hfor : b.foresees V side q limit)
    (hs : Book.submit V n (iocOrder side limit q) b = some (x, b')) : Foretold V b side q limit (b.newTrades b') := by
  obtain ⟨s, rfl⟩ : ∃ s : Side, side = s.other := ⟨side.other, (Side.other_other _).symm⟩
  have hw := h.orderly.wf
  rcases submit_entered h.orderly.cont hs with ⟨reason, -, -, hsc | ⟨-, ha⟩⟩ | ⟨m, i, b1, b2, -, hen⟩
  · rw [screen_ioc hq hlim] at hsc
    cases hsc
  · exact absurd (accept_full ha) hslot
  · obtain ⟨b0, q', hw0, hun, htrades, hbody, hu, -, hend⟩ :=
      entered_takes h hf (by simp [iocOrder]) (by simp [iocOrder]) rfl hen
    obtain ⟨l, hl0, hsum⟩ := hu.takes
    have hw2 := hu.taking.wf
    -- the book in which matching starts shows what it showed before the call
    have hl : Takes V s (b0.core.body i) b b2 l := { hl0 with
      trades := by rw [hl0.trades, htrades]
      level := fun p => by rw [← hl0.level p, hun.levelQty]
      sum := fun P hP => by rw [← hl0.sum P hP, hun.sideQty hw hw0] }
    have hprice : (b0.core.body i).priceTicks = limit := by
      rw [hbody]
      rfl
    have hnew : b.newTrades b' = l := by
      unfold Book.newTrades
      rw [finish_trades hen.finished, hl.trades, drop_left]
    have hall : (l.filter fun x => s.rank (b.core.best s) ≤ s.rank x.priceTicks) = l := by
      refine filter_eq_self.mpr fun x hx => decide_eq_true ?_
      exact hl.all_from hw2 (h.orderly.best s) x hx
    have htraded : tradedFrom s (b.core.best s) l = traded l := by
      unfold tradedFrom
      rw [hall]
    have hworth : worthFrom s (b.core.best s) l = worth l := by
      unfold worthFrom
      rw [hall]
    have hspans : Spans V s limit (b.core.scanLength V s.other limit) (b.core.best s) :=
      scan_spans ((h.orderly.best s).onGrid hw)
    unfold Book.foresees at hfor
    rw [scanStart_best, Side.other_other] at hfor
    obtain ⟨h1, h2⟩ : (b.core.walkScan (Core.scanStep s.other) _ (b.core.best s) q 0 {}).1 = _ ∧
        (b.core.walkScan (Core.scanStep s.other) _ (b.core.best s) q 0 {}).2.fillableQty = _ :=
      hl.walked hw hw2 hu.nonneg hend hprice (fun x => h.shown_le hf) hspans le_rfl (hsum.trans (by rw [htraded])) hfor
    rw [hworth, Int.zero_add] at h1
    rw [htraded] at h2
    have hfill : (b.core.walkTheBook V s.other q limit).fillableQty = traded l := by
      unfold Core.walkTheBook
      rw [scanStart_best]
      exact h2.trans (Int.zero_add _)
    have havg : 0 < traded l → (b.core.walkTheBook V s.other q limit).avgPriceTicks = worth l / traded l := by
      intro hpos
      unfold Core.walkTheBook
      rw [scanStart_best]
      dsimp only
      rw [h2, h1, Int.zero_add, if_pos hpos]
    rw [hnew]
    refine ⟨hfill, fun hcross => ?_⟩
    have hpos := hl.some_traded hw hw2 hu.nonneg hend (h.orderly.best s) hcross (by rw [← hsum]; exact hq)
    rw [hfill, havg hpos]
    exact avg_close hpos

end

/-- In a run of order entry without self-trade prevention, whose sums fit and in which no modify leaves an order nothing to show,
    `walk_the_book` foretells the IOC order that comes next, if no reserve of an iceberg is drawn on before the levels have shown
    what it wants and the pool has a slot. The call returns. -/
theorem preview_exact {V : Env} {b : Book} {side : Side} {q limit : Int}
    (h : Book.Reach V (fun b op _ => op.trading = true ∧ b.SumsFit V ∧ b.keepsShown op = true) b) (hf : b.SumsFit V) (hq : 0 < q)
    (hlim : inRange V limit) (hslot : b.core.freeHead ≠ none) (hfor : b.foresees V side q limit = true) :
    (∃ n x b', Book.submit V n (iocOrder side limit q) b = some (x, b')) ∧
    ∀ n x b', Book.submit V n (iocOrder side limit q) b = some (x, b') →
      Foretold V b side q limit (b.newTrades b') := by
  have hreg := Reach.regular h
  refine ⟨?_, fun n x b' hs => submit_foretold hreg hf hq hlim hslot hfor hs⟩
  exact submit_ends hreg.orderly.wf (Reach.onGrid h) hreg.orderly.visible hreg.orderly.cont.bracket fun _ => hlim

/-- An iceberg shows enough, and a second level is hit. -/
theorem preview_exact_small : ∃ b x b', Book.runIf smallEnv 20
      (fun b op _ => op.trading && b.SumsFit smallEnv && b.keepsShown op)
      [.submit { side := .sell, priceTicks := 3, qty := 5 },
       .submit { side := .sell, priceTicks := 4, qty := 9, type := .iceberg, displayedQty := 4 }] (fresh smallEnv) = some b ∧
    Book.submit smallEnv 20 (iocOrder .buy 5 7) b = some (x, b') ∧ (b.core.walkTheBook smallEnv .buy 7 5).fillableQty = 7 ∧
    Foretold smallEnv b .buy 7 5 (b.newTrades b') := by
  have hrun : (Book.runIf smallEnv 20 (fun b op _ => op.trading && b.SumsFit smallEnv && b.keepsShown op)
      [.submit { side := .sell, priceTicks := 3, qty := 5 },
       .submit { side := .sell, priceTicks := 4, qty := 9, type := .iceberg, displayedQty := 4 }] (fresh smallEnv)).any
      (fun b => b.SumsFit smallEnv && b.core.freeHead ≠ none && b.foresees smallEnv .buy 7 5 &&
        (b.core.walkTheBook smallEnv .buy 7 5).fillableQty = 7 && (Book.submit smallEnv 20 (iocOrder .buy 5 7) b).isSome) = true := by
    decide +kernel
  obtain ⟨b, hb, hr, hf⟩ := Reach.ofRun
    hrun fun b op b' h => by
      simpa [and_assoc] using h
  simp only [Bool.and_eq_true, decide_eq_true_eq, Option.isSome_iff_exists, Prod.exists] at hf
  obtain ⟨⟨⟨⟨hfit, hslot⟩, hfor⟩, hfill⟩, k, e, b', hs⟩ := hf
  exact ⟨b, (k, e), b', hb, hs, hfill, (preview_exact hr hfit (by decide) (by decide) hslot hfor).2 20 (k, e) b' hs⟩

/-- The walk sees two of the five that an iceberg has left; the order gets four. -/
theorem preview_misses_reserve : ∃ b x b', Book.runIf smallEnv 20
      (fun b op _ => op.trading && b.SumsFit smallEnv && b.keepsShown op)
      [.submit { side := .sell, priceTicks := 3, qty := 5, type := .iceberg, displayedQty := 2 }] (fresh smallEnv) = some b ∧
    Book.submit smallEnv 20 (iocOrder .buy 3 4) b = some (x, b') ∧
    (b.core.walkTheBook smallEnv .buy 4 3).fillableQty = 2 ∧ traded (b.newTrades b') = 4 ∧
    ¬ Foretold smallEnv b .buy 4 3 (b.newTrades b') := by
  have hrun : (Book.runIf smallEnv 20 (fun b op _ => op.trading && b.SumsFit smallEnv && b.keepsShown op)
      [.submit { side := .sell, priceTicks := 3, qty := 5, type := .iceberg, displayedQty := 2 }] (fresh smallEnv)).any (fun b =>
        (b.core.walkTheBook smallEnv .buy 4 3).fillableQty = 2 &&
        (Book.submit smallEnv 20 (iocOrder .buy 3 4) b).any fun y => traded (b.newTrades y.2) = 4) = true := by decide +kernel
  obtain ⟨b, hb, -, hf⟩ := Reach.ofRun hrun fun _ _ _ _ => trivial
  simp only [Bool.and_eq_true, decide_eq_true_eq, Option.any_eq_true, Prod.exists] at hf
  obtain ⟨hfill, x, e, b', hs, htraded⟩ := hf
  refine ⟨b, (x, e), b', hb, hs, hfill, htraded, fun hall => ?_⟩
  have hqty := hall.qty
  rw [hfill, htraded] at hqty
  cases hqty

end HftLab.OrderBook
