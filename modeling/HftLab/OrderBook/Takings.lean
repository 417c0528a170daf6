/-
  HftLab.OrderBook.Takings — what a match takes from the other side.

  A match against side `s` of an uncrossed book of visible orders, in which self-trade prevention has nothing to do, executes the
  orders of that side from the best price on: `Takes` accounts for it price by price. It ends with all of the taker's quantity
  executed, or with nothing left within its limit (`priceLoop_takes`). What an order has left counts, the reserve of an iceberg
  included.
-/

import HftLab.OrderBook.Clearing
import HftLab.OrderBook.InFlight

namespace HftLab.OrderBook

open Lib Function

/-- What was traded at `p`. -/
def tradedAt (p : Int) (ts : List Trade) : Int := ((ts.filter fun x => x.priceTicks = p).map (·.qty)).sum

/-- What was traded. -/
def traded (ts : List Trade) : Int := (ts.map (·.qty)).sum

/-- The taker in slot `t` meets no maker that self-trade prevention handles. -/
def Book.Unhindered (V : Env) (b : Book) (t : Nat) (s : Side) (limit : Int) : Prop :=
  b.gates.stpPolicy = .none ∨ b.gates.stpPolicy = .decrementAndCxl ∨ ∀ p, s.rank p ≤ s.rank limit →
    ∀ i ∈ b.core.queue V p, b.sameTradingEntity (b.core.body i).clientId (b.core.body t).clientId = false

/-- From `b` to `b'` the trades `ts` were made with orders of side `s`, the oldest first. -/
structure Takes (V : Env) (s : Side) (taker : Order) (b b' : Book) (ts : List Trade) : Prop where
  trades : b'.tape.trades = b.tape.trades ++ ts
  level : ∀ p, b.levelQty V s p = b'.levelQty V s p + tradedAt p ts
  sum : ∀ P, (∀ x ∈ ts, P x.priceTicks = true) → b.sideQty V s P = b'.sideQty V s P + traded ts
  outward : ts.Pairwise fun x y => s.rank x.priceTicks ≤ s.rank y.priceTicks
  front : ∀ x ∈ ts, ∀ p, b'.core.Rests V s p → s.rank x.priceTicks ≤ s.rank p
  limit : ∀ x ∈ ts, s.rank x.priceTicks ≤ s.rank taker.priceTicks
  grid : ∀ x ∈ ts, inRange V x.priceTicks
  pos : ∀ x ∈ ts, 0 < x.qty
  by_ : ∀ x ∈ ts, x.takerOrderId = taker.id ∧ x.takerSide = taker.side

section

variable {V : Env} {b b' b₀ : Book} {p q r : Int} {t i j ts : Nat} {s : Side} {l : List Trade} {taker : Order}
    {P : Int → Bool} {q₀ : Int} {n : Nat}

theorem tradedAt_append (p : Int) (l l' : List Trade) : tradedAt p (l ++ l') = tradedAt p l + tradedAt p l' := by
  unfold tradedAt
  rw [List.filter_append, List.map_append, List.sum_append]

theorem traded_append (l l' : List Trade) : traded (l ++ l') = traded l + traded l' := by
  unfold traded
  rw [List.map_append, List.sum_append]

theorem tradedAt_one (x : Trade) : tradedAt p [x] = if p = x.priceTicks then x.qty else 0 := by
  unfold tradedAt
  by_cases h : p = x.priceTicks
  · simp [h]
  · simp [h, Ne.symm h]

theorem traded_one (x : Trade) : traded [x] = x.qty := by
  unfold traded
  simp

theorem traded_nonneg (h : ∀ x ∈ l, 0 ≤ x.qty) : 0 ≤ traded l := by
  refine List.sum_nonneg fun y hy => ?_
  obtain ⟨x, hx, rfl⟩ := List.mem_map.mp hy
  exact h x hx

theorem tradedAt_nonneg (h : ∀ x ∈ l, 0 ≤ x.qty) (p : Int) : 0 ≤ tradedAt p l :=
  traded_nonneg fun x hx => h x (List.mem_filter.mp hx).1

theorem Book.Unhindered.never (h : b.Unhindered V t s r) (hp : s.rank p ≤ s.rank r) (hi : i ∈ b.core.queue V p)
    (hsame : b.sameTradingEntity (b.core.body i).clientId (b.core.body t).clientId)
    (hpol : b.gates.stpPolicy ≠ .none ∧ b.gates.stpPolicy ≠ .decrementAndCxl) : False := by
  rcases h with h | h | h
  · exact hpol.1 h
  · exact hpol.2 h
  · rw [h p hp i hi] at hsame
    cases hsame

/-! ## What an order has left -/

theorem Wf.sideQty_mono (hw : Wf V b) {Q : Int → Bool} (h : ∀ x, P x → Q x) : b.sideQty V s P ≤ b.sideQty V s Q := by
  rw [hw.sideQty_eq, hw.sideQty_eq]
  refine Finset.sum_le_sum fun x _ => ?_
  by_cases hP : P x
  · rw [if_pos hP, if_pos (h x hP)]
  · rw [if_neg hP]
    split
    · exact hw.levelQty_nonneg s x
    · exact Int.le_refl 0

theorem Wf.sideQty_zero (hw : Wf V b) (h : ∀ x, P x → ¬ b.core.Rests V s x) : b.sideQty V s P = 0 := by
  rw [hw.sideQty_eq]
  refine Finset.sum_eq_zero fun x _ => ?_
  split
  · rename_i hP
    exact levelQty_zero (h x hP)
  · rfl

/-- What the orders at `p` have left, of the sides that `f` admits. -/
def Book.leftAt (V : Env) (b : Book) (f : Side → Bool) (p : Int) : Int :=
  ((b.core.queue V p).map fun i => if f (b.core.body i).side then (b.core.body i).remainingQty else 0).sum

theorem levelQty_eq (b : Book) (s : Side) (p : Int) : b.levelQty V s p = b.leftAt V (fun u => u = s) p := by
  unfold Book.levelQty Book.leftAt
  induction b.core.queue V p with
  | nil => rfl
  | cons i l ih =>
    rw [List.filter_cons, List.map_cons, List.sum_cons, ← ih]
    have hbody : b.core.body i = (b.order i).strip := rfl
    by_cases hs : (b.order i).side = s
    · have hs' : (b.core.body i).side = s := hs
      simp only [hs, hs', decide_true, if_true, List.map_cons, List.sum_cons]
      rfl
    · have hs' : (b.core.body i).side ≠ s := hs
      simp only [hs, hs', decide_false, Bool.false_eq_true, if_false, Int.zero_add]

/-! ## One execution -/

/-- An execution takes its quantity from the level. -/
theorem executed_leftAt (hw : Wf V b) (hi : i ∈ b.core.queue V p) (ht : t ∈ b.inFlight) (f : Side → Bool) (ts : Nat)
    (hq : q ≤ (b.core.body i).remainingQty) (r : Int) : (b.executed V p t ts i q).leftAt V f r =
      b.leftAt V f r - if r = p then if f (b.core.body i).side then q else 0 else 0 := by
  obtain ⟨o, l, hex, hQ, hB⟩ := hw.executed_cases hi ht ts q
  have hother : ∀ j, j ≠ i → j ≠ t → (b.executed V p t ts i q).core.body j = b.core.body j := by
    intro j hji hjt
    rw [hB, update_of_ne hji, update_of_ne hjt]
  have hqueued : ∀ x, ∀ j ∈ b.core.queue V x, j ≠ t := fun x j hj => hw.flying_ne_queued hj ht
  unfold Book.leftAt
  rw [hQ]
  by_cases e : r = p
  · subst e
    rw [update_self, if_pos rfl]
    have hmaker : (b.executed V r t ts i q).core.body i = o := by rw [hB, update_self]
    -- what the level has without the maker
    have herase : ((b.core.queue V r).erase i).map (fun j =>
          if f ((b.executed V r t ts i q).core.body j).side then ((b.executed V r t ts i q).core.body j).remainingQty else 0) =
        ((b.core.queue V r).erase i).map fun j => if f (b.core.body j).side then (b.core.body j).remainingQty else 0 := by
      refine List.map_congr_left fun j hj => ?_
      have hj' := (hw.links.level r).nodup.mem_erase_iff.mp hj
      rw [hother j hj'.1 (hqueued r j hj'.2)]
    have hsum := sum_map_erase (fun j => if f (b.core.body j).side then (b.core.body j).remainingQty else 0) hi
    have hafter : (b.core.body i).totalQty - ((b.core.body i).filledQty + q) = (b.core.body i).remainingQty - q := by
      unfold Order.remainingQty
      omega
    cases hex with
    | refresh shown hD hpos hle htype =>
      have hnow : (if f ({ (b.core.body i).filledBy q with displayedQty := shown } : Order).side then
          ({ (b.core.body i).filledBy q with displayedQty := shown } : Order).remainingQty else 0) =
          if f (b.core.body i).side then (b.core.body i).remainingQty - q else 0 := by
        show (if f (b.core.body i).side then (b.core.body i).totalQty - ((b.core.body i).filledQty + q) else 0) = _
        rw [hafter]
      rw [List.map_append, List.sum_append, herase, hsum, List.map_singleton, List.sum_singleton, hmaker, hnow]
      split <;> omega
    | complete hdone =>
      have hall : (b.core.body i).remainingQty ≤ q := by
        omega
      rw [herase, hsum]
      split <;> omega
    | partial_ hlt hty =>
      have hsum' := sum_map_erase (fun j => if f ((b.executed V r t ts i q).core.body j).side then
        ((b.executed V r t ts i q).core.body j).remainingQty else 0) hi
      have hnow : (if f ({ (b.core.body i).filledBy q with status := .partiallyFilled } : Order).side then
          ({ (b.core.body i).filledBy q with status := .partiallyFilled } : Order).remainingQty else 0) =
          if f (b.core.body i).side then (b.core.body i).remainingQty - q else 0 := by
        show (if f (b.core.body i).side then (b.core.body i).totalQty - ((b.core.body i).filledQty + q) else 0) = _
        rw [hafter]
      rw [herase, hsum, hmaker, hnow] at hsum'
      cases hf : f (b.core.body i).side with
      | false =>
        simp only [hf, Bool.false_eq_true, if_false] at hsum' ⊢
        omega
      | true =>
        simp only [hf, if_true] at hsum' ⊢
        omega
  · rw [update_of_ne e, if_neg e, Int.sub_zero]
    refine congrArg List.sum (List.map_congr_left fun j hj => ?_)
    rw [hother j ?_ (hqueued r j hj)]
    rintro rfl
    exact e ((hw.price hj).symm.trans (hw.price hi))

theorem executed_levelQty (hw : Wf V b) (hi : i ∈ b.core.queue V p) (ht : t ∈ b.inFlight) (hs : (b.core.body i).side = s)
    (ts : Nat) (hq : q ≤ (b.core.body i).remainingQty) (r : Int) :
    (b.executed V p t ts i q).levelQty V s r = b.levelQty V s r - if r = p then q else 0 := by
  rw [levelQty_eq, levelQty_eq, executed_leftAt hw hi ht (fun u => u = s) ts hq r, hs]
  simp only [decide_true, if_true]

theorem executed_sideQty (hw : Wf V b) (hi : i ∈ b.core.queue V p) (ht : t ∈ b.inFlight) (hs : (b.core.body i).side = s)
    (hw' : Wf V (b.executed V p t ts i q)) (hq : q ≤ (b.core.body i).remainingQty) (hP : P p) :
    b.sideQty V s P = (b.executed V p t ts i q).sideQty V s P + q := by
  have hr := hw.links.grid p i hi
  have hterm : ∀ x, (if P x = true then (b.executed V p t ts i q).levelQty V s x else 0) =
      (if P x = true then b.levelQty V s x else 0) - if x = p then q else 0 := by
    intro x
    rw [executed_levelQty hw hi ht hs ts hq x]
    by_cases hx : x = p
    · rw [hx, if_pos hP, if_pos hP, if_pos rfl]
    · rw [if_neg hx, Int.sub_zero, Int.sub_zero]
  rw [hw.sideQty_eq, hw'.sideQty_eq, Finset.sum_congr rfl fun x _ => hterm x, Finset.sum_sub_distrib,
    Finset.sum_ite_eq', if_pos (Finset.mem_Ico.mpr hr)]
  omega

theorem executed_clientId (hw : Wf V b) (hi : i ∈ b.core.queue V p) (ht : t ∈ b.inFlight) (ts : Nat) (q : Int) (j : Nat) :
    ((b.executed V p t ts i q).core.body j).clientId = (b.core.body j).clientId := by
  obtain ⟨o, l, hex, -, hB⟩ := hw.executed_cases hi ht ts q
  have ho : o.clientId = (b.core.body i).clientId := by cases hex <;> rfl
  rw [hB]
  by_cases hj : j = i
  · rw [hj, update_self, ho]
  · rw [update_of_ne hj]
    by_cases hjt : j = t
    · rw [hjt, update_self]
      rfl
    · rw [update_of_ne hjt]

theorem executed_unhindered (h : b.Unhindered V t s r) (hw : Wf V b) (hi : i ∈ b.core.queue V p) (ht : t ∈ b.inFlight) (ts : Nat)
    (q : Int) : (b.executed V p t ts i q).Unhindered V t s r := by
  have hprints : Prints b (b.executed V p t ts i q) [.fill (b.order i) (b.order t) q] := executed_prints
  unfold Book.Unhindered
  rw [hprints.stpPolicy]
  rcases h with h | h | h
  · exact .inl h
  · exact .inr (.inl h)
  · refine .inr (.inr fun x hx j hj => ?_)
    rw [hprints.sameTradingEntity, executed_clientId hw hi ht, executed_clientId hw hi ht]
    exact h x hx j ((executed_aside hw hi ht ts q).sub x j hj)

theorem Takes.refl (V : Env) (s : Side) (taker : Order) (b : Book) : Takes V s taker b b [] where
  trades := (List.append_nil _).symm
  level := fun _ => (Int.add_zero _).symm
  sum := fun _ _ => (Int.add_zero _).symm
  outward := List.Pairwise.nil
  front := fun _ h => absurd h List.not_mem_nil
  limit := fun _ h => absurd h List.not_mem_nil
  grid := fun _ h => absurd h List.not_mem_nil
  pos := fun _ h => absurd h List.not_mem_nil
  by_ := fun _ h => absurd h List.not_mem_nil

/-- One more maker of the best level is executed. -/
theorem Takes.exec (ts : Nat) (h : Takes V s taker b₀ b l) (hw : Wf V b) (hi : i ∈ b.core.queue V p) (ht : t ∈ b.inFlight)
    (hw' : Wf V (b.executed V p t ts i q)) (hs : (b.core.body i).side = s)
    (hbest : ∀ x, b.core.Rests V s x → s.rank p ≤ s.rank x) (hlim : s.rank p ≤ s.rank taker.priceTicks)
    (hid : (b.core.body t).id = taker.id) (hside : (b.core.body t).side = taker.side) (h0 : 0 < q)
    (hq : q ≤ (b.core.body i).remainingQty) :
    ∃ l', Takes V s taker b₀ (b.executed V p t ts i q) l' ∧ traded l' = traded l + q := by
  obtain ⟨x, htr, hxp, hxq, hxid, hxs⟩ := executed_trades V b p q t i ts
  have hxp : x.priceTicks = p := hxp.trans (hw.price hi)
  have haside := executed_aside hw hi ht ts q
  refine ⟨l ++ [x], ⟨?_, fun r => ?_, fun P hP => ?_, ?_, fun y hy r hr => ?_, fun y hy => ?_, fun y hy => ?_, fun y hy => ?_,
    fun y hy => ?_⟩, ?_⟩
  · rw [htr, h.trades, List.append_assoc]
  · rw [h.level r, executed_levelQty hw hi ht hs ts hq r, tradedAt_append, tradedAt_one, hxp, hxq]
    omega
  · have hPp : P p := hxp ▸ hP x (List.mem_append_right _ (List.mem_singleton.mpr rfl))
    rw [h.sum P fun y hy => hP y (List.mem_append_left _ hy), executed_sideQty hw hi ht hs hw' hq hPp, traded_append, traded_one, hxq]
    omega
  · refine List.pairwise_append.mpr ⟨h.outward, List.pairwise_singleton .., fun y hy z hz => ?_⟩
    rw [List.mem_singleton.mp hz, hxp]
    exact h.front y hy p ⟨i, hi, hs⟩
  · rcases List.mem_append.mp hy with hy | hy
    · exact h.front y hy r (haside.rests hr)
    · rw [List.mem_singleton.mp hy, hxp]
      exact hbest r (haside.rests hr)
  · rcases List.mem_append.mp hy with hy | hy
    · exact h.limit y hy
    · rw [List.mem_singleton.mp hy, hxp]
      exact hlim
  · rcases List.mem_append.mp hy with hy | hy
    · exact h.grid y hy
    · rw [List.mem_singleton.mp hy, hxp]
      exact hw.links.grid p i hi
  · rcases List.mem_append.mp hy with hy | hy
    · exact h.pos y hy
    · rw [List.mem_singleton.mp hy, hxq]
      exact h0
  · rcases List.mem_append.mp hy with hy | hy
    · exact h.by_ y hy
    · rw [List.mem_singleton.mp hy]
      exact ⟨hxid.trans hid, hxs.trans hside⟩
  · rw [traded_append, traded_one, hxq]

/-! ## The loops -/

/-- The match so far: the taker, with `q` of `q₀` left, came from `b₀` to `b`. -/
structure Underway (V : Env) (s : Side) (t : Nat) (b₀ : Book) (q₀ q : Int) (b : Book) : Prop where
  taking : Taking V b t q
  nonneg : 0 ≤ q
  free : b.Unhindered V t s (b₀.core.body t).priceTicks
  body : b.core.body t = (b₀.core.body t).tookBy (q₀ - q)
  takes : ∃ l, Takes V s (b₀.core.body t) b₀ b l ∧ q₀ = q + traded l

/-- In the middle of the best level, only orders of its side are there. -/
theorem Mid.side_of (h : Mid V s p b₀ b) (h0 : Sweep V s b₀) (hp : b₀.core.best s = p) (hr : inRange V p)
    (hi : i ∈ b.core.queue V p) : (b.core.body i).side = s := by
  rw [h.aside.side i]
  by_contra hne
  exact h0.uncrossed.behind (h0.rests hp hr) le_rfl ⟨i, h.aside.sub p i hi, Side.eq_other_of_ne hne⟩

theorem Mid.behind (h : Mid V s p b₀ b) (h0 : Sweep V s b₀) (hp : b₀.core.best s = p) {x : Int} (hx : b.core.Rests V s x) :
    s.rank p ≤ s.rank x := by
  have hx0 := h.aside.rests hx
  rcases h0.best with ⟨-, hnone⟩ | ⟨-, hle⟩
  · exact absurd hx0 (hnone x)
  · exact hp ▸ hle x hx0

/-- The FIFO loop over the best level, within the taker's limit. -/
theorem matchAtLevel_takes {b₁ : Book} {q' : Int} (h1 : Sweep V s b₁) (hp : b₁.core.best s = p) (hr : inRange V p)
    (hlim : s.rank p ≤ s.rank (b₀.core.body t).priceTicks) (hu : Underway V s t b₀ q₀ q b₁)
    (hm : Book.matchAtLevel V p t ts n (b₁.core.levels p).head q b₁ = some (q', b')) :
    Underway V s t b₀ q₀ q' b' ∧ Mid V s p b₁ b' := by
  refine (matchAtLevel_passes (I := fun q b => Underway V s t b₀ q₀ q b ∧ Mid V s p b₁ b) (fun {i q b v} htk0 hI hpos hi htk hcase => ?_)
    hu.taking (hu.taking.wf.at_head p) ⟨hu, Aside.refl V p b₁, h1.visible, h1.summed, rfl, .inl hp⟩ hm).2
  obtain ⟨hu, hmid⟩ := hI
  have hw := hu.taking.wf
  have hfly := hu.taking.flying
  cases hcase with
  | newest hpol hsame | oldest hpol hsame | both hpol hsame => exact (hu.free.never hlim hi hsame (by rw [hpol]; decide)).elim
  | exec _ =>
    dsimp only [Book.Visit.left, Book.Visit.book] at htk ⊢
    have hvis := hmid.visible p i hi
    have hres := hw.resting hi
    have hside := hmid.side_of h1 hp hr hi
    have hshown : (b.core.body i).displayedQty ≤ (b.core.body i).remainingQty := by
      have := hres.hidden
      unfold Order.hiddenQty at this
      unfold Order.remainingQty
      omega
    have hx := hvis.shown
    obtain ⟨l, htakes, hsum⟩ := hu.takes
    have hbt : (b.core.body t).id = (b₀.core.body t).id ∧ (b.core.body t).side = (b₀.core.body t).side := by
      rw [hu.body]
      exact ⟨rfl, rfl⟩
    obtain ⟨l', htakes', hsum'⟩ := htakes.exec ts hw hi hfly htk.wf hside (fun x hx => hmid.behind h1 hp hx) hlim hbt.1 hbt.2
      (by omega) (by omega)
    refine ⟨⟨htk, by omega, executed_unhindered hu.free hw hi hfly ts _, ?_, l', htakes', by omega⟩,
      hmid.exec hw hi hfly ts (Int.min_le_right ..)⟩
    rw [executed_taker hw hi hfly, hu.body, tookBy_tookBy]
    congr 1
    omega

theorem nextLevel_within {c : Book} (h : c.nextLevel t = some p) (hs : (c.order t).side = s.other) :
    s.rank p ≤ s.rank (c.order t).priceTicks := by
  rw [nextLevel_side hs] at h
  split at h
  · rename_i hc
    cases h
    exact hc.2
  · cases h

/-- The cached prices are not what a match accounts for. -/
theorem Takes.cached (h : Takes V s taker b₀ b l) (x y : Int) :
    Takes V s taker b₀ { b with core := { b.core with bestBid := x, bestAsk := y } } l :=
  ⟨h.trades, h.level, h.sum, h.outward, h.front, h.limit, h.grid, h.pos, h.by_⟩

theorem Underway.cached (h : Underway V s t b₀ q₀ q b) (x y : Int) :
    Underway V s t b₀ q₀ q { b with core := { b.core with bestBid := x, bestAsk := y } } := by
  obtain ⟨l, hl, hsum⟩ := h.takes
  exact ⟨h.taking.best x y, h.nonneg, h.free, h.body, l, hl.cached x y, hsum⟩

/-- The price loop takes all of `q₀`, or all that rests within the taker's limit. -/
theorem priceLoop_takes (h : Sweep V s b) (ht : Taking V b t q₀) (h0 : 0 ≤ q₀) (hside : (b.core.body t).side = s.other)
    (hfree : b.Unhindered V t s (b.core.body t).priceTicks) (hm : Book.priceLoop V t ts n q₀ b = some b') :
    ∃ q', Underway V s t b q₀ q' b' ∧ Sweep V s b' ∧
      (q' = 0 ∨ ∀ x, s.rank x ≤ s.rank (b.core.body t).priceTicks → ¬ b'.core.Rests V s x) := by
  have hsd : ∀ {q c}, Underway V s t b q₀ q c → (c.order t).side = s.other ∧ (c.order t).priceTicks = (b.core.body t).priceTicks := by
    intro q c hu
    show (c.core.body t).side = s.other ∧ (c.core.body t).priceTicks = (b.core.body t).priceTicks
    rw [hu.body]
    exact ⟨hside, rfl⟩
  refine priceLoop_rule (I := fun q c => Underway V s t b q₀ q c ∧ Sweep V s c)
    (J := fun c => ∃ q', Underway V s t b q₀ q' c ∧ Sweep V s c ∧
      (q' = 0 ∨ ∀ x, s.rank x ≤ s.rank (b.core.body t).priceTicks → ¬ c.core.Rests V s x)) ?_ ?_ n q₀ b b' ⟨?_, h⟩ hm
  · intro k q c p q1 c1 hI hpos hnext hl
    obtain ⟨hu, hs⟩ := hI
    obtain ⟨hp, hne⟩ := nextLevel_some hnext (hsd hu).1
    have hr := hs.inRange hu.taking.wf hp hne
    have hlim := (hsd hu).2 ▸ nextLevel_within hnext (hsd hu).1
    obtain ⟨hu', hmid⟩ := matchAtLevel_takes hs hp hr hlim hu hl
    have hsweep := hmid.advance hs hu.taking.wf hp hr hu'.taking.wf
    rw [(hsd hu').1]
    obtain ⟨x, y, hb⟩ := advanceBest_eq s.other
    refine ⟨?_, hsweep⟩
    rw [hb]
    exact hu'.cached x y
  · intro q c hI hend
    obtain ⟨hu, hs⟩ := hI
    refine ⟨q, hu, hs, ?_⟩
    rcases hend with hq | hnone
    · exact .inl (by have := hu.nonneg; omega)
    · refine .inr fun x hx hrest => ?_
      rcases hs.best with ⟨-, hempty⟩ | ⟨hbest, hmin⟩
      · exact hempty x hrest
      · have hle := hmin x hrest
        rcases nextLevel_none hnone (hsd hu).1 with hno | hbehind
        · obtain ⟨i, hi, -⟩ := hbest
          rw [hno] at hi
          exact s.not_inRange_noBest V (hu.taking.wf.links.grid _ i hi)
        · rw [(hsd hu).2] at hbehind
          omega
  · refine ⟨ht, h0, hfree, ?_, [], Takes.refl V s _ b, ?_⟩
    · unfold Order.tookBy
      rw [Int.sub_self, Int.add_zero]
    · exact (Int.add_zero _).symm

/-- What is executed is what the taker wants, or all that rests within its limit. -/
theorem Underway.amount (h : Underway V s t b₀ q₀ q b) (hl : Takes V s (b₀.core.body t) b₀ b l) (hsum : q₀ = q + traded l)
    (hend : q = 0 ∨ ∀ x, s.rank x ≤ s.rank (b₀.core.body t).priceTicks → ¬ b.core.Rests V s x) :
    traded l = min q₀ (b₀.sideQty V s fun x => decide (s.rank x ≤ s.rank (b₀.core.body t).priceTicks)) := by
  have hside := hl.sum (fun x => decide (s.rank x ≤ s.rank (b₀.core.body t).priceTicks)) fun x hx => decide_eq_true (hl.limit x hx)
  have hq := h.nonneg
  rcases hend with hz | hnone
  · have hpos := h.taking.wf.sideQty_nonneg s fun x => decide (s.rank x ≤ s.rank (b₀.core.body t).priceTicks)
    omega
  · have hzero := h.taking.wf.sideQty_zero
      fun x hx => hnone x (of_decide_eq_true hx)
    omega

/-! ## Where matching starts -/

/-- The order of `r` is in flight in slot `i`, with `q` to match; at rest there is what there was. -/
structure Started (V : Env) (b : Book) (r : Request) (i : Nat) (q : Int) (b₁ : Book) : Prop where
  full : q = r.qty
  pos : 0 < r.qty
  taking : Taking V b₁ i q
  body : ∃ id ts, b₁.core.body i = r.order id ts
  unmoved : Unmoved V b b₁
  summed : b.Summed V → b₁.Summed V
  stpPolicy : b₁.gates.stpPolicy = b.gates.stpPolicy
  clientToFirm : b₁.gates.clientToFirm = b.gates.clientToFirm
  trades : b₁.tape.trades = b.tape.trades

theorem startMatch_started {rq : Request} {x : Int × Book} (hw : Wf V b) (hm : b.startMatch V rq = some (i, ts, x)) :
    Started V b rq i x.1 x.2 := by
  obtain ⟨hpass, b1, hacc, -, rfl, rfl⟩ := startMatch_accepted hm
  obtain ⟨⟨g, a, he, hp, hf⟩, hspec⟩ := admission_spec
  obtain ⟨hq, hid⟩ := hspec hpass
  rw [he] at hacc
  have hsame : SameSlots b { b with gates := g, asked := a } := .of_core rfl rfl
  have hw0 := hw.aside hsame
  have hact : Act V .accept { b with gates := g, asked := a } b1 := .accept rq i hq hid hacc
  have hw1 := hact.wf hw0
  have hsame1 : SameSlots b1 (b1.monoNsNow V).2 := .of_core rfl rfl
  have hi : i ∈ b1.inFlight := by
    rw [accept_inFlight hacc]
    exact List.mem_cons_self
  have hbody : b1.core.body i = rq.order (b.core.newId rq.orderId) (V.clock a) := by
    rw [(Book.accept_eq hw0.links hacc).1.body, update_self]
    rfl
  have hqty : (b1.core.body i).remainingQty = rq.qty := by
    rw [hbody]
    exact Int.sub_zero rq.qty
  have hrest := Book.accept_rest hacc
  have hun := accept_unmoved hw0 hacc
  refine ⟨hqty, hq, ⟨hw1.aside hsame1, hi, Int.le_refl _⟩, ⟨_, _, hbody⟩, ⟨hun.queue, hun.levels, hun.best, hun.body⟩,
    fun hs => ?_, ?_, ?_, hrest.2.2.2.2⟩
  · exact hsame1.summed (hact.summed trivial hw0 (hsame.summed hs))
  · exact (congrArg Gates.stpPolicy hrest.2.2.2.1).trans hp
  · exact (congrArg Gates.clientToFirm hrest.2.2.2.1).trans hf

theorem Unmoved.leftAt (h : Unmoved V b b') (f : Side → Bool) (p : Int) : b'.leftAt V f p = b.leftAt V f p := by
  unfold Book.leftAt
  rw [h.queue]
  exact congrArg List.sum (List.map_congr_left fun j hj => by rw [h.body p j hj])

theorem Unmoved.levelQty (h : Unmoved V b b') (s : Side) (p : Int) : b'.levelQty V s p = b.levelQty V s p := by
  rw [levelQty_eq, levelQty_eq, h.leftAt]

theorem Unmoved.sideQty (h : Unmoved V b b') (hw : Wf V b) (hw' : Wf V b') (s : Side) (P : Int → Bool) :
    b'.sideQty V s P = b.sideQty V s P := by
  rw [hw.sideQty_eq, hw'.sideQty_eq]
  refine Finset.sum_congr rfl fun x _ => ?_
  rw [h.levelQty]

theorem Sweep.looping (h : Sweep V s b) (ht : Taking V b t q) : Looping V t (q, b) :=
  ⟨ht, fun u => (h.bestAt u).onGrid ht.wf⟩

/-- Matching ends. -/
theorem Sweep.ends (h : Sweep V s b) (ht : Taking V b t q) (ts : Nat) : ∃ n c, Book.priceLoop V t ts n q b = some c :=
  loop_ends (h.looping ht) (visible_neverBarren (h.looping ht) h.visible)

end

end HftLab.OrderBook
