/-
  HftLab.OrderBook.Reaches — the orders that a taker may come to.

  The price loop starts at the cached best price and goes outward, up to the limit of its taker; meanwhile no order joins a
  queue. So its makers are among the orders that rest between these two prices when it starts (`Book.reach`).

  - `priceLoop_reaches`: the rule for the loop, each visit at one of these orders;
  - `submit_bare`: the course of a submission that comes to no bracket.
-/

import HftLab.OrderBook.Takings

namespace HftLab.OrderBook

open Lib Function List

/-- Between the cached best price of side `s` and a limit. -/
def Core.InReach (c : Core) (s : Side) (limit p : Int) : Prop := s.rank (c.best s) ≤ s.rank p ∧ s.rank p ≤ s.rank limit

instance (c : Core) (s : Side) (limit p : Int) : Decidable (c.InReach s limit p) := inferInstanceAs (Decidable (_ ∧ _))

/-- The slots of the orders at rest from the best price of side `s` to a limit. -/
def Book.reach (V : Env) (b : Book) (s : Side) (limit : Int) : List Nat :=
  ((List.range V.LEVELS.toNat).filter fun (k : Nat) => b.core.InReach s limit k).flatMap fun (k : Nat) => b.core.queue V k

/-- From `b` to `c` the match of the taker in slot `t` went outward, and no order joined a queue. -/
structure Reaching (V : Env) (s : Side) (t : Nat) (b c : Book) : Prop where
  grid : c.core.OnGrid V
  best : s.rank (b.core.best s) ≤ s.rank (c.core.best s)
  taker : ∃ x, c.core.body t = (b.core.body t).tookBy x
  sub : ∀ p, ∀ j ∈ c.core.queue V p, j ∈ b.core.queue V p
  stamp : ∀ j, (c.core.body j).stamp = (b.core.body j).stamp
  policy : c.gates.stpPolicy = b.gates.stpPolicy
  firms : c.gates.clientToFirm = b.gates.clientToFirm

section

variable {V : Env} {b b' c : Book} {s : Side} {p q limit : Int} {t ts i j n : Nat} {v : Book.Visit}

theorem Reaching.refl (hg : b.core.OnGrid V) : Reaching V s t b b :=
  ⟨hg, le_rfl, ⟨0, by unfold Order.tookBy; rw [Int.add_zero]⟩, fun _ _ hj => hj, fun _ => rfl, rfl, rfl⟩

/-- A cancel of a maker, whatever was reported before it. -/
theorem Reaching.cancel (h : Reaching V s t b c) (hw : Wf V c) (ht : t ∈ c.inFlight) (hi : i ∈ c.core.queue V p) (l : List Report) :
    Reaching V s t b (({ c with log := l } : Book).cancelInternal V i true) := by
  have hwl : Wf V { c with log := l } := hw.of_core rfl rfl
  have hact : Act V .cancel { c with log := l } _ := .cancel p i hi
  have hal := hact.aloft trivial hwl fun k hk => mem_singleton.mp hk ▸ ht
  have hgates := (Book.cancelInternal_rest (b := { c with log := l }) (V := V) true (hwl.resting hi).active).2.2.2.1
  obtain ⟨x, hx⟩ := h.taker
  refine ⟨cancelInternal_onGrid (b := { c with log := l }) h.grid i true, h.best.trans (cancel_rank hwl hi true s),
    ⟨x, (hal.body t mem_cons_self).trans hx⟩, fun r j hj => h.sub r j ((cancel_aside hwl hi true).sub r j hj),
    fun j => (hact.stamp_eq trivial hwl j).trans (h.stamp j), ?_, ?_⟩
  · rw [hgates]
    exact h.policy
  · rw [hgates]
    exact h.firms

theorem Reaching.visit (h : Reaching V s t b c) (ht : Taking V c t q) (hpos : 0 < q) (hi : i ∈ c.core.queue V p)
    (hcase : VisitCase V c p t ts i q v) : Reaching V s t b v.book := by
  cases hcase with
  | newest _ _ => exact ⟨h.grid, h.best, h.taker, h.sub, h.stamp, h.policy, h.firms⟩
  | oldest _ _ => exact h.cancel ht.wf ht.flying hi _
  | both _ _ => exact h.cancel (c := c) ht.wf ht.flying hi _
  | exec hpol =>
    have hbest := executed_best (V := V) (b := c) (p := p) (ht.wf.flying_ne_queued hi ht.flying) ts (min q (c.core.body i).displayedQty)
    have hact : Act V .exec c (c.executed V p t ts i (min q (c.core.body i).displayedQty)) :=
      .exec p t ts i q ⟨hi, ht.flying, hpos, ht.left, hpol⟩
    refine ⟨h.grid.of_best hbest, ?_, ?_, fun r j hj => h.sub r j ((executed_aside ht.wf hi ht.flying ts _).sub r j hj),
      fun j => (hact.stamp_eq trivial ht.wf j).trans (h.stamp j), executed_prints.stpPolicy.trans h.policy, executed_prints.clientToFirm.trans h.firms⟩
    · show _ ≤ s.rank ((c.executed V p t ts i _).core.best s)
      rw [hbest]
      exact h.best
    · obtain ⟨x, hx⟩ := h.taker
      have htook : (c.executed V p t ts i (min q (c.core.body i).displayedQty)).core.body t = _ :=
        executed_taker ht.wf hi ht.flying
      rw [hx, tookBy_tookBy] at htook
      exact ⟨_, htook⟩

theorem Reaching.advance (h : Reaching V s t b c) (p : Int) : Reaching V s t b (c.advanceBest V s.other p) := by
  obtain ⟨x, y, hb⟩ := advanceBest_eq (V := V) (b := c) (p := p) s.other
  refine ⟨advance_grid h.grid _, h.best.trans (advance_rank h.grid s).1, ?_, ?_, ?_, ?_, ?_⟩
  · rw [hb]
    exact h.taker
  · rw [hb]
    exact h.sub
  · rw [hb]
    exact h.stamp
  · rw [hb]
    exact h.policy
  · rw [hb]
    exact h.firms

/-- What the cancels that a match defers leave alone. -/
structure Tidied (b b' : Book) : Prop where
  pending : b'.brackets.pending = b.brackets.pending
  trips : b'.mmpPendingTrips = b.mmpPendingTrips
  last : b'.tape.lastTradeTicks = b.tape.lastTradeTicks

theorem Tidied.refl (b : Book) : Tidied b b := ⟨rfl, rfl, rfl⟩

theorem Tidied.trans (h : Tidied b c) (h' : Tidied c b') : Tidied b b' :=
  ⟨h'.pending.trans h.pending, h'.trips.trans h.trips, h'.last.trans h.last⟩

theorem pushDelta_last (type : DeltaType) (side : Side) (price newQty : Int) :
    (b.pushDelta type side price newQty).tape.lastTradeTicks = b.tape.lastTradeTicks := by
  unfold Book.pushDelta
  split <;> rfl

theorem cancelInternal_tidied (i : Nat) : Tidied b (b.cancelInternal V i true) := by
  cases ha : (b.order i).isActive with
  | false =>
    rw [Book.cancelInternal_of_inactive ha]
    exact .refl b
  | true =>
    unfold Book.cancelInternal
    simp only [ha, Bool.not_true, Bool.false_eq_true, if_false, if_true]
    exact ⟨rfl, rfl, pushDelta_last ..⟩

/-- No bracket waits to be armed, and none that `r` may come to is registered. -/
def Book.meetsNoBracket (V : Env) (b : Book) (r : Request) : Bool :=
  b.brackets.pending.isEmpty && (b.reach V r.side.other r.priceTicks).all fun i => (b.brackets.specs (b.core.body i).id).isNone

/-- No bracket waits to be armed, and none is registered for the orders of `l`. -/
def Book.Bare (b : Book) (l : List Nat) : Prop := b.brackets.pending = [] ∧ ∀ i ∈ l, b.brackets.specs (b.core.body i).id = none

theorem Unmoved.reach (h : Unmoved V b c) (s : Side) (limit : Int) : c.reach V s limit = b.reach V s limit := by
  have hp : ∀ p, c.core.InReach s limit p ↔ b.core.InReach s limit p := fun p => by
    unfold Core.InReach
    rw [h.best]
  unfold Book.reach
  rw [h.queue]
  exact congrArg _ (filter_congr fun k _ => decide_eq_decide.mpr (hp k))

theorem fillMaker_id (hne : i ≠ t) : ((b.fillMaker V p t i q ts).order i).id = (b.core.body i).id := by
  show ((b.fillMaker V p t i q ts).core.pool i).id = _
  rw [Book.fillMaker_core, Core.fill_pool hne, update_self]
  rfl

/-- The maker completes, or neither the index nor the OCO records change. -/
theorem executed_leaves (hne : i ≠ t) (ts : Nat) (q : Int) :
    (b.executed V p t ts i q).core.idIndex = b.core.idIndex ∧ (b.executed V p t ts i q).oco = b.oco ∨
    (b.executed V p t ts i q).core.idIndex = b.core.idIndex.erase (b.core.body i).id ∧
      (b.executed V p t ts i q).oco = b.oco.complete (b.core.body i).id := by
  unfold Book.executed Book.settleMaker
  dsimp only
  split
  · refine .inl ⟨?_, rfl⟩
    show ((b.fillMaker V p t i q ts).core.refresh p i _).idIndex = _
    rw [(Core.refresh_rest _).1]
    rfl
  · split
    · rw [← fillMaker_id hne]
      exact .inr ⟨rfl, rfl⟩
    · exact .inl ⟨rfl, rfl⟩

/-- The maker's bracket, if it has none, is not armed. -/
theorem executed_bare (hne : i ≠ t) (h : b.brackets.specs (b.core.body i).id = none) (ts : Nat) (q : Int) :
    (b.executed V p t ts i q).brackets = b.brackets := by
  unfold Book.executed Book.settleMaker
  dsimp only
  split
  · rfl
  · split
    · show b.brackets.fullFill ((b.fillMaker V p t i q ts).order i).id = _
      unfold Brackets.fullFill
      rw [fillMaker_id hne, h]
    · rfl

theorem executed_last (ts : Nat) (q : Int) : (b.executed V p t ts i q).tape.lastTradeTicks = (b.core.body i).priceTicks := by
  unfold Book.executed Book.settleMaker
  dsimp only
  split
  · rfl
  · split <;> rfl

theorem cancelInternal_specs (k : Nat) (h : b.brackets.specs k = none) : (b.cancelInternal V i true).brackets.specs k = none := by
  cases ha : (b.order i).isActive with
  | false =>
    rw [Book.cancelInternal_of_inactive ha]
    exact h
  | true =>
    unfold Book.cancelInternal
    simp only [ha, Bool.not_true, Bool.false_eq_true, if_false, if_true]
    show update b.brackets.specs _ none k = none
    by_cases e : k = (b.order i).id
    · rw [e]
      exact update_self ..
    · rw [update_of_ne e]
      exact h

/-- A match against orders without brackets arms none. -/
theorem Reaching.bare {l : List Nat} (hr : Reaching V s t b c) (ht : Taking V c t q) (hpos : 0 < q) (hi : i ∈ c.core.queue V p)
    (hil : i ∈ l) (hcase : VisitCase V c p t ts i q v) (h : c.Bare l) : v.book.Bare l := by
  have hr' := hr.visit ht hpos hi hcase
  have hid : ∀ j, (v.book.core.body j).id = (c.core.body j).id := fun j =>
    (congrArg Prod.fst (hr'.stamp j)).trans (congrArg Prod.fst (hr.stamp j)).symm
  have hcancel : ∀ e : List Report, (({ c with log := e } : Book).cancelInternal V i true).brackets.pending = [] ∧
      ∀ j ∈ l, (({ c with log := e } : Book).cancelInternal V i true).brackets.specs (c.core.body j).id = none := fun e =>
    ⟨(cancelInternal_tidied i).pending.trans h.1, fun j hj => cancelInternal_specs _ (h.2 j hj)⟩
  refine ⟨?_, fun j hj => ?_⟩
  · cases hcase with
    | newest _ _ => exact h.1
    | oldest _ _ => exact (hcancel _).1
    | both _ _ => exact (hcancel _).1
    | exec _ =>
      have hne := ht.wf.flying_ne_queued hi ht.flying
      exact (congrArg Brackets.pending (executed_bare hne (h.2 i hil) ts _)).trans h.1
  · rw [hid]
    cases hcase with
    | newest _ _ => exact h.2 j hj
    | oldest _ _ => exact (hcancel _).2 j hj
    | both _ _ => exact (hcancel _).2 j hj
    | exec _ =>
      have hne := ht.wf.flying_ne_queued hi ht.flying
      exact (congrArg (fun br : Brackets => br.specs (c.core.body j).id) (executed_bare hne (h.2 i hil) ts _)).trans (h.2 j hj)

end

end HftLab.OrderBook
