/-
  HftLab.OrderBook.Pegs — whose price `reprice_pegs` changes.

  `peg_orders_` names slots of the pool and is never pruned: a slot stays in the list when its peg was filled or cancelled, and the
  next order that is given the slot is repriced in its place. `PegRun` keeps, beside the book, which slots were last taken by a peg.
  In a run where no other order takes a slot of the list, only pegs are repriced (`repricing_touches_pegs`); the caps hold in
  every run.
-/

import HftLab.OrderBook.Sums

namespace HftLab.OrderBook

open Lib Function List Option

/-- Not beyond the cap of the peg. -/
def Order.WithinCap (o : Order) (price : Int) : Prop :=
  0 < o.pegCapTicks → match o.side with
    | .buy => price ≤ o.pegCapTicks
    | .sell => o.pegCapTicks ≤ price

/-- The slot that a call gives to the order it enters. A cancel/replace frees the slot of the order first. -/
def Book.slotFor (V : Env) (b : Book) : Op → Option Nat
  | .submit _ | .submitPeg .. | .submitPegMid .. => b.core.freeHead
  | .modify id newPrice newQty =>
    match b.core.find id with
    | none => none
    | some i =>
      let o := b.order i
      if newPrice = o.priceTicks ∧ newQty < o.totalQty ∧ o.filledQty < newQty then none
      else ((b.unlinkOco id).cancelInternal V i false).core.freeHead
  | _ => none

def Op.entersPeg : Op → Bool
  | .submitPeg .. | .submitPegMid .. => true
  | _ => false

/-- Order entry and its cancels, pegs among the orders, and the calls that concern no order. -/
def Op.pegTrading : Op → Bool
  | .submit _ | .submitPeg .. | .submitPegMid .. | .cancel _ | .modify .. | .massCancel _ | .repricePegs
  | .linkOco .. | .unlinkOco _ => true
  | op => op.config

/-- A run whose calls meet `P`, and whether the last order to take each slot was a peg. -/
inductive PegRun (V : Env) (P : Book → Op → Prop) : (Nat → Bool) → Book → Prop
  | init : PegRun V P (fun _ => false) (fresh V)
  | call {pegged : Nat → Bool} {b b' : Book} {op : Op} {r : Outcome} : PegRun V P pegged b → op.pegTrading = true → P b op →
      Book.Step V b op r b' → PegRun V P (fun i => if b.slotFor V op = some i then op.entersPeg else pegged i) b'

/-- An order that is not a peg takes no slot of the peg list. -/
def Book.sparesPegs (V : Env) (b : Book) (op : Op) : Bool :=
  op.entersPeg || (b.slotFor V op).all fun i => i ∉ b.core.pegOrders

section

variable {V : Env} {b b' b'' : Book} {K : Kind → Prop} {k : Kind} {i : Nat} {o : Order}
    {S : Nat → Prop} {c : Core} {oid n : Nat} {f : Order → Order} {r : Request} {x : Nat × RejectReason} {pegged : Nat → Bool}

/-! ## One pass of reprice_pegs -/

theorem capPeg_withinCap (o : Order) (x : Int) : o.WithinCap (Book.capPeg o.side o.pegCapTicks x) := by
  intro h
  unfold Book.capPeg
  rw [if_neg (by omega)]
  cases o.side with
  | buy => exact Int.min_le_right ..
  | sell => exact Int.le_max_right ..

theorem pegTarget_withinCap {t : Int} (h : b.pegTarget o = some t) : o.WithinCap t := by
  obtain ⟨p, -, rfl⟩ := map_eq_some_iff.mp h
  exact capPeg_withinCap o _

/-- A slot of the list is left alone, or the order in it moves to its target. -/
theorem repricePeg_cases (ht : Tracked V b i) :
    b.repricePeg V i = b ∨ ∃ p t, i ∈ b.core.queue V p ∧ b.pegTarget (b.order i) = some t ∧ inRange V t ∧
      t ≠ (b.order i).priceTicks ∧ b.repricePeg V i = b.mapCore fun c => (c.reprice V i t).followPeg (b.order i).side t := by
  unfold Book.repricePeg
  dsimp only
  split
  · exact .inl rfl
  · rename_i ha
    have hact : (b.order i).isActive := by simpa using ha
    obtain ⟨p, hp⟩ := ht hact
    split
    · exact .inl rfl
    · rename_i t htarget
      split
      · exact .inl rfl
      · rename_i hr
        obtain ⟨hr, hne⟩ := not_or.mp hr
        exact .inr ⟨p, t, hp, htarget, not_not.mp hr, hne, rfl⟩

/-- The prices aside, nothing is written. -/
theorem Core.followPeg_eq (c : Core) (s : Side) (t : Int) : ∃ x y, c.followPeg s t = { c with bestBid := x, bestAsk := y } := by
  cases s with
  | buy => exact ⟨_, _, rfl⟩
  | sell => exact ⟨_, _, rfl⟩

theorem moved_body (b : Book) (i : Nat) (s : Side) (t : Int) :
    (b.mapCore fun c => (c.reprice V i t).followPeg s t).core.body =
      update b.core.body i { b.core.body i with priceTicks := t } := by
  obtain ⟨x, y, hc⟩ := (b.core.reprice V i t).followPeg_eq s t
  show ((b.core.reprice V i t).followPeg s t).body = _
  rw [hc]
  exact b.core.reprice_body

theorem repricePeg_keeps (hw : Wf V b) (ht : Tracked V b i) :
    Wf V (b.repricePeg V i) ∧ (∀ j, Tracked V b j → Tracked V (b.repricePeg V i) j) ∧
      ∀ j, (b.repricePeg V i).core.Queued V j → b.core.Queued V j := by
  rcases ht.repricePeg with h | ⟨p, hp, q, x, y, hr, h⟩
  · rw [h]
    exact ⟨hw, fun j hj => hj, fun j hj => hj⟩
  · have hact : Act V .reprice b (b.repricePeg V i) := by
      rw [h]
      exact .reprice p i q x y hp hr
    have hacts : Acts V (fun k => k = .reprice) b (b.repricePeg V i) := Acts.one hact rfl
    refine ⟨hact.wf hw, fun j hj => hacts.tracked (by simp) hw hj, fun j hj => ?_⟩
    by_cases e : j = i
    · exact e ▸ ⟨p, hp⟩
    · have hv : (b.repricePeg V i).view V = (b.view V).reprice p q i := hw.reprice_view hp hr (by rw [h]) (by rw [h])
      obtain ⟨r, hjr⟩ := hj
      rw [queue_of_view hv] at hjr
      exact ⟨r, (mem_requeued e).mp hjr⟩

/-- After the pass an order is as before, or it was in a slot of the list and moved to a price within its cap. -/
theorem repriceAll_body (l : List Nat) (hw : Wf V b) (ht : ∀ i ∈ l, Tracked V b i) (j : Nat) :
    (l.foldl (fun b i => b.repricePeg V i) b).core.body j = b.core.body j ∨
      j ∈ l ∧ b.core.Queued V j ∧ ∃ t, (b.core.body j).WithinCap t ∧
        (l.foldl (fun b i => b.repricePeg V i) b).core.body j = { b.core.body j with priceTicks := t } := by
  induction l generalizing b with
  | nil => exact .inl rfl
  | cons i l ih =>
    have hi := ht i mem_cons_self
    obtain ⟨hw1, htr, hq⟩ := repricePeg_keeps hw hi
    have hrest := ih hw1 fun x hx => htr x (ht x (mem_cons_of_mem _ hx))
    rw [foldl_cons]
    have hone : (b.repricePeg V i).core.body j = b.core.body j ∨
        j = i ∧ b.core.Queued V j ∧ ∃ t, (b.core.body j).WithinCap t ∧
          (b.repricePeg V i).core.body j = { b.core.body j with priceTicks := t } := by
      rcases repricePeg_cases hi with h | ⟨p, t, hp, htarget, -, -, h⟩
      · rw [h]
        exact .inl rfl
      · rw [h, moved_body]
        by_cases e : j = i
        · subst e
          exact .inr ⟨rfl, ⟨p, hp⟩, t, pegTarget_withinCap htarget, update_self ..⟩
        · exact .inl (update_of_ne e _ _)
    rcases hone with h1 | ⟨rfl, hqj, t, hcap, h1⟩
    · rcases hrest with h2 | ⟨hj, hqj, t, hcap, h2⟩
      · exact .inl (h2.trans h1)
      · rw [h1] at hcap h2
        exact .inr ⟨mem_cons_of_mem _ hj, hq j hqj, t, hcap, h2⟩
    · refine .inr ⟨mem_cons_self, hqj, ?_⟩
      rcases hrest with h2 | ⟨-, -, t', hcap', h2⟩
      · exact ⟨t, hcap, h2.trans h1⟩
      · rw [h1] at hcap' h2
        exact ⟨t', hcap', h2⟩

/-! ## Who takes a slot -/

/-- Slot `i` holds an order, at rest or in flight. -/
def Book.Holds (V : Env) (b : Book) (i : Nat) : Prop := b.core.Queued V i ∨ i ∈ b.inFlight

/-- No slot of the list comes into use that was not in use, `S` excepted. -/
structure Spares (V : Env) (S : Nat → Prop) (b b' : Book) : Prop where
  holds : ∀ i, b'.Holds V i → b.Holds V i ∨ S i
  pegs : ∀ i, i ∈ b'.core.pegOrders → i ∈ b.core.pegOrders

theorem Spares.refl (b : Book) : Spares V S b b := ⟨fun _ h => .inl h, fun _ h => h⟩

theorem Spares.trans (h : Spares V S b b') (h' : Spares V S b' b'') : Spares V S b b'' := by
  refine ⟨fun i hi => ?_, fun i hi => h.pegs i (h'.pegs i hi)⟩
  rcases h'.holds i hi with hi | hs
  · exact h.holds i hi
  · exact .inr hs

/-- The queues and the orders in flight only lose members. -/
theorem Spares.of_sub (hq : ∀ p, ∀ i ∈ b'.core.queue V p, b.Holds V i) (hx : ∀ i ∈ b'.inFlight, b.Holds V i)
    (hp : b'.core.pegOrders = b.core.pegOrders) : Spares V S b b' := by
  refine ⟨fun i hi => .inl ?_, fun i hi => hp ▸ hi⟩
  rcases hi with ⟨p, hi⟩ | hi
  · exact hq p i hi
  · exact hx i hi

theorem SameSlots.spares (h : SameSlots b b') : Spares V S b b' := by
  refine .of_sub (fun p i hi => ?_) (fun i hi => ?_) h.pegOrders
  · rw [h.queue] at hi
    exact .inl ⟨p, hi⟩
  · rw [h.inFlight] at hi
    exact .inr hi

theorem executed_pegOrders (b : Book) (p q : Int) (t ts i : Nat) :
    (b.executed V p t ts i q).core.pegOrders = b.core.pegOrders := by
  unfold Book.executed Book.settleMaker
  dsimp only
  split
  · exact (Core.refresh_rest _).2.2
  · split
    · rfl
    · rfl

/-- What the matching engine, the cancels and the configuration do. -/
def sparingKinds : Kind → Prop
  | .aux | .config | .note | .exec | .cancel | .replace | .unwait | .oco | .reduce | .reprice => True
  | _ => False

/-- None of these acts brings an order into a slot. -/
theorem Act.spares (h : Act V k b b') (hk : sparingKinds k) (hw : Wf V b) : Spares V S b b' := by
  have hleave : ∀ {p : Int} {i : Nat} {s : OrderStatus}, i ∈ b.core.queue V p → b'.core = b.core.leave V i s →
      b'.inFlight = b.inFlight → Spares V S b b' := by
    intro p i s hi hc hx
    refine .of_sub (fun r j hj => ?_) (fun j hj => .inr (hx ▸ hj)) ?_
    · rw [queue_of_view (hw.leave_view hi hc hx)] at hj
      by_cases e : j = i
      · exact .inl ⟨p, e ▸ hi⟩
      · exact .inl ⟨r, (mem_update_erase e).mp hj⟩
    · rw [hc]
      exact b.core.leave_rest.2.2
  cases h with
  | aux hs _ _ _ => exact hs.spares
  | config hs _ _ _ _ _ => exact hs.spares
  | stpAbort => exact SameSlots.spares (.of_core rfl rfl)
  | stpCancel => exact SameSlots.spares (.of_core rfl rfl)
  | exec p t ts i qty hm =>
    obtain ⟨o, l, hexec, hq, -⟩ := hw.executed_cases hm.queued hm.flying ts (min qty (b.core.body i).displayedQty)
    refine .of_sub (fun r j hj => ?_) (fun j hj => .inr ?_) (executed_pegOrders ..)
    · rw [hq] at hj
      by_cases e : r = p
      · subst e
        rw [update_self] at hj
        exact .inl ⟨r, hexec.sub hm.queued hj⟩
      · rw [update_of_ne e] at hj
        exact .inl ⟨r, hj⟩
    · have hx : (b.executed V p t ts i (min qty (b.core.body i).displayedQty)).inFlight = b.inFlight := Book.settleMaker_inFlight
      exact hx ▸ hj
  | cancel p i hi => exact hleave hi (Book.cancelInternal_core (hw.resting hi).active) Book.cancelInternal_inFlight
  | replace p i hi => exact hleave hi (Book.cancelInternal_core (hw.resting hi).active) Book.cancelInternal_inFlight
  | unwait i hi =>
    obtain ⟨k, -, hv⟩ := hw.cancelPendingStop_view hi
    refine .of_sub (fun r j hj => ?_) (fun j hj => .inr ?_) ?_
    · rw [queue_of_view hv] at hj
      exact .inl ⟨r, hj⟩
    · exact Book.cancelPendingStop_inFlight ▸ hj
    · unfold Book.cancelPendingStop
      split
      · rfl
      · rfl
  | oco o _ => exact SameSlots.spares (.of_core rfl rfl)
  | reduce p id i q hi hf _ hq =>
    refine .of_sub (fun r j hj => ?_) (fun j hj => .inr hj) rfl
    rw [queue_of_view (hw.reduceInPlace_view id q)] at hj
    exact .inl ⟨r, hj⟩
  | reprice p i q x y hi hr =>
    have hv : ({ b with core := { b.core.reprice V i q with bestBid := x, bestAsk := y } } : Book).view V =
        (b.view V).reprice p q i := hw.reprice_view hi hr rfl rfl
    have hpegs : (b.core.reprice V i q).pegOrders = b.core.pegOrders := b.core.reprice_rest.2.2
    refine .of_sub (fun r j hj => ?_) (fun j hj => .inr hj) hpegs
    rw [queue_of_view hv] at hj
    by_cases e : j = i
    · exact .inl ⟨p, e ▸ hi⟩
    · exact .inl ⟨r, (mem_requeued e).mp hj⟩
  | _ => cases hk

theorem Acts.spares (h : Acts V K b b') (hK : ∀ k, K k → sparingKinds k) (hw : Wf V b) : Spares V S b b' := by
  have hboth : Wf V b' ∧ Spares V S b b' := by
    apply h.keeps
    · exact ⟨hw, Spares.refl b⟩
    · intro k c c' hk ha hc
      exact ⟨ha.wf hc.1, hc.2.trans (ha.spares (hK k hk) hc.1)⟩
  exact hboth.2

theorem sparing_of_tidy (k : Kind) (h : tidyKinds k) : sparingKinds k := by
  cases k <;> trivial

theorem sparing_of_after (k : Kind) (h : afterKinds False k) : sparingKinds k := by
  cases k <;> trivial

/-! ## One call -/

theorem allocAs_freeHead {c' : Core} (h : c.allocAs oid f = some (i, c')) : c.freeHead = some i := by
  unfold Core.allocAs Core.allocOrder at h
  cases hf : c.freeHead with
  | none =>
    rw [hf] at h
    cases h
  | some j =>
    rw [hf] at h
    cases h
    rfl

theorem accept_freeHead (h : b.accept V r = some (i, b')) : b.core.freeHead = some i := by
  unfold Book.accept at h
  dsimp only at h
  split at h
  · cases h
  · rename_i j c ha
    cases h
    exact allocAs_freeHead ha

theorem Regated.core_eq (h : Regated b b') : b'.core = b.core := by
  obtain ⟨g, a, rfl, -, -⟩ := h
  rfl

/-- The order in flight comes to rest, or leaves. -/
theorem finish_spares (hw : Wf V b) (hi : i ∈ b.inFlight) (h : b.finish V i = some b') : Spares V S b b' := by
  unfold Book.finish at h
  dsimp only at h
  have hdrop : ∀ {s : OrderStatus} {c : Book}, c.core = (b.core.setStatus i s).freeOrder i → c.inFlight = b.inFlight.erase i →
      Spares V S b c := by
    intro s c hc hx
    refine .of_sub (fun p j hj => ?_) (fun j hj => .inr ?_) (by rw [hc]; rfl)
    · rw [queue_of_view (hw.drop_view hi hc hx)] at hj
      exact .inl ⟨p, hj⟩
    · rw [hx] at hj
      exact mem_of_mem_erase hj
  split at h
  · cases h
    exact hdrop rfl rfl
  · split at h
    · cases h
      exact hdrop rfl rfl
    · split at h
      · rename_i hr
        cases h
        have hv := hw.restOrder_view hi hr
        refine .of_sub (fun p j hj => ?_) (fun j hj => .inr ?_) ?_
        · rw [queue_of_view hv] at hj
          by_cases e : j = i
          · exact .inr (e ▸ hi)
          · exact .inl ⟨p, (mem_update_push e).mp hj⟩
        · rw [Book.restOrder_inFlight] at hj
          exact mem_of_mem_erase hj
        · obtain ⟨x, y, hc⟩ := Book.restOrder_core
          rw [hc]
          rfl
      · cases h

/-- The order takes the slot at the head of the free list, and no other slot is taken. -/
theorem submit_spares (hw : Wf V b) (hb : b.NoBracket) (h : Book.submit V n r b = some (x, b')) :
    Spares V (fun i => b.core.freeHead = some i) b b' ∧ Wf V b' ∧ b'.NoBracket := by
  have hdoes : Does V (submitKinds False) b b' := submit_does n r b x b' hw (.inr hb) h
  refine ⟨?_, hdoes.wf hw, hdoes.acts.noBracket not_bracket_submit hb⟩
  have hcore : (b.admission V r).2.core = b.core := admission_spec.1.core_eq
  have hgate : Does V sparingKinds b (b.admission V r).2 := admission_does trivial
  rcases submit_cases (N := False) hw (.inr hb) h with ⟨reason, -, rfl, -⟩ | ⟨i, b1, b2, n', -, hcourse, -⟩
  · exact (hgate.trans (reject_does reason trivial)).acts.spares (fun k hk => hk) hw
  · have hw0 := hgate.wf hw
    have ha := hcourse.accepted
    have hw1 : Wf V b1 := (admitted_act hcourse.passed ha).wf hw0
    have hfree : b.core.freeHead = some i := hcore ▸ accept_freeHead ha
    have hfirst : Spares V (fun j => b.core.freeHead = some j) (b.admission V r).2 b1 := by
      have hv := hw0.accept_view ha
      refine ⟨fun j hj => ?_, fun j hj => ?_⟩
      · rcases hj with ⟨p, hj⟩ | hj
        · rw [queue_of_view hv] at hj
          exact .inl (.inl ⟨p, hj⟩)
        · rw [accept_inFlight ha] at hj
          rcases mem_cons.mp hj with rfl | hj
          · exact .inr hfree
          · exact .inl (.inr hj)
      · rw [(Book.accept_eq hw0.links ha).1.rest] at hj
        exact hj
    have hmatch : Spares V (fun j => b.core.freeHead = some j) b1 b2 := hcourse.matched.acts.spares sparing_of_after hw1
    have hw2 := hcourse.matched.wf hw1
    have hi : i ∈ b2.inFlight := by
      rw [hcourse.matched.inFlight, accept_inFlight ha]
      exact mem_cons_self
    exact (((hgate.acts.spares (fun k hk => hk) hw).trans hfirst).trans hmatch).trans (finish_spares hw2 hi hcourse.finished)

/-- A peg takes the slot at the head of the free list, which joins the peg list. -/
theorem Pegs.grows (h : Pegs V oid i f c b b') (hw : Wf V b) :
    (∀ j, b'.Holds V j → b.Holds V j ∨ b.core.freeHead = some j) ∧
      ∀ j ∈ b'.core.pegOrders, j ∈ b.core.pegOrders ∨ b.core.freeHead = some j := by
  have hfree := allocAs_freeHead h.alloc
  obtain ⟨x, y, hc⟩ := h.core
  have hv := hw.peg_view h.alloc h.grid hc h.inFlight
  refine ⟨fun j hj => ?_, fun j hj => ?_⟩
  · rcases hj with ⟨p, hj⟩ | hj
    · by_cases e : j = i
      · exact .inr (e ▸ hfree)
      · rw [queue_of_view hv] at hj
        exact .inl (.inl ⟨p, (mem_update_push e).mp hj⟩)
    · rw [h.inFlight] at hj
      exact .inl (.inr hj)
  · have hc' : c.pegOrders = b.core.pegOrders := by
      rw [(hw.links.allocAs h.alloc).rest]
    rw [hc] at hj
    rcases mem_append.mp hj with hj | hj
    · exact .inl (hc' ▸ hj)
    · exact .inr (mem_singleton.mp hj ▸ hfree)

/-- A cancel/replace takes the slot at the head of the free list after the cancel. -/
theorem cancelReplace_spares {id : Nat} {newPrice newQty : Int} (hw : Wf V b) (hb : b.NoBracket) (hf : b.core.find id = some i)
    (h : b.cancelReplace V n id i newPrice newQty = some (x, b')) :
    Spares V (fun j => ((b.unlinkOco id).cancelInternal V i false).core.freeHead = some j) b b' ∧ b'.NoBracket := by
  obtain ⟨b2, hs, hre⟩ := cancelReplace_cases h
  have h1 : Does V sparingKinds b ((b.unlinkOco id).cancelInternal V i false) := takeOut_does trivial trivial hw hf
  have hw1 := h1.wf hw
  obtain ⟨hsub, hw2, hb2⟩ := submit_spares hw1 (h1.acts.noBracket (fun hk => hk) hb) hs
  have h3 := relinkOco_does (b.oco.partner id) x.1 hw2
  have hspec : (b.brackets.specs id).map (fun (s : BracketSpec) => { s with qty := newQty }) = none := by
    rw [hb.2 id]
    rfl
  rw [hspec] at hre
  cases hre
  exact ⟨((h1.acts.spares (fun k hk => hk) hw).trans hsub).trans (h3.acts.spares sparing_of_tidy hw2),
    h3.acts.noBracket (fun hk => hk) hb2⟩

/-- What a call does to the slots in use and to the peg list. -/
structure Grows (V : Env) (op : Op) (b b' : Book) : Prop where
  holds : ∀ i, b'.Holds V i → b.Holds V i ∨ b.slotFor V op = some i
  pegs : ∀ i ∈ b'.core.pegOrders, i ∈ b.core.pegOrders ∨ op.entersPeg = true ∧ b.slotFor V op = some i
  noBracket : b'.NoBracket

theorem Spares.grows {op : Op} (h : Spares V (fun i => b.slotFor V op = some i) b b') (hb : b'.NoBracket) : Grows V op b b' :=
  ⟨h.holds, fun i hi => .inl (h.pegs i hi), hb⟩

theorem Does.grows {op : Op} (h : Does V K b b') (hK : ∀ k, K k → sparingKinds k) (hw : Wf V b) (hb : b.NoBracket) :
    Grows V op b b' :=
  (h.acts.spares hK hw).grows (h.acts.noBracket (fun hk => hK _ hk) hb)

theorem exec_grows {op : Op} {r : Outcome} (hop : op.pegTrading) (hw : Wf V b) (hb : b.NoBracket)
    (h : Book.exec V n op b = some (r, b')) : Grows V op b b' := by
  have hsame : Grows V op b b := (Spares.refl b).grows hb
  have hconfig : op.config → Grows V op b b' := by
    intro hc
    rcases exec_config hc h with rfl | ha
    · exact hsame
    · have hd : Acts V sparingKinds b b' := Acts.one ha trivial
      exact (hd.spares (fun k hk => hk) hw).grows (hd.noBracket (fun hk => hk) hb)
  have hpeg : ∀ {oid i : Nat} {f : Order → Order} {c : Core}, op.entersPeg → b.slotFor V op = b.core.freeHead →
      Pegs V oid i f c b b' → Grows V op b b' := by
    intro oid i f c he ht hp
    obtain ⟨hh, hl⟩ := hp.grows hw
    rw [← ht] at hh hl
    exact ⟨hh, fun j hj => (hl j hj).imp_right fun h => ⟨he, h⟩, hp.noBracket hb⟩
  cases op with
  | submit r =>
    obtain ⟨y, hs, hy⟩ := map_eq_some_iff.mp h
    cases hy
    obtain ⟨h1, -, h3⟩ := submit_spares hw hb hs
    exact h1.grows h3
  | submitPeg s o q oid cid cap =>
    cases h
    rcases submitPeg_cases s o q oid cid cap with e | ⟨i, f, c, hp⟩
    · rw [e]
      exact hsame
    · exact hpeg rfl rfl hp
  | submitPegMid s o q oid cid cap =>
    cases h
    rcases submitPegMid_cases s o q oid cid cap with e | ⟨i, f, c, hp⟩
    · rw [e]
      exact hsame
    · exact hpeg rfl rfl hp
  | cancel id =>
    cases h
    exact (cancel_does id hw).grows sparing_of_tidy hw hb
  | massCancel cid =>
    cases h
    exact (massCancel_does cid hw).grows sparing_of_tidy hw hb
  | repricePegs =>
    cases h
    have hd : Does V sparingKinds b (b.repricePegs V) := repricePegs_does trivial hw
    exact hd.grows (fun k hk => hk) hw hb
  | linkOco x y =>
    cases h
    have hd : Does V sparingKinds b (b.linkOco x y).2 := linkOco_does x y trivial
    exact hd.grows (fun k hk => hk) hw hb
  | unlinkOco x =>
    cases h
    have hd : Does V sparingKinds b (b.unlinkOco x) := unlinkOco_does x trivial
    exact hd.grows (fun k hk => hk) hw hb
  | modify id p q =>
    obtain ⟨y, hs, hy⟩ := map_eq_some_iff.mp h
    cases hy
    rcases modify_cases hs with ⟨-, -, he⟩ | ⟨i, hf, ⟨-, -, he⟩ | ⟨hno, hcr⟩⟩
    · rw [he]
      exact hsame
    · rw [he]
      refine ⟨fun j hj => .inl ?_, fun j hj => .inl hj, ?_⟩
      · rcases hj with ⟨r, hj⟩ | hj
        · rw [queue_of_view (hw.reduceInPlace_view id q)] at hj
          exact .inl ⟨r, hj⟩
        · exact .inr hj
      · exact hb.congr (reduceInPlace_brackets hb)
    · obtain ⟨h1, h2⟩ := cancelReplace_spares hw hb hf hcr
      have ht : b.slotFor V (.modify id p q) = ((b.unlinkOco id).cancelInternal V i false).core.freeHead := by
        simp only [Book.slotFor, hf]
        exact if_neg hno
      exact ⟨fun j hj => ht ▸ h1.holds j hj, fun j hj => .inl (h1.pegs j hj), h2⟩
  | _ => exact hconfig hop

/-! ## Runs -/

theorem PegRun.sound {P : Book → Op → Prop} (h : PegRun V P pegged b) : Wf V b ∧ b.inFlight = [] ∧ b.NoBracket := by
  induction h with
  | init => exact ⟨fresh_wf V, rfl, rfl, fun _ => rfl⟩
  | call _ hop _ hs ih =>
    obtain ⟨n, he⟩ := hs
    obtain ⟨hw, hx, hb⟩ := ih
    have hd := exec_does hw he
    exact ⟨hd.wf hw, hd.inFlight.trans hx, (exec_grows hop hw hb he).noBracket⟩

/-- Where no other order takes a slot of the list, every order in one is a peg. -/
theorem PegRun.listed {P : Book → Op → Prop} (h : PegRun V P pegged b) (hP : ∀ b op, P b op → b.sparesPegs V op) :
    ∀ i ∈ b.core.pegOrders, b.Holds V i → pegged i := by
  induction h with
  | init =>
    intro i hi
    cases hi
  | @call pegged b b' op r hr hop hp hs ih =>
    obtain ⟨n, he⟩ := hs
    obtain ⟨hw, -, hb⟩ := hr.sound
    have hg := exec_grows hop hw hb he
    intro i hi hh
    dsimp only
    by_cases e : b.slotFor V op = some i
    · rw [if_pos e]
      rcases hg.pegs i hi with hi | ⟨hpeg, -⟩
      · rcases Bool.or_eq_true_iff.mp (hP b op hp) with hpeg | hn
        · exact hpeg
        · rw [e, all_some] at hn
          exact absurd hi (of_decide_eq_true hn)
      · exact hpeg
    · rw [if_neg e]
      rcases hg.pegs i hi with hi | ⟨-, e'⟩
      · rcases hg.holds i hh with hh | e'
        · exact ih i hi hh
        · exact absurd e' e
      · exact absurd e' e

end

/-- In every run, `reprice_pegs` moves no order beyond its cap; where no other order takes a slot of the peg list, it changes the
price of an order only if that order was entered as a peg. -/
theorem repricing_touches_pegs {V : Env} {P : Book → Op → Prop} {pegged : Nat → Bool} {b : Book} (h : PegRun V P pegged b) (i : Nat)
    (hmoved : ((b.repricePegs V).core.body i).priceTicks ≠ (b.core.body i).priceTicks) :
    b.core.Queued V i ∧ (b.core.body i).WithinCap ((b.repricePegs V).core.body i).priceTicks ∧
      ((∀ b op, P b op → b.sparesPegs V op = true) → pegged i = true) := by
  obtain ⟨hw, -, -⟩ := h.sound
  rcases repriceAll_body b.core.pegOrders hw hw.pegs i with e | ⟨hi, hq, t, hcap, e⟩
  · exact absurd (congrArg Order.priceTicks e) hmoved
  · have hprice : ((b.repricePegs V).core.body i).priceTicks = t := congrArg Order.priceTicks e
    exact ⟨hq, hprice ▸ hcap, fun hP => h.listed hP i hi (Or.inl hq)⟩

/-- The calls `ops` with fuel `n` each, as long as `chk` accepts them. -/
def Book.pegRun (V : Env) (n : Nat) (chk : Book → Op → Bool) : List Op → (Nat → Bool) → Book → Option ((Nat → Bool) × Book)
  | [], pegged, b => some (pegged, b)
  | op :: ops, pegged, b =>
    match Book.exec V n op b with
    | none => none
    | some (_, b') =>
      if op.pegTrading && chk b op then
        Book.pegRun V n chk ops (fun i => if b.slotFor V op = some i then op.entersPeg else pegged i) b'
      else none

theorem PegRun.run {V : Env} {P : Book → Op → Prop} {n : Nat} {chk : Book → Op → Bool} (hP : ∀ b op, chk b op → P b op)
    (ops : List Op) {pegged pegged' : Nat → Bool} {b b' : Book} (h : PegRun V P pegged b)
    (hr : Book.pegRun V n chk ops pegged b = some (pegged', b')) : PegRun V P pegged' b' := by
  induction ops generalizing pegged b with
  | nil =>
    cases hr
    exact h
  | cons op ops ih =>
    unfold Book.pegRun at hr
    split at hr
    · cases hr
    · rename_i r b1 he
      split at hr
      · rename_i hc
        obtain ⟨h1, h2⟩ := Bool.and_eq_true_iff.mp hc
        exact ih (.call h h1 (hP b op h2) ⟨n, he⟩) hr
      · cases hr

/-- A peg under a BUY order, which is then topped by another. -/
def samplePeg : List Op :=
  [.submit { side := .buy, priceTicks := 3, qty := 3 },
   .submitPeg .buy 0 3 0 0 4,
   .submit { side := .buy, priceTicks := 5, qty := 3 }]

theorem repricing_touches_pegs_sample : ∃ pegged b, PegRun smallEnv (fun b op => b.sparesPegs smallEnv op = true) pegged b ∧
    ((b.repricePegs smallEnv).core.body 1).priceTicks = 4 ∧ (b.core.body 1).priceTicks = 3 ∧ pegged 1 = true ∧
    (b.core.body 1).WithinCap 4 := by
  obtain ⟨⟨pegged, b⟩, hr⟩ : ∃ x, Book.pegRun smallEnv 20 (fun b op => b.sparesPegs smallEnv op) samplePeg (fun _ => false)
      (fresh smallEnv) = some x := Option.isSome_iff_exists.mp (by decide +kernel)
  have h : PegRun smallEnv (fun b op => b.sparesPegs smallEnv op = true) pegged b := PegRun.run (fun _ _ h => h) samplePeg .init hr
  have hval : (Book.pegRun smallEnv 20 (fun b op => b.sparesPegs smallEnv op) samplePeg (fun _ => false) (fresh smallEnv)).all
      (fun x => ((x.2.repricePegs smallEnv).core.body 1).priceTicks = 4 ∧ (x.2.core.body 1).priceTicks = 3) = true := by
    decide +kernel
  rw [hr, Option.all_some, decide_eq_true_eq] at hval
  obtain ⟨h4, h3⟩ := hval
  obtain ⟨-, hcap, hpeg⟩ := repricing_touches_pegs h 1 (by rw [h4, h3]; decide)
  exact ⟨pegged, b, h, h4, h3, hpeg fun _ _ h => h, h4 ▸ hcap⟩

/-- A peg is cancelled, and a BUY order at 3 is given its slot; another rests at 5. -/
def sampleReuse : List Op :=
  [.submitPeg .buy 0 3 0 0 0,
   .cancel 1,
   .submit { side := .buy, priceTicks := 3, qty := 3 },
   .submit { side := .buy, priceTicks := 5, qty := 3 }]

/-- The order at 3 is moved to 5, in the place of the peg. -/
theorem reprice_moves_limit_order : ∃ pegged b, PegRun smallEnv (fun _ _ => True) pegged b ∧ b.core.Queued smallEnv 0 ∧
    (b.core.body 0).type = .limit ∧ (b.core.body 0).priceTicks = 3 ∧ ((b.repricePegs smallEnv).core.body 0).priceTicks = 5 ∧
    pegged 0 = false := by
  obtain ⟨⟨pegged, b⟩, hr⟩ : ∃ x, Book.pegRun smallEnv 20 (fun _ _ => true) sampleReuse (fun _ => false) (fresh smallEnv) = some x :=
    Option.isSome_iff_exists.mp (by decide +kernel)
  have h : PegRun smallEnv (fun _ _ => True) pegged b := PegRun.run (fun _ _ _ => trivial) sampleReuse .init hr
  have hval : (Book.pegRun smallEnv 20 (fun _ _ => true) sampleReuse (fun _ => false) (fresh smallEnv)).all (fun x =>
      0 ∈ x.2.core.queue smallEnv 3 ∧ (x.2.core.body 0).type = .limit ∧ (x.2.core.body 0).priceTicks = 3 ∧
      ((x.2.repricePegs smallEnv).core.body 0).priceTicks = 5 ∧ x.1 0 = false) = true := by decide +kernel
  rw [hr, Option.all_some, decide_eq_true_eq] at hval
  obtain ⟨hq, hrest⟩ := hval
  exact ⟨pegged, b, h, ⟨3, hq⟩, hrest⟩

end HftLab.OrderBook
