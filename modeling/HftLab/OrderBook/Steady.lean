/-
  HftLab.OrderBook.Steady — order entry in continuous trading, move by move.

  An act (HftLab.OrderBook.Acts) leaves the streams open: it does not say what was emitted. `Move`
  does: each move is one function of the source applied to the book. Submitting, cancelling and
  modifying in continuous trading are sequences of moves (`exec_flow`), so what the feeds say of a
  run is proved move by move (`Reach.moved`).
-/

import HftLab.OrderBook.Sweep

namespace HftLab.OrderBook

open Lib Function

def Order.kind (o : Order) : OrderType × TimeInForce := (o.type, o.tif)

def Request.kind (r : Request) : OrderType × TimeInForce := (r.type, r.tif)

/-- One move of a book whose requests are of the kinds `T` allows. -/
inductive Move (V : Env) (T : OrderType × TimeInForce → Prop) : Book → Book → Prop
  | stpAbort {b : Book} (taker maker : Order) : Move V T b (b.note (.stpAbort taker maker))
  | stpCancel {b : Book} (taker maker : Order) : Move V T b (b.note (.stpCancel taker maker b.core))
  | gates {b : Book} (g : Gates) (a : Nat) : Move V T b { b with gates := g, asked := a }
  | best {b : Book} (x y : Int) : Move V T b { b with core := { b.core with bestBid := x, bestAsk := y } }
  | reject {b : Book} (r : Request) (reason : RejectReason) : Move V T b (b.reject r reason)
  | accept {b b' : Book} (r : Request) (i : Nat) : T r.kind → 0 < r.qty → (r.orderId ≠ 0 → b.core.find r.orderId = none) →
      b.accept V r = some (i, b') → Move V T b b'
  | exec {b : Book} (p : Int) (t ts i : Nat) (qty : Int) : Meets V b p t i qty →
      Move V T b (b.executed V p t ts i (min qty (b.core.body i).displayedQty))
  | cancel {b : Book} (p : Int) (i : Nat) (e : Bool) : i ∈ b.core.queue V p → Move V T b (b.cancelInternal V i e)
  | finishFilled {b : Book} (i : Nat) : i ∈ b.inFlight → (b.core.body i).totalQty ≤ (b.core.body i).filledQty →
      Move V T b (b.finishFilled i)
  | finishIoc {b : Book} (i : Nat) : i ∈ b.inFlight → (b.core.body i).filledQty < (b.core.body i).totalQty →
      Move V T b (b.finishIoc i)
  | rest {b : Book} (i : Nat) : i ∈ b.inFlight → (b.core.body i).filledQty < (b.core.body i).totalQty →
      inRange V (b.core.body i).priceTicks → Move V T b (b.restOrder i)
  | reduce {b : Book} (p : Int) (id i : Nat) (q : Int) : i ∈ b.core.queue V p → b.core.find id = some i →
      q < (b.core.body i).totalQty → (b.core.body i).filledQty < q → Move V T b (b.reduceInPlace id i q)

def Flow (V : Env) (T : OrderType × TimeInForce → Prop) : Book → Book → Prop := Relation.ReflTransGen (Move V T)

section

variable {V : Env} {T : OrderType × TimeInForce → Prop} {b b' b'' : Book} {p qty : Int} {t ts i : Nat} {r : Request}
    {I : Book → Prop} {n : Nat}

theorem Flow.refl (b : Book) : Flow V T b b := Relation.ReflTransGen.refl

theorem Flow.one (h : Move V T b b') : Flow V T b b' := Relation.ReflTransGen.single h

theorem Flow.trans (h : Flow V T b b') (h' : Flow V T b' b'') : Flow V T b b'' := Relation.ReflTransGen.trans h h'

/-- A move is an act, or changes gates only. -/
theorem Move.wf (h : Move V T b b') (hw : Wf V b) : Wf V b' := by
  cases h with
  | stpAbort taker maker => exact (Act.stpAbort taker maker).wf hw
  | stpCancel taker maker => exact (Act.stpCancel taker maker).wf hw
  | gates g a =>
    have ha : Act V .config b { b with gates := g, asked := a } :=
      .config (.of_core rfl rfl) rfl rfl rfl rfl id
    exact ha.wf hw
  | best x y => exact (best_act x y).wf hw
  | reject r reason =>
    have ha : Act V .config b (b.reject r reason) :=
      .config (.of_core rfl rfl) rfl rfl rfl rfl id
    exact ha.wf hw
  | accept r i _ hq hid ha => exact (Act.accept r i hq hid ha).wf hw
  | exec p t ts i qty hm => exact (Act.exec p t ts i qty hm).wf hw
  | cancel p i e hi =>
    cases e with
    | true => exact (Act.cancel p i hi).wf hw
    | false => exact (Act.replace p i hi).wf hw
  | finishFilled i hi hd => exact (Act.finishFilled i hi hd).wf hw
  | finishIoc i hi hlt => exact (Act.finishIoc i hi hlt).wf hw
  | rest i hi hlt hr => exact (Act.rest i hi hlt hr).wf hw
  | reduce p id i q hi hf h1 h2 => exact (Act.reduce p id i q hi hf h1 h2).wf hw

theorem Flow.wf (h : Flow V T b b') (hw : Wf V b) : Wf V b' := by
  induction h with
  | refl => exact hw
  | tail _ hm ih => exact hm.wf ih

/-- The induction rule: what every move keeps, a sequence of moves keeps. -/
theorem Flow.keeps (h : Flow V T b b') (hw : Wf V b) (hI : I b) (hmove : ∀ {b b'}, Wf V b → Move V T b b' → I b → I b') : I b' := by
  suffices hs : Wf V b' ∧ I b' from hs.2
  induction h with
  | refl => exact ⟨hw, hI⟩
  | tail _ hm ih => exact ⟨hm.wf ih.1, hmove ih.1 hm ih.2⟩

/-! ## Matching is moves -/

/-- A pass of the FIFO loop. -/
theorem visit_flow {v : Book.Visit} (h : Taking V b t qty) (hpos : 0 < qty) (hi : i ∈ b.core.queue V p)
    (hcase : VisitCase V b p t ts i qty v) : Flow V T b v.book := by
  cases hcase with
  | newest => exact Flow.one (.stpAbort _ _)
  | both =>
    refine (Flow.one (.stpCancel _ _)).trans ((Flow.one (.stpAbort _ _)).trans (Flow.one (.cancel p i true ?_)))
    exact hi
  | oldest =>
    refine (Flow.one (.stpCancel _ _)).trans (Flow.one (.cancel p i true ?_))
    exact hi
  | exec hp => exact Flow.one (.exec p t ts i qty ⟨hi, h.flying, hpos, h.left, hp⟩)

theorem priceLoop_flow (h : Taking V b t qty) (hm : Book.priceLoop V t ts n qty b = some b') : Flow V T b b' := by
  obtain ⟨-, hflow⟩ := priceLoop_passes (I := fun _ b1 => Flow V T b b1)
    (fun ht hb hpos hi hcase => hb.trans (visit_flow ht hpos hi hcase)) (fun x y hb => hb.trans (Flow.one (.best x y)))
    h (Flow.refl b) hm
  exact hflow

theorem matchAgainst_flow (hw : Wf V b) (hi : i ∈ b.inFlight) (hm : b.matchAgainst V n i = some b') : Flow V T b b' := by
  have h0 : Move V T b { b with asked := b.asked + 1 } := .gates b.gates (b.asked + 1)
  refine (Flow.one h0).trans (priceLoop_flow ⟨h0.wf hw, hi, le_rfl⟩ hm)

theorem matchEntry_inFlight (hw : Wf V b) (hi : i ∈ b.inFlight) (hm : b.matchEntry V n r i = some b') :
    b'.inFlight = b.inFlight := by
  unfold Book.matchEntry at hm
  split at hm
  · exact (matchAgainst_does hw hi hm).inFlight
  · cases hm
    rfl

theorem matchEntry_flow (hw : Wf V b) (hi : i ∈ b.inFlight) (hm : b.matchEntry V n r i = some b') :
    Flow V T b b' ∧ i ∈ b'.inFlight := by
  have hflow : Flow V T b b' := by
    unfold Book.matchEntry at hm
    split at hm
    · exact matchAgainst_flow hw hi hm
    · cases hm
      exact Flow.refl b
  refine ⟨hflow, ?_⟩
  rw [matchEntry_inFlight hw hi hm]
  exact hi

theorem finish_flow (hi : i ∈ b.inFlight) (h : b.finish V i = some b') : Flow V T b b' := by
  unfold Book.finish at h
  dsimp only at h
  split at h
  · rename_i hd
    cases h
    exact Flow.one (.finishFilled i hi hd)
  · rename_i hd
    have hlt : (b.core.body i).filledQty < (b.core.body i).totalQty := by
      have : ¬ (b.core.body i).totalQty ≤ (b.core.body i).filledQty := hd
      omega
    split at h
    · cases h
      exact Flow.one (.finishIoc i hi hlt)
    · split at h
      · rename_i hr
        cases h
        exact Flow.one (.rest i hi hlt hr)
      · cases h

theorem submit_flow {x : Nat × RejectReason} (hw : Wf V b) (hc : b.Continuous) (hT : T r.kind)
    (h : Book.submit V n r b = some (x, b')) : Flow V T b b' := by
  rcases submit_entered hc h with ⟨reason, -, rfl, -⟩ | ⟨m, i, b1, b2, -, he⟩
  · exact Flow.one (.reject r reason)
  · obtain ⟨hq, hid, -⟩ := screen_none he.passed
    have h1 : Flow V T b b1 := Flow.one (.accept r i hT hq hid he.accepted)
    obtain ⟨h2, hi⟩ := matchEntry_flow (h1.wf hw) he.flying he.matched
    exact (h1.trans h2).trans (finish_flow hi he.finished)

/-! ## Every order is of an allowed kind -/

structure Book.Typed (V : Env) (T : OrderType × TimeInForce → Prop) (b : Book) : Prop where
  queued : ∀ p, ∀ i ∈ b.core.queue V p, T (b.core.body i).kind
  flying : ∀ i ∈ b.inFlight, T (b.core.body i).kind

/-- No slot that stays changes its kind, and none starts to be used. -/
theorem Book.Typed.sub (h : b.Typed V T) (hq : ∀ p, ∀ i ∈ b'.core.queue V p, b.core.Queued V i ∨ i ∈ b.inFlight)
    (hx : ∀ i ∈ b'.inFlight, i ∈ b.inFlight) (hb : ∀ i, (b'.core.body i).kind = (b.core.body i).kind) : b'.Typed V T := by
  refine ⟨fun p i hi => ?_, fun i hi => ?_⟩
  · rw [hb]
    rcases hq p i hi with ⟨r, hr⟩ | hr
    · exact h.queued r i hr
    · exact h.flying i hr
  · rw [hb]
    exact h.flying i (hx i hi)

theorem kind_update {B : Nat → Order} {o : Order} (h : o.kind = (B i).kind) (j : Nat) :
    (update B i o j).kind = (B j).kind := by
  by_cases e : j = i
  · subst e
    rw [update_self, h]
  · rw [update_of_ne e]

theorem Book.Typed.accept (h : b.Typed V T) (hw : Wf V b) (hT : T r.kind) (ha : b.accept V r = some (i, b')) : b'.Typed V T := by
  have hv := hw.accept_view ha
  have hb : ∀ j, T (b.core.body j).kind → T (b'.core.body j).kind := by
    intro j hj
    rw [body_of_view hv]
    show T (update b.core.body i _ j).kind
    by_cases e : j = i
    · subst e
      rw [update_self]
      exact hT
    · rwa [update_of_ne e]
  refine ⟨fun p j hj => ?_, fun j hj => ?_⟩
  · rw [queue_of_view hv] at hj
    exact hb j (h.queued p j hj)
  · rw [accept_inFlight ha] at hj
    rcases List.mem_cons.mp hj with rfl | hj
    · rw [body_of_view hv]
      show T (update b.core.body j _ j).kind
      rw [update_self]
      exact hT
    · exact hb j (h.flying j hj)

theorem Book.Typed.exec (h : b.Typed V T) (hw : Wf V b) (hi : i ∈ b.core.queue V p) (ht : t ∈ b.inFlight) (q : Int) :
    (b.executed V p t ts i q).Typed V T := by
  obtain ⟨o, l, hcase, hQ, hB⟩ := hw.executed_cases hi ht ts q
  have ho : o.kind = (b.core.body i).kind := by cases hcase <;> rfl
  refine h.sub (fun r j hj => .inl ⟨r, ?_⟩) (fun j hj => ?_) fun j => ?_
  · rw [hQ] at hj
    exact mem_of_update (fun k hk => hcase.sub hi hk) hj
  · rwa [show (b.executed V p t ts i q).inFlight = b.inFlight from Book.settleMaker_inFlight] at hj
  · have ht : ∀ k, (update b.core.body t ((b.core.body t).tookBy q) k).kind = (b.core.body k).kind :=
      kind_update (by rfl)
    rw [hB, kind_update (ho.trans (ht i).symm), ht]

theorem Book.Typed.cancel (h : b.Typed V T) (hw : Wf V b) (hi : i ∈ b.core.queue V p) (e : Bool) :
    (b.cancelInternal V i e).Typed V T := by
  have hv := hw.cancelInternal_view hi e
  refine h.sub (fun r j hj => .inl ⟨r, (cancel_aside hw hi e).sub r j hj⟩) (fun j hj => ?_) fun j => ?_
  · rwa [Book.cancelInternal_inFlight] at hj
  · rw [body_of_view hv]
    exact kind_update (by rfl) j

theorem Book.Typed.drop (h : b.Typed V T) (hw : Wf V b) (hi : i ∈ b.inFlight) {s : OrderStatus}
    (hc : b'.core = (b.core.setStatus i s).freeOrder i) (hx : b'.inFlight = b.inFlight.erase i) : b'.Typed V T := by
  have hv := hw.drop_view hi hc hx
  refine h.sub (fun r j hj => .inl ⟨r, ?_⟩) (fun j hj => ?_) fun j => ?_
  · rwa [queue_of_view hv] at hj
  · rw [hx] at hj
    exact List.mem_of_mem_erase hj
  · rw [body_of_view hv]
    exact kind_update (by rfl) j

theorem Book.Typed.rest (h : b.Typed V T) (hw : Wf V b) (hi : i ∈ b.inFlight) (hr : inRange V (b.core.body i).priceTicks) :
    (b.restOrder i).Typed V T := by
  have hv := hw.restOrder_view hi hr
  refine h.sub (fun r j hj => ?_) (fun j hj => ?_) fun j => ?_
  · by_cases e : j = i
    · exact .inr (e ▸ hi)
    · rw [queue_of_view hv] at hj
      exact .inl ⟨r, (mem_update_push e).mp hj⟩
  · rw [Book.restOrder_inFlight] at hj
    exact List.mem_of_mem_erase hj
  · rw [body_of_view hv]
    refine kind_update ?_ j
    unfold Order.atRest
    split <;> rfl

theorem Move.typed (h : Move V T b b') (hw : Wf V b) (ht : b.Typed V T) : b'.Typed V T := by
  cases h with
  | stpAbort | stpCancel | gates | best | reject => exact ⟨ht.queued, ht.flying⟩
  | accept r i hT _ _ ha => exact ht.accept hw hT ha
  | exec p t ts i qty hm => exact ht.exec hw hm.queued hm.flying _
  | cancel p i e hi => exact ht.cancel hw hi e
  | finishFilled i hi _ => exact ht.drop hw hi rfl rfl
  | finishIoc i hi _ => exact ht.drop hw hi rfl rfl
  | rest i hi _ hr => exact ht.rest hw hi hr
  | reduce p id i q hi _ _ _ =>
    have hv := hw.reduceInPlace_view (i := i) id q
    refine ht.sub (fun r j hj => .inl ⟨r, ?_⟩) (fun j hj => hj) fun j => ?_
    · rwa [queue_of_view hv] at hj
    · rw [body_of_view hv]
      exact kind_update (by rfl) j

/-! ## Calls and runs -/

/-- Order entry of the kinds `T` allows. -/
def Op.Enters (T : OrderType × TimeInForce → Prop) : Op → Prop
  | .submit r => T r.kind
  | op => op.entry = true

theorem Op.Enters.entry {op : Op} (h : op.Enters T) : op.entry := by
  cases op with
  | submit r => rfl
  | _ => exact h

theorem exec_flow {op : Op} {x : Outcome} (hc : b.Continuous) (hw : Wf V b) (ht : b.Typed V T) (hop : op.Enters T)
    (he : Book.exec V n op b = some (x, b')) : Flow V T b b' := by
  cases op with
  | submit r =>
    obtain ⟨y, hs⟩ := Book.returned he fun _ => rfl
    exact submit_flow hw hc hop hs
  | cancel id =>
    cases he
    rw [cancel_eq hc hw]
    split
    · exact Flow.refl b
    · rename_i i hf
      obtain ⟨p, hi⟩ := hc.queued hw hf
      exact Flow.one (.cancel p i true hi)
  | modify id newPrice newQty =>
    obtain ⟨y, hs⟩ := Book.returned he fun _ => rfl
    rw [modify_eq hc hw] at hs
    split at hs
    · cases hs
      exact Flow.refl b
    · rename_i i hf
      obtain ⟨p, hi⟩ := hc.queued hw hf
      split at hs
      · rename_i hlt
        cases hs
        exact Flow.one (.reduce p id i newQty hi hf hlt.2.1 hlt.2.2)
      · have h1 : Move V T b (b.cancelInternal V i false) := .cancel p i false hi
        have hT : T ((b.order i).resubmit id newPrice newQty).kind := ht.queued p i hi
        exact (Flow.one h1).trans (submit_flow (h1.wf hw) (cancelInternal_continuous hc false) hT hs)
  | setStpPolicy p =>
    cases he
    exact Flow.one (.gates _ b.asked)
  | setClientFirm c f =>
    cases he
    unfold Book.setClientFirm
    split
    · exact Flow.refl b
    · exact Flow.one (.gates _ b.asked)
  | _ => cases hop

theorem fresh_typed : (fresh V).Typed V T := by
  refine ⟨fun p i hi => ?_, fun i hi => (by cases hi)⟩
  rw [fresh_queue] at hi
  cases hi

/-- What a fresh book has and every move keeps, every book reached by order entry has. -/
theorem Reach.moved (h : Book.Reach V (fun _ op _ => op.Enters T) b) (h0 : I (fresh V))
    (hmove : ∀ {b b'}, Wf V b → b.Typed V T → Move V T b b' → I b → I b') : b.Typed V T ∧ I b := by
  have hI : ∀ {b b'}, Wf V b → Move V T b b' → b.Typed V T ∧ I b → b'.Typed V T ∧ I b' :=
    fun hw hm hb => ⟨hm.typed hw hb.1, hmove hw hb.1 hm hb.2⟩
  induction h with
  | init => exact ⟨fresh_typed, h0⟩
  | step hr hs hop ih =>
    obtain ⟨n, hn⟩ := hs
    have hc := Reach.continuous (Reach.mono (fun _ _ _ h => h.entry) hr)
    have hw := (Reach.wf hr).1
    exact (exec_flow hc hw ih.1 hop hn).keeps hw ih hI

end

end HftLab.OrderBook
