/-
  HftLab.OrderBook.Values — the fields of a saved order are values of their C++ types.

  The model's integers have no bound, a field of a snapshot has 4 or 8 bytes. In a run whose arguments are
  values of their types (`Op.saved`), with a 64-bit clock and while the automatic ids do not wrap, so are the
  fields of every slot (`Reach.machine`): an act other than an entry writes nothing larger (`Act.machine`).
-/

import HftLab.OrderBook.Continuous
import HftLab.OrderBook.Snapshot
import HftLab.OrderBook.Views

namespace HftLab.OrderBook

open Lib

/-- `filled_qty` and `displayed_qty`, which are between 0 and `total_qty`, are left out. -/
structure Order.Machine (o : Order) : Prop where
  id : o.id < uint64Size
  clientId : o.clientId < uint64Size
  price : IsInt32 o.priceTicks
  total : IsInt32 o.totalQty
  submitted : o.submitTsNs < uint64Size
  expires : o.expireTsNs < uint64Size
  trigger : IsInt32 o.stopTriggerTicks
  offset : IsInt32 o.pegOffsetTicks
  iceberg : IsInt32 o.icebergDisplaySize

def Book.Machine (b : Book) : Prop := ∀ i, (b.core.body i).Machine

structure Request.Machine (r : Request) : Prop where
  orderId : r.orderId < uint64Size
  clientId : r.clientId < uint64Size
  price : IsInt32 r.priceTicks
  qty : IsInt32 r.qty

instance (r : Request) : Decidable r.Machine :=
  decidable_of_iff (r.orderId < uint64Size ∧ r.clientId < uint64Size ∧ IsInt32 r.priceTicks ∧ IsInt32 r.qty)
    ⟨fun h => ⟨h.1, h.2.1, h.2.2.1, h.2.2.2⟩, fun h => ⟨h.orderId, h.clientId, h.price, h.qty⟩⟩

/-- Submitting orders of any type but MARKET, stops and pegs, cancelling and modifying, with arguments that are values
    of their types. -/
def Op.saved : Op → Bool
  | .submit r => r.type ≠ .market && r.Machine
  | .submitStop _ trigger limit qty orderId clientId =>
    IsInt32 trigger && IsInt32 limit && IsInt32 qty && orderId < uint64Size && clientId < uint64Size
  | .submitPeg _ offset qty orderId clientId _ => IsInt32 offset && IsInt32 qty && orderId < uint64Size && clientId < uint64Size
  | .cancel _ => true
  | .modify id newPrice newQty => id < uint64Size && IsInt32 newPrice && IsInt32 newQty
  | _ => false

/-- The kinds of acts by which no order enters. -/
def ongoingKinds : Kind → Prop
  | .aux | .note | .exec | .cancel | .replace | .unwait | .finish | .reduce | .reduceStop | .oco => True
  | _ => False

section

variable {V : Env} {b b' : Book} {i n : Nat} {k : Kind} {r : Request} {o o' : Order} {B : Nat → Order}
    {x : Nat × RejectReason} {id oid cid : Nat} {side : Side} {qty offset : Int}

theorem machine_update (h : ∀ j, (B j).Machine) (ho : o.Machine) (j : Nat) : (Function.update B i o j).Machine := by
  by_cases e : j = i
  · rw [e, Function.update_self]
    exact ho
  · rw [Function.update_of_ne e]
    exact h j

theorem isInt32_between {x y : Int} (h : IsInt32 y) (h0 : 0 ≤ x) (hle : x ≤ y) : IsInt32 x := by
  obtain ⟨-, h2⟩ := h
  unfold IsInt32 int32Min
  omega

theorem Order.Machine.status (h : o.Machine) (s : OrderStatus) : ({ o with status := s } : Order).Machine :=
  ⟨h.id, h.clientId, h.price, h.total, h.submitted, h.expires, h.trigger, h.offset, h.iceberg⟩

theorem Order.Machine.reduced {q : Int} (h : o.Machine) (h0 : 0 ≤ o.filledQty) (hq : o.filledQty < q) (hlt : q < o.totalQty) :
    (o.reduced q).Machine := by
  have hint : IsInt32 q := isInt32_between h.total (by omega) (by omega)
  exact ⟨h.id, h.clientId, h.price, hint, h.submitted, h.expires, h.trigger, h.offset, h.iceberg⟩

theorem Act.machine (h : Act V k b b') (hk : ongoingKinds k) (hw : Wf V b) (hm : b.Machine) : b'.Machine := by
  cases h with
  | aux hs _ _ _ =>
    intro j
    rw [hs.body]
    exact hm j
  | stpAbort | stpCancel | oco => exact hm
  | exec p t ts i qty hmeet =>
    obtain ⟨o, l, hcase, -, hB⟩ := hw.executed_cases hmeet.queued hmeet.flying ts (min qty (b.core.body i).displayedQty)
    intro j
    rw [hB]
    have ht := hm t
    have hi := hm i
    refine machine_update (machine_update hm ?_) ?_ j
    · exact ⟨ht.id, ht.clientId, ht.price, ht.total, ht.submitted, ht.expires, ht.trigger, ht.offset, ht.iceberg⟩
    · cases hcase <;>
        exact ⟨hi.id, hi.clientId, hi.price, hi.total, hi.submitted, hi.expires, hi.trigger, hi.offset, hi.iceberg⟩
  | cancel p i hi =>
    intro j
    rw [body_of_view (hw.cancelInternal_view hi true)]
    exact machine_update hm ((hm i).status .cancelled) j
  | replace p i hi =>
    intro j
    rw [body_of_view (hw.cancelInternal_view hi false)]
    exact machine_update hm ((hm i).status .cancelled) j
  | unwait i hi =>
    obtain ⟨m, -, hv⟩ := hw.cancelPendingStop_view hi
    intro j
    rw [body_of_view hv]
    exact machine_update hm ((hm i).status .cancelled) j
  | finishFilled i hi _ =>
    intro j
    rw [body_of_view (hw.drop_view hi rfl rfl)]
    exact machine_update hm ((hm i).status _) j
  | finishIoc i hi _ =>
    intro j
    rw [body_of_view (hw.drop_view hi rfl rfl)]
    exact machine_update hm ((hm i).status _) j
  | rest i hi hlt hr =>
    intro j
    rw [body_of_view (hw.restOrder_view hi hr)]
    refine machine_update hm ?_ j
    have h := hm i
    unfold Order.atRest
    split
    · exact ⟨h.id, h.clientId, h.price, h.total, h.submitted, h.expires, h.trigger, h.offset, h.iceberg⟩
    · exact ⟨h.id, h.clientId, h.price, h.total, h.submitted, h.expires, h.trigger, h.offset, h.iceberg⟩
  | reduce p id i q hi hf hlt hq =>
    intro j
    rw [body_of_view (hw.reduceInPlace_view id q)]
    exact machine_update hm ((hm i).reduced (hw.resting hi).filled hq hlt) j
  | reduceStop id i q hi hf hlt hq =>
    intro j
    rw [body_of_view (hw.reduceInPlace_view id q)]
    have h0 : 0 ≤ (b.core.body i).filledQty := le_of_eq ((hw.placed i).waiting hi).filled.symm
    exact machine_update hm ((hm i).reduced h0 hq hlt) j
  | _ => cases hk

theorem Acts.machine {K : Kind → Prop} (h : Acts V K b b') (hK : ∀ k, K k → ongoingKinds k) (hw : Wf V b) (hm : b.Machine) :
    b'.Machine := by
  refine (h.keeps (I := fun b => Wf V b ∧ b.Machine) ⟨hw, hm⟩ ?_).2
  rintro k b b' hk ha ⟨hw, hm⟩
  exact ⟨ha.wf hw, ha.machine (hK k hk) hw hm⟩

/-! ## Entries -/

theorem Request.order_machine (h : r.Machine) {ts : Nat} (hid : id < uint64Size) (hts : ts < uint64Size) :
    (r.order id ts).Machine := by
  have hz : IsInt32 0 := by decide
  have hice : IsInt32 r.iceShow := by
    obtain ⟨h1, h2⟩ := h.qty
    unfold Request.iceShow
    unfold IsInt32 int32Min at *
    split
    · omega
    · exact hz
  exact ⟨hid, h.clientId, h.price, h.qty, hts, (by decide : 0 < uint64Size), hz, hz, hice⟩

theorem newId_lt (h : oid < uint64Size) (hn : b.core.nextOrderId < uint64Size) : b.core.newId oid < uint64Size := by
  unfold Core.newId
  split
  · exact hn
  · exact h

theorem afterKinds_ongoing (k : Kind) (h : afterKinds False k) : ongoingKinds k := by
  cases k <;> first | exact h | trivial

theorem tidyKinds_ongoing (k : Kind) (h : tidyKinds k) : ongoingKinds k := afterKinds_ongoing k (afterKinds_of_tidy k h)

theorem submit_machine (hclock : ∀ m, V.clock m < uint64Size) (hw : Wf V b) (hb : b.NoBracket) (hm : b.Machine)
    (hn : b.core.nextOrderId < uint64Size) (hr : r.Machine) (hs : Book.submit V n r b = some (x, b')) : b'.Machine := by
  obtain ⟨hreg, hspec⟩ := admission_spec (V := V) (b := b) (r := r)
  obtain ⟨g, a, he, -⟩ := hreg
  rcases submit_cases (N := False) hw (.inr hb) hs with ⟨reason, -, rfl, -⟩ | ⟨i, b1, b2, -, -, hc, -⟩
  · rw [he]
    exact hm
  · obtain ⟨hq, hid⟩ := hspec hc.passed
    have hw0 : Wf V (b.admission V r).2 := (admission_does (K := fun _ => True) trivial).wf hw
    have hcore : (b.admission V r).2.core = b.core := by rw [he]
    have hw1 : Wf V b1 := (admitted_act hc.passed hc.accepted).wf hw0
    have hm1 : b1.Machine := by
      intro j
      rw [body_of_view (hw0.accept_view hc.accepted)]
      refine machine_update (B := (b.admission V r).2.core.body) (by rw [hcore]; exact hm) ?_ j
      exact Request.order_machine hr (newId_lt hr.orderId (by rw [hcore]; exact hn)) (hclock _)
    have hfl : i ∈ b2.inFlight := by
      rw [hc.matched.inFlight, accept_inFlight hc.accepted]
      exact List.mem_cons_self
    have hm2 := hc.matched.acts.machine afterKinds_ongoing hw1 hm1
    obtain ⟨hfin, -⟩ := finish_acts (K := ongoingKinds) hfl trivial hc.finished
    exact hfin.machine (fun _ h => h) (hc.matched.wf hw1) hm2

theorem submitStop_machine (hclock : ∀ m, V.clock m < uint64Size) (hw : Wf V b) (hm : b.Machine)
    (hn : b.core.nextOrderId < uint64Size) {trigger limit : Int} (ht : IsInt32 trigger) (hl : IsInt32 limit) (hq : IsInt32 qty)
    (ho : oid < uint64Size) (hc : cid < uint64Size) : (b.submitStop V side trigger limit qty oid cid).2.Machine := by
  unfold Book.submitStop
  split
  · exact hm
  · split
    · exact hm
    · split
      · exact hm
      · dsimp only
        split
        · exact hm
        · rename_i x i c ha
          have hal := hw.links.allocAs ha
          intro j
          show (c.body j).Machine
          rw [hal.body]
          have hz : IsInt32 0 := by decide
          refine machine_update hm ?_ j
          exact ⟨newId_lt ho hn, hc, hl, hq, hclock _, (by decide : 0 < uint64Size), ht, hz, hz⟩

theorem isInt32_of_inRange {p : Int} (h : inRange V p) : IsInt32 p := by
  have h1 := V.levels_int32
  obtain ⟨h2, h3⟩ := h
  unfold IsInt32 int32Min
  omega

theorem enterPeg_machine (hclock : ∀ m, V.clock m < uint64Size) (hw : Wf V b) (hm : b.Machine)
    (hn : b.core.nextOrderId < uint64Size) (side : Side) (cap price : Int) {marker : Int} (hf : IsInt32 offset) (hq : IsInt32 qty)
    (hk : IsInt32 marker) (ho : oid < uint64Size) (hc : cid < uint64Size) :
    (b.enterPeg V side offset qty oid cid cap price marker).2.Machine := by
  unfold Book.enterPeg
  split
  · exact hm
  · rename_i hr
    dsimp only
    split
    · exact hm
    · rename_i x i c ha
      have hal := hw.links.allocAs ha
      have hbody : (({ (c.enqueueAtLevel i).indexOrder i with pegOrders := c.pegOrders ++ [i] } : Core).raiseBest side price).body =
          c.body := by
        obtain ⟨x, y, he⟩ := Core.raiseBest_eq
          ({ (c.enqueueAtLevel i).indexOrder i with pegOrders := c.pegOrders ++ [i] } : Core) price side
        rw [he]
        exact Core.enqueueAtLevel_body c i
      intro j
      show (Core.body (Core.raiseBest { (c.enqueueAtLevel i).indexOrder i with pegOrders := c.pegOrders ++ [i] } side price) j).Machine
      rw [hbody, hal.body]
      refine machine_update hm ?_ j
      exact ⟨newId_lt ho hn, hc, isInt32_of_inRange (not_not.mp hr), hq, hclock _, (by decide : 0 < uint64Size), hk, hf,
        (by decide : IsInt32 0)⟩

theorem submitPeg_machine (hclock : ∀ m, V.clock m < uint64Size) (hw : Wf V b) (hm : b.Machine)
    (hn : b.core.nextOrderId < uint64Size) {cap : Int} (hf : IsInt32 offset) (hq : IsInt32 qty) (ho : oid < uint64Size)
    (hc : cid < uint64Size) : (b.submitPeg V side offset qty oid cid cap).2.Machine := by
  unfold Book.submitPeg
  split
  · exact hm
  · split
    · exact hm
    · exact enterPeg_machine hclock hw hm hn side cap _ hf hq (by decide) ho hc

theorem Core.leave_nextOrderId (c : Core) (s : OrderStatus) : (c.leave V i s).nextOrderId = c.nextOrderId := by
  obtain ⟨x, y, hr⟩ := (c.unlinkFromLevel i).refreshIfEmptied_eq (c.pool i).priceTicks V (c.pool i).side
  unfold Core.leave
  rw [hr]
  rfl

theorem modify_machine {newPrice newQty : Int} (hclock : ∀ m, V.clock m < uint64Size) (hw : Wf V b) (hb : b.NoBracket)
    (hm : b.Machine) (hn : b.core.nextOrderId < uint64Size) (hid : id < uint64Size) (hp : IsInt32 newPrice)
    (hs : b.modify V n id newPrice newQty = some (x, b')) : b'.Machine := by
  rcases modify_cases hs with ⟨-, -, rfl⟩ | ⟨i, hf, ⟨hin, -, rfl⟩ | ⟨-, hcr⟩⟩
  · exact hm
  · rcases (hw.found hf).2 with hi | ⟨p, hi⟩
    · exact (Act.reduceStop id i newQty hi hf hin.2.1 hin.2.2).machine trivial hw hm
    · exact (Act.reduce p id i newQty hi hf hin.2.1 hin.2.2).machine trivial hw hm
  · obtain ⟨b2, hsub, hre⟩ := cancelReplace_cases hcr
    have hcore : (b.unlinkOco id).core = b.core := unlinkOco_core
    have h0 : Does V (fun k => k = .oco ∨ k = .replace) b (b.unlinkOco id) := unlinkOco_does id (.inl rfl)
    have h1 : Does V (fun k => k = .oco ∨ k = .replace) b ((b.unlinkOco id).cancelInternal V i false) ∧
        ((b.unlinkOco id).cancelInternal V i false).core.nextOrderId = b.core.nextOrderId := by
      have hw0 := h0.wf hw
      by_cases ha : ((b.unlinkOco id).order i).isActive
      · obtain ⟨p, hi⟩ := hw0.tracked_of_found (hcore.symm ▸ hf : (b.unlinkOco id).core.find id = some i) ha
        refine ⟨h0.trans (Does.one (.replace p i hi) (.inr rfl) Book.cancelInternal_inFlight), ?_⟩
        rw [Book.cancelInternal_core ha, Core.leave_nextOrderId, hcore]
      · rw [Book.cancelInternal_of_inactive (by simpa using ha), hcore]
        exact ⟨h0, rfl⟩
    obtain ⟨hd, hnext⟩ := h1
    have hongoing : ∀ k, (k = Kind.oco ∨ k = .replace) → ongoingKinds k := by rintro k (rfl | rfl) <;> trivial
    have hplain : ∀ k, (k = Kind.oco ∨ k = .replace) → calmKinds False k := by rintro k (rfl | rfl) <;> trivial
    have hb1 : ((b.unlinkOco id).cancelInternal V i false).NoBracket :=
      ((hd.mono hplain).noBracket (.inr hb)).resolve_left fun h => h
    have hmach : ((b.order i).resubmit id newPrice newQty).Machine := ⟨hid, (hm i).clientId, hp, isInt32_i32 _⟩
    have hw1 := hd.wf hw
    have hm2 := submit_machine hclock hw1 hb1 (hd.acts.machine hongoing hw hm) (by rw [hnext]; exact hn) hmach hsub
    have hw2 := (submit_does (N := False) n _ _ _ _ hw1 (.inr hb1) hsub).wf hw1
    have hrel := relinkOco_does (b.oco.partner id) x.1 hw2
    have hspec : (b.brackets.specs id).map (fun (s : BracketSpec) => { s with qty := newQty }) = none := by
      rw [hb.2 id]
      rfl
    rw [hspec] at hre
    cases hre
    exact hrel.acts.machine tidyKinds_ongoing hw2 hm2

/-! ## Runs -/

theorem exec_machine {op : Op} {x : Outcome} (hclock : ∀ m, V.clock m < uint64Size) (hw : Wf V b) (hb : b.NoBracket)
    (hm : b.Machine) (hn : b.core.nextOrderId < uint64Size) (hop : op.saved) (he : Book.exec V n op b = some (x, b')) :
    b'.Machine := by
  cases op with
  | submit r =>
    obtain ⟨y, hs⟩ := Book.returned he fun _ => rfl
    have hr : r.Machine := of_decide_eq_true (Bool.and_eq_true_iff.mp hop).2
    exact submit_machine hclock hw hb hm hn hr hs
  | submitStop side trigger limit qty oid cid =>
    cases he
    simp only [Op.saved, Bool.and_eq_true, decide_eq_true_eq] at hop
    obtain ⟨⟨⟨⟨h1, h2⟩, h3⟩, h4⟩, h5⟩ := hop
    exact submitStop_machine hclock hw hm hn h1 h2 h3 h4 h5
  | submitPeg side offset qty oid cid cap =>
    cases he
    simp only [Op.saved, Bool.and_eq_true, decide_eq_true_eq] at hop
    obtain ⟨⟨⟨h1, h2⟩, h3⟩, h4⟩ := hop
    exact submitPeg_machine hclock hw hm hn h1 h2 h3 h4
  | cancel id =>
    cases he
    exact (cancel_does id hw).acts.machine tidyKinds_ongoing hw hm
  | modify id newPrice newQty =>
    obtain ⟨y, hs⟩ := Book.returned he fun _ => rfl
    simp only [Op.saved, Bool.and_eq_true, decide_eq_true_eq] at hop
    exact modify_machine hclock hw hb hm hn hop.1.1 hop.1.2 hs
  | _ => cases hop

/-- No bracket comes into being. -/
theorem exec_noBracket {op : Op} {x : Outcome} (hw : Wf V b) (hb : b.NoBracket) (hop : op.saved)
    (he : Book.exec V n op b = some (x, b')) : b'.NoBracket := by
  have hplain : op.plain → b.reducesStop op = false → b'.NoBracket := fun hp hst =>
    (exec_plain hp hw (.inr hb) hst he).acts.noBracket (fun h => h) hb
  cases op with
  | submit r => exact hplain rfl rfl
  | cancel id => exact hplain rfl rfl
  | modify id newPrice newQty =>
    cases hst : b.reducesStop (.modify id newPrice newQty) with
    | false => exact hplain rfl hst
    | true =>
      obtain ⟨y, hs⟩ := Book.returned he fun _ => rfl
      unfold Book.modify at hs
      cases hf : b.core.find id with
      | none =>
        rw [reducesStop_none hf] at hst
        cases hst
      | some i =>
        rw [reducesStop_some hf] at hst
        simp only [Bool.and_eq_true, decide_eq_true_eq] at hst
        rw [hf] at hs
        dsimp only at hs
        rw [if_pos ⟨hst.1.1.2, hst.1.2, hst.2⟩] at hs
        split at hs
        · cases hs
          exact hb.congr (reduceInPlace_brackets hb)
        · cases hs
  | submitStop side trigger limit qty oid cid =>
    cases he
    have hd : Does V (fun k => k = .wait) b (b.submitStop V side trigger limit qty oid cid).2 :=
      submitStop_does side trigger limit qty oid cid rfl
    exact hd.acts.noBracket (by simp) hb
  | submitPeg side offset qty oid cid cap =>
    cases he
    rcases submitPeg_cases side offset qty oid cid cap with he | ⟨i, f, c, hp⟩
    · exact he.symm ▸ hb
    · exact hp.noBracket hb
  | _ => cases hop

theorem Reach.machine (hclock : ∀ m, V.clock m < uint64Size)
    (h : Book.Reach V (fun b op _ => op.saved = true ∧ b.core.nextOrderId < uint64Size) b) : b.Machine := by
  suffices b.NoBracket ∧ b.Machine from this.2
  induction h with
  | init =>
    refine ⟨⟨rfl, fun _ => rfl⟩, fun i => ?_⟩
    have hz : IsInt32 0 := by decide
    have h0 : 0 < uint64Size := by decide
    exact ⟨h0, h0, hz, hz, h0, h0, hz, hz, hz⟩
  | step hr hs hp ih =>
    obtain ⟨n, hn⟩ := hs
    obtain ⟨hw, -⟩ := Reach.wf hr
    exact ⟨exec_noBracket hw ih.1 hp.1 hn, exec_machine hclock hw ih.1 ih.2 hp.2 hp.1 hn⟩

end

end HftLab.OrderBook
