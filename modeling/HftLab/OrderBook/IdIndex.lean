/-
  HftLab.OrderBook.IdIndex — the order-id index.

  `Registered`: every live order is found under its own id, and an order in flight under none yet. Every
  act but the entry of an order keeps it; an entry keeps it when the id is unused. `submit` checks that
  for an id the caller chose; nobody checks it for an automatic one, and `submit_stop` and `submit_peg`
  check nothing. So in a run where these ids are free (`idsFree`) the index is exact (`index_exact`).
-/

import HftLab.OrderBook.Reachable
import HftLab.OrderBook.Views

namespace HftLab.OrderBook

open Lib Function List

variable {V : Env} {b : Book}

/-- Resting in a level, or waiting in `stop_orders_`. -/
def Book.Live (V : Env) (b : Book) (i : Nat) : Prop := b.core.Queued V i ∨ i ∈ b.core.stopOrders

/-- `id_index_` is exactly the set of live orders. -/
structure IndexExact (V : Env) (b : Book) : Prop where
  found : ∀ i, b.Live V i → b.core.find (b.order i).id = some i
  unique : ∀ i j, b.Live V i → b.Live V j → (b.order i).id = (b.order j).id → i = j
  live : ∀ k i, b.core.find k = some i → b.Live V i ∧ (b.order i).id = k

/-- Every live order is found under its own id, and an order in flight under none yet. -/
structure Registered (V : Env) (b : Book) : Prop where
  wf : Wf V b
  live : ∀ i, b.Live V i → b.core.find (b.core.body i).id = some i ∧ (b.core.body i).id ≠ 0
  flying : ∀ i ∈ b.inFlight, b.core.find (b.core.body i).id = none ∧ (b.core.body i).id ≠ 0
  distinct : ∀ i ∈ b.inFlight, ∀ j ∈ b.inFlight, (b.core.body i).id = (b.core.body j).id → i = j
  next : b.core.nextOrderId ≠ 0

/-- A registered book with at most one order in flight. -/
structure Named (V : Env) (b : Book) : Prop where
  wf : Wf V b
  live : ∀ i, b.Live V i → b.core.find (b.core.body i).id = some i ∧ (b.core.body i).id ≠ 0
  flying : ∀ i ∈ b.inFlight, b.core.find (b.core.body i).id = none ∧ (b.core.body i).id ≠ 0
  single : b.inFlight.length ≤ 1
  next : b.core.nextOrderId ≠ 0

theorem Registered.indexExact (h : Registered V b) : IndexExact V b := by
  refine ⟨fun i hi => (h.live i hi).1, ?_, ?_⟩
  · intro i j hi hj he
    have h1 : b.core.find (b.order i).id = some i := (h.live i hi).1
    have h2 : b.core.find (b.order j).id = some j := (h.live j hj).1
    rw [he, h2] at h1
    exact (Option.some.inj h1).symm
  · intro k i hk
    obtain ⟨hid, hl⟩ := h.wf.found hk
    exact ⟨hl.symm, hid⟩

theorem Named.registered (h : Named V b) : Registered V b := by
  refine ⟨h.wf, h.live, h.flying, fun i hi j hj _ => ?_, h.next⟩
  have hlen := h.single
  match hfl : b.inFlight, hi, hj with
  | [k], hi, hj => rw [mem_singleton.mp hi, mem_singleton.mp hj]
  | k :: k' :: l, _, _ =>
    rw [hfl] at hlen
    simp at hlen

theorem Registered.named (h : Registered V b) (hs : b.inFlight.length ≤ 1) : Named V b :=
  ⟨h.wf, h.live, h.flying, hs, h.next⟩

/-! ## Live slots -/

section

variable {V : Env} {b b' : Book} {T : List Nat} {i : Nat} {k : Kind}
    {j oid n id : Nat} {c : Core} {f : Order → Order} {r : Request} {o : Order} {K : Kind → Prop} {x : Nat × RejectReason} {q : Int}

theorem Moves.live (h : Moves V T b b') (hj : j ∉ T) : b'.Live V j ↔ b.Live V j :=
  or_congr (h.queued hj) (h.stops j hj)

/-! ## Automatic ids only go up -/

theorem allocAs_next {d : Core} (h : c.allocAs oid f = some (i, d)) :
    d.nextOrderId = if oid = 0 then c.nextOrderId + 1 else c.nextOrderId := by
  unfold Core.allocAs Core.allocOrder at h
  split at h
  · cases h
  · rename_i j e he
    cases h
    split at he
    · cases he
    · cases he
      rfl

theorem accept_next (h : b.accept V r = some (i, b')) :
    b'.core.nextOrderId = if r.orderId = 0 then b.core.nextOrderId + 1 else b.core.nextOrderId := by
  unfold Book.accept at h
  dsimp only at h
  split at h
  · cases h
  · rename_i heq
    cases h
    exact allocAs_next heq

theorem next_le {c d : Nat} (h : d = if oid = 0 then c + 1 else c) : c ≤ d := by
  split at h <;> omega

theorem leave_nextOrderId (c : Core) (s : OrderStatus) : (c.leave V i s).nextOrderId = c.nextOrderId := by
  obtain ⟨x, y, hr⟩ := (c.unlinkFromLevel i).refreshIfEmptied_eq (c.pool i).priceTicks V (c.pool i).side
  unfold Core.leave
  rw [hr]
  rfl

/-- The acts that hand out automatic ids, or may. -/
def drawKinds : Kind → Prop
  | .config | .accept | .wait | .peg | .clear => True
  | _ => False

theorem Act.nextOrderId_eq (h : Act V k b b') (hk : ¬ drawKinds k) (hw : Wf V b) : b'.core.nextOrderId = b.core.nextOrderId := by
  cases h with
  | aux _ _ _ hn => exact hn
  | exec p t ts i qty hm =>
    have hs : Settled b p t i (min qty (b.core.body i).displayedQty)
        (b.executed V p t ts i (min qty (b.core.body i).displayedQty)) :=
      Book.settled (hw.flying_ne_queued hm.queued hm.flying)
    cases hs with
    | refresh shown _ _ _ _ hc =>
      rw [hc]
      unfold Core.refresh
      dsimp only
      split <;> rfl
    | complete _ hc =>
      rw [hc]
      rfl
    | partial_ _ _ hc =>
      rw [hc]
      rfl
  | cancel p i hi =>
    rw [Book.cancelInternal_core (hw.resting hi).active, leave_nextOrderId]
  | replace p i hi =>
    rw [Book.cancelInternal_core (hw.resting hi).active, leave_nextOrderId]
  | unwait i _ =>
    unfold Book.cancelPendingStop
    split <;> rfl
  | rest i _ _ _ =>
    obtain ⟨x, y, hc⟩ := Book.restOrder_core
    rw [hc]
    rfl
  | reprice p i q x y _ _ =>
    obtain ⟨u, w, hr⟩ := (b.core.unlinkFromLevel i).refreshIfEmptied_eq (b.core.pool i).priceTicks V (b.core.pool i).side
    unfold Core.reprice
    dsimp only
    rw [hr]
    rfl
  | expire p i _ => exact leave_nextOrderId b.core .expired
  | auction p clearing i take ts _ _ _ =>
    unfold Book.auctionTake
    dsimp only
    split <;> rfl
  | config | accept | wait | peg | clear => exact absurd trivial hk
  | stpAbort | stpCancel | finishFilled | finishIoc | reduce | reduceStop | release | touch | oco | bracket => rfl

theorem Act.nextOrderId_le (h : Act V k b b') (hk : k ≠ .clear) (hw : Wf V b) : b.core.nextOrderId ≤ b'.core.nextOrderId := by
  by_cases hd : drawKinds k
  · cases h with
    | config hs _ _ _ _ _ => exact hs.nextOrderId
    | accept r i _ _ ha => exact next_le (accept_next ha)
    | wait oid i f c h =>
      have hle := next_le (allocAs_next h.alloc)
      rw [h.core]
      exact hle
    | peg oid i f c h =>
      obtain ⟨x, y, hc⟩ := h.core
      have hle := next_le (allocAs_next h.alloc)
      rw [hc]
      exact hle
    | clear => exact absurd rfl hk
    | _ => cases hd
  · exact (h.nextOrderId_eq hd hw).ge

/-! ## Acts that let no order in -/

/-- The acts by which no order comes in and the book is not cleared. -/
def quietKinds : Kind → Prop
  | .accept | .wait | .peg | .clear => False
  | _ => True

theorem index_of_view {v : View} (h : b'.view V = v) : b'.core.idIndex = v.index := congrArg View.index h

theorem Wf.not_live_of_flying (h : Wf V b) (hi : i ∈ b.inFlight) : ¬ b.Live V i := by
  rintro (⟨p, hq⟩ | hs)
  · exact absurd rfl (h.flying_ne_queued hq hi)
  · exact absurd rfl ((nodup_append.mp h.links.nodup).2.2 i (mem_append_right _ hs) i hi)

theorem Wf.not_stop_of_queued (h : Wf V b) {p : Int} (hi : i ∈ b.core.queue V p) : i ∉ b.core.stopOrders := fun hs =>
  h.links.apart p i hi (mem_append_left _ (mem_append_right _ hs))

theorem Wf.ne_of_erased (h : Wf V b) (hj : j ∈ b.inFlight.erase i) : j ∈ b.inFlight ∧ j ≠ i := by
  have hnd : b.inFlight.Nodup := (nodup_append.mp h.links.nodup).2.1
  have hmem := (hnd.mem_erase_iff).mp hj
  exact ⟨hmem.2, hmem.1⟩

/-- Such an act leaves the orders in flight alone, or ends the flight of one. -/
theorem Act.inFlight_cases (h : Act V k b b') (hk : quietKinds k) :
    b'.inFlight = b.inFlight ∨ ∃ i ∈ b.inFlight, b'.inFlight = b.inFlight.erase i := by
  cases h with
  | aux hs _ _ _ => exact .inl hs.inFlight
  | config hs _ _ _ _ _ => exact .inl hs.inFlight
  | exec => exact .inl executed_inFlight
  | cancel => exact .inl Book.cancelInternal_inFlight
  | replace => exact .inl Book.cancelInternal_inFlight
  | unwait => exact .inl Book.cancelPendingStop_inFlight
  | finishFilled i hi _ => exact .inr ⟨i, hi, rfl⟩
  | finishIoc i hi _ => exact .inr ⟨i, hi, rfl⟩
  | rest i hi _ _ => exact .inr ⟨i, hi, Book.restOrder_inFlight⟩
  | auction p clearing i take ts _ _ _ => exact .inl (b.auctionTake_inFlight p clearing i take ts)
  | stpAbort | stpCancel | reduce | reduceStop | release | reprice | expire | touch | oco | bracket => exact .inl rfl
  | accept | wait | peg | clear => cases hk

theorem Act.flying_mem (h : Act V k b b') (hk : quietKinds k) (hj : j ∈ b'.inFlight) : j ∈ b.inFlight := by
  rcases h.inFlight_cases hk with hx | ⟨i, -, hx⟩
  · exact hx ▸ hj
  · exact mem_of_mem_erase (hx ▸ hj)

/-- What an order keeps for as long as it is in its slot. -/
def Order.stamp (o : Order) : Nat × Nat × Side × OrderType × TimeInForce := (o.id, o.clientId, o.side, o.type, o.tif)

theorem stamp_update {B : Nat → Order} (h : o.stamp = (B i).stamp) (j : Nat) : (update B i o j).stamp = (B j).stamp := by
  by_cases e : j = i
  · rw [e, update_self, h]
  · rw [update_of_ne e]

section

variable {v : View} {p q : Int} {o : Order} {t l : Nat}

theorem View.setBody_stamp (h : o.stamp = (v.body i).stamp) (j : Nat) : ((v.setBody i o).body j).stamp = (v.body j).stamp :=
  stamp_update h j

theorem View.settle_stamp (h : o.stamp = (v.body i).stamp) (j : Nat) : ((v.settle i o).body j).stamp = (v.body j).stamp :=
  stamp_update h j

theorem View.unwait_stamp (h : o.stamp = (v.body i).stamp) (j : Nat) : ((v.unwait l i o).body j).stamp = (v.body j).stamp :=
  stamp_update h j

theorem View.leave_stamp (s : OrderStatus) (j : Nat) : ((v.leave p i s).body j).stamp = (v.body j).stamp :=
  stamp_update (o := { v.body i with status := s }) rfl j

theorem View.refresh_stamp (j : Nat) : ((v.refresh p i q).body j).stamp = (v.body j).stamp :=
  stamp_update (o := { v.body i with displayedQty := q }) rfl j

theorem View.reprice_stamp (j : Nat) : ((v.reprice p q i).body j).stamp = (v.body j).stamp :=
  stamp_update (o := { v.body i with priceTicks := q }) rfl j

theorem View.exchange_stamp (j : Nat) : ((v.exchange t i q).body j).stamp = (v.body j).stamp := by
  have ht : ∀ j, (update v.body t ((v.body t).tookBy q) j).stamp = (v.body j).stamp := stamp_update rfl
  exact (stamp_update (o := (v.body i).filledBy q) (ht i).symm j).trans (ht j)

end

/-- Such an act leaves every order its stamp. -/
theorem Act.stamp_eq (h : Act V k b b') (hk : quietKinds k) (hw : Wf V b) (j : Nat) :
    (b'.core.body j).stamp = (b.core.body j).stamp := by
  cases h with
  | aux hs _ _ _ => rw [hs.body]
  | config hs _ _ _ _ _ => rw [hs.body]
  | exec p t ts i qty hm =>
    have hex := View.exchange_stamp (v := b.view V) (t := t) (i := i) (q := min qty (b.core.body i).displayedQty)
    cases hw.executed_view hm.queued hm.flying ts (min qty (b.core.body i).displayedQty) with
    | refresh shown _ _ _ _ hv =>
      rw [body_of_view hv, View.refresh_stamp]
      exact hex j
    | complete _ hv =>
      rw [body_of_view hv, View.leave_stamp]
      exact hex j
    | partial_ _ _ hv =>
      rw [body_of_view hv]
      refine (View.setBody_stamp ?_ j).trans (hex j)
      exact (hex i).symm
  | cancel p i hi =>
    rw [body_of_view (hw.cancelInternal_view hi true)]
    exact View.leave_stamp .cancelled j
  | replace p i hi =>
    rw [body_of_view (hw.cancelInternal_view hi false)]
    exact View.leave_stamp .cancelled j
  | expire p i hi =>
    rw [body_of_view (hw.expireOrder_view hi)]
    exact View.leave_stamp .expired j
  | unwait i hi =>
    obtain ⟨l, -, hv⟩ := hw.cancelPendingStop_view hi
    rw [body_of_view hv]
    exact View.unwait_stamp (by rfl) j
  | release l i hl =>
    rw [body_of_view (hw.releaseStop_view hl)]
    exact View.unwait_stamp (by rfl) j
  | finishFilled i hi _ =>
    rw [body_of_view (hw.drop_view hi rfl rfl)]
    exact View.setBody_stamp (by rfl) j
  | finishIoc i hi _ =>
    rw [body_of_view (hw.drop_view hi rfl rfl)]
    exact View.setBody_stamp (by rfl) j
  | rest i hi _ hr =>
    rw [body_of_view (hw.restOrder_view hi hr)]
    refine View.settle_stamp ?_ j
    unfold Order.atRest
    split <;> rfl
  | reduce p id i q _ _ _ _ =>
    rw [body_of_view (hw.reduceInPlace_view id q)]
    exact View.setBody_stamp (by rfl) j
  | reduceStop id i q _ _ _ _ =>
    rw [body_of_view (hw.reduceInPlace_view id q)]
    exact View.setBody_stamp (by rfl) j
  | reprice p i q x y hi hr =>
    have hv : Book.view V { b with core := { b.core.reprice V i q with bestBid := x, bestAsk := y } } = _ :=
      hw.reprice_view hi hr rfl rfl
    rw [body_of_view hv]
    exact View.reprice_stamp j
  | auction p clearing i take ts hi _ _ =>
    cases hw.auctionTake_view hi clearing take ts with
    | complete _ hv =>
      rw [body_of_view hv, View.leave_stamp]
      exact View.setBody_stamp (by rfl) j
    | partial_ _ hv =>
      rw [body_of_view hv]
      exact View.setBody_stamp (by rfl) j
  | touch l i o _ ho =>
    rw [body_of_view (hw.touch_view ho)]
    refine View.setBody_stamp ?_ j
    rw [ho]
    rfl
  | stpAbort | stpCancel | oco | bracket => rfl
  | accept | wait | peg | clear => cases hk

theorem Act.id_eq (h : Act V k b b') (hk : quietKinds k) (hw : Wf V b) (j : Nat) :
    (b'.core.body j).id = (b.core.body j).id := congrArg Prod.fst (h.stamp_eq hk hw j)

/-! ## Who comes and goes -/

/-- The report ends the order with id `k`: executed completely, cancelled, replaced, expired or triggered. -/
def Report.ends (k : Nat) : Report → Bool
  | .fill m _ q => m.id = k && m.totalQty ≤ m.filledQty + q
  | .auctionFill o q => o.id = k && o.totalQty ≤ o.filledQty + q
  | .cancel o | .replace o | .expire o | .trigger o => o.id = k
  | _ => false

/-- What an act that lets no order in does to the live orders: they stay; one of them leaves, with its id, and a report
    says so; or one comes to rest from its flight. -/
inductive Traffic (V : Env) (b b' : Book) : Prop
  | stay : (∀ j, b'.Live V j → b.Live V j) → b'.core.idIndex = b.core.idIndex → Traffic V b b'
  | leave (i : Nat) (e : Report) : b.Live V i → ¬ b'.Live V i → (∀ j, b'.Live V j → b.Live V j) →
      b'.core.idIndex = b.core.idIndex.erase (b.core.body i).id → b'.log = e :: b.log → e.ends (b.core.body i).id = true →
      Traffic V b b'
  | arrive (i : Nat) : i ∈ b.inFlight → i ∉ b'.inFlight → (∀ j, b'.Live V j → j = i ∨ b.Live V j) →
      b'.core.idIndex = b.core.idIndex.insert (b.core.body i).id i → Traffic V b b'

theorem Moves.live_sub (h : Moves V T b b') (hT : ∀ j ∈ T, b'.Live V j → b.Live V j) : ∀ j, b'.Live V j → b.Live V j := by
  intro j hl
  by_cases hj : j ∈ T
  · exact hT j hj hl
  · exact (h.live hj).mp hl

theorem Releases.not_live (h : Releases V i b b') : ¬ b'.Live V i := fun hl => hl.elim h.gone.queued h.gone.stops

theorem Releases.traffic (h : Releases V i b b') (hl : b.Live V i) {e : Report}
    (hidx : b'.core.idIndex = b.core.idIndex.erase (b.core.body i).id) (hlog : b'.log = e :: b.log)
    (he : e.ends (b.core.body i).id) : Traffic V b b' := by
  refine .leave i e hl h.not_live (h.moves.live_sub fun j hj hlj => ?_) hidx hlog he
  rw [mem_singleton.mp hj] at hlj
  exact absurd hlj h.not_live

theorem Act.traffic (h : Act V k b b') (hk : quietKinds k) (hw : Wf V b) : Traffic V b b' := by
  have same : ∀ {b'}, SameSlots b b' → Traffic V b b' := fun hs =>
    .stay ((hs.lawful hw).moves.live_sub (by simp)) hs.idIndex
  cases h with
  | aux hs _ _ _ => exact same hs
  | config hs _ _ _ _ _ => exact same hs
  | stpAbort => exact same (.of_core rfl rfl)
  | stpCancel => exact same (.of_core rfl rfl)
  | oco => exact same (.of_core rfl rfl)
  | bracket => exact same (.of_core rfl rfl)
  | exec p t ts i qty hm =>
    have hsh := (hw.resting hm.queued).shown
    have h1 := hm.pos
    have h2 := hm.left
    have hlaw : Lawful V [t, i] b (b.executed V p t ts i (min qty (b.core.body i).displayedQty)) :=
      hw.executed hm.queued hm.flying (by omega) (by omega) (by omega)
    have hx : (b.executed V p t ts i (min qty (b.core.body i).displayedQty)).inFlight = b.inFlight := executed_inFlight
    have hlive : b.Live V i := .inl ⟨p, hm.queued⟩
    have ht' := (hlaw.wf hw).not_live_of_flying (hx.symm ▸ hm.flying)
    have hsub : ∀ j, (b.executed V p t ts i (min qty (b.core.body i).displayedQty)).Live V j → b.Live V j := by
      refine hlaw.moves.live_sub fun j hj hl => ?_
      rcases mem_cons.mp hj with rfl | hj
      · exact absurd hl ht'
      · exact mem_singleton.mp hj ▸ hlive
    cases hw.executed_view hm.queued hm.flying ts (min qty (b.core.body i).displayedQty) with
    | refresh shown _ _ _ _ hv => exact .stay hsub (index_of_view hv)
    | partial_ _ _ hv => exact .stay hsub (index_of_view hv)
    | complete hdone hv =>
      refine .leave i _ hlive ?_ hsub ?_ Book.executed_log ?_
      · rintro (hq | hs)
        · exact hw.not_queued_of_erase hm.queued (queue_of_view hv) hq
        · rw [show (b.executed V p t ts i _).core.stopOrders = b.core.stopOrders from congrArg View.stops hv] at hs
          exact hw.not_stop_of_queued hm.queued hs
      · rw [index_of_view hv]
        simp [View.leave, View.exchange, Book.view, Order.filledBy]
      · have hdone' : (b.order i).totalQty ≤ (b.order i).filledQty + min qty (b.core.body i).displayedQty := hdone
        have hid : (b.order i).id = (b.core.body i).id := rfl
        simp only [Report.ends, hid, decide_true, Bool.true_and, decide_eq_true_eq]
        exact hdone'
  | auction p clearing i take ts hi hpos hle =>
    have hlaw : Lawful V [i] b (b.auctionTake p clearing i take ts) := hw.auctionTake hi (Int.le_of_lt hpos) hle
    have hlive : b.Live V i := .inl ⟨p, hi⟩
    have hsub : ∀ j, (b.auctionTake p clearing i take ts).Live V j → b.Live V j :=
      hlaw.moves.live_sub fun j hj _ => mem_singleton.mp hj ▸ hlive
    have hlog : (b.auctionTake p clearing i take ts).log = .auctionFill (b.order i) take :: b.log :=
      b.auctionTake_log p clearing i take ts
    cases hw.auctionTake_view hi clearing take ts with
    | partial_ _ hv => exact .stay hsub (index_of_view hv)
    | complete hdone hv =>
      refine .leave i _ hlive ?_ hsub ?_ hlog ?_
      · rintro (hq | hs)
        · exact hw.not_queued_of_erase hi (queue_of_view hv) hq
        · rw [show (b.auctionTake p clearing i take ts).core.stopOrders = b.core.stopOrders from congrArg View.stops hv] at hs
          exact hw.not_stop_of_queued hi hs
      · rw [index_of_view hv]
        simp [View.leave, View.setBody, Book.view, Order.auctioned]
      · have hdone' : (b.order i).totalQty ≤ (b.order i).filledQty + take := hdone
        have hid : (b.order i).id = (b.core.body i).id := rfl
        simp only [Report.ends, hid, decide_true, Bool.true_and, decide_eq_true_eq]
        exact hdone'
  | cancel p i hi =>
    exact (hw.cancelInternal hi true).traffic (.inl ⟨p, hi⟩) (index_of_view (hw.cancelInternal_view hi true))
      (Book.cancelInternal_rest true (hw.resting hi).active).1 (decide_eq_true rfl)
  | replace p i hi =>
    exact (hw.cancelInternal hi false).traffic (.inl ⟨p, hi⟩) (index_of_view (hw.cancelInternal_view hi false))
      (Book.cancelInternal_rest false (hw.resting hi).active).1 (decide_eq_true rfl)
  | expire p i hi =>
    exact (hw.expireOrder hi).traffic (.inl ⟨p, hi⟩) (index_of_view (hw.expireOrder_view hi)) rfl
      (decide_eq_true rfl)
  | unwait i hi =>
    obtain ⟨l, hl, hv⟩ := hw.cancelPendingStop_view hi
    have hr := (hw.cancelPendingStop (i := i)).resolve_left fun hn => hn.1 hi
    have hlog : (b.cancelPendingStop i).2.log = .cancel (b.order i) :: b.log := by
      unfold Book.cancelPendingStop
      split
      · rename_i hn
        exact absurd hi (List.idxOf?_eq_none_iff.mp hn)
      · rfl
    exact hr.2.2.traffic (.inr hi) (index_of_view hv) hlog (decide_eq_true rfl)
  | release l i hl =>
    exact (hw.releaseStop hl).traffic (.inr (mem_of_getElem? hl))
      (index_of_view (hw.releaseStop_view hl)) rfl (decide_eq_true rfl)
  | finishFilled i hi _ =>
    have hr := hw.finishFilled hi
    exact .stay (hr.moves.live_sub fun j hj hl => absurd hl (mem_singleton.mp hj ▸ hr.not_live)) rfl
  | finishIoc i hi _ =>
    have hr := hw.finishIoc hi
    exact .stay (hr.moves.live_sub fun j hj hl => absurd hl (mem_singleton.mp hj ▸ hr.not_live)) rfl
  | rest i hi hlt hr =>
    have hid : (b.core.body i).atRest.id = (b.core.body i).id := by
      unfold Order.atRest
      split <;> rfl
    refine .arrive i hi ?_ (fun j hl => ?_) ?_
    · rw [show (b.restOrder i).inFlight = b.inFlight.erase i from Book.restOrder_inFlight]
      exact fun hj => (hw.ne_of_erased hj).2 rfl
    · by_cases hj : j = i
      · exact .inl hj
      · exact .inr (((hw.restOrder hi hlt hr).moves.live (by simpa using hj)).mp hl)
    · have hidx : (b.restOrder i).core.idIndex = b.core.idIndex.insert (b.core.body i).atRest.id i :=
        index_of_view (hw.restOrder_view hi hr)
      rw [hidx, hid]
  | reduce p id i q hi hf _ hq =>
    refine .stay ((hw.reduceInPlace hf hq).moves.live_sub fun j hj _ => ?_) (index_of_view (hw.reduceInPlace_view id q))
    rw [mem_singleton.mp hj]
    exact .inl ⟨p, hi⟩
  | reduceStop id i q hi hf _ hq =>
    refine .stay ((hw.reduceInPlace hf hq).moves.live_sub fun j hj _ => ?_) (index_of_view (hw.reduceInPlace_view id q))
    rw [mem_singleton.mp hj]
    exact .inr hi
  | reprice p i q x y hi hr =>
    have hv : Book.view V { b with core := { b.core.reprice V i q with bestBid := x, bestAsk := y } } = _ :=
      hw.reprice_view hi hr rfl rfl
    have hlaw : Lawful V [i] b { b with core := { b.core.reprice V i q with bestBid := x, bestAsk := y } } :=
      hw.reprice hi hr rfl rfl
    refine .stay (hlaw.moves.live_sub fun j hj _ => ?_) (index_of_view hv)
    rw [mem_singleton.mp hj]
    exact .inl ⟨p, hi⟩
  | touch l i o hf ho =>
    have hlaw : Lawful V [i] b (b.mapCore (·.setOrder i o)) := hw.touch hf ho rfl rfl
    refine .stay (hlaw.moves.live_sub fun j hj _ => ?_) (index_of_view (hw.touch_view ho))
    rw [mem_singleton.mp hj]
    exact hf.elim .inr fun hf => (hw.found hf).2.symm
  | accept | wait | peg | clear => cases hk

/-- What is to be shown of a step that lets no order in. -/
theorem Registered.traffic (h : Registered V b) (hw : Wf V b') (ht : Traffic V b b')
    (hid : ∀ j, (b'.core.body j).id = (b.core.body j).id) (hx : ∀ j ∈ b'.inFlight, j ∈ b.inFlight)
    (hn : b.core.nextOrderId ≤ b'.core.nextOrderId) : Registered V b' := by
  refine ⟨hw, fun j hl => ?_, fun j hj => ?_, fun j hj j' hj' he => ?_, by have := h.next; omega⟩
  · rw [hid]
    cases ht with
    | stay hsub hidx =>
      unfold Core.find
      rw [hidx]
      exact h.live j (hsub j hl)
    | leave i e hi hgone hsub hidx _ _ =>
      obtain ⟨hf, h0⟩ := h.live j (hsub j hl)
      refine ⟨?_, h0⟩
      have hne : (b.core.body j).id ≠ (b.core.body i).id := by
        intro he
        rw [he, (h.live i hi).1] at hf
        cases hf
        exact hgone hl
      unfold Core.find
      rw [hidx, AList.lookup_erase_ne hne]
      exact hf
    | arrive i hi _ hsub hidx =>
      unfold Core.find
      rw [hidx]
      rcases hsub j hl with rfl | hl
      · exact ⟨AList.lookup_insert _, (h.flying j hi).2⟩
      · obtain ⟨hf, h0⟩ := h.live j hl
        refine ⟨?_, h0⟩
        have hne : (b.core.body j).id ≠ (b.core.body i).id := by
          intro he
          rw [he, (h.flying i hi).1] at hf
          cases hf
        rw [AList.lookup_insert_ne hne]
        exact hf
  · obtain ⟨hf, h0⟩ := h.flying j (hx j hj)
    rw [hid]
    refine ⟨?_, h0⟩
    cases ht with
    | stay _ hidx =>
      unfold Core.find
      rw [hidx]
      exact hf
    | leave i e hi _ _ hidx _ _ =>
      have hne : (b.core.body j).id ≠ (b.core.body i).id := by
        intro he
        rw [he, (h.live i hi).1] at hf
        cases hf
      unfold Core.find
      rw [hidx, AList.lookup_erase_ne hne]
      exact hf
    | arrive i hi hnot _ hidx =>
      have hne : (b.core.body j).id ≠ (b.core.body i).id := by
        intro he
        exact hnot (h.distinct j (hx j hj) i hi he ▸ hj)
      unfold Core.find
      rw [hidx, AList.lookup_insert_ne hne]
      exact hf
  · rw [hid, hid] at he
    exact h.distinct j (hx j hj) j' (hx j' hj') he

/-- Such an act keeps every name right. -/
theorem Registered.act (h : Registered V b) (ha : Act V k b b') (hk : quietKinds k) : Registered V b' :=
  h.traffic (ha.wf h.wf) (ha.traffic hk h.wf) (ha.id_eq hk h.wf) (fun _ hj => ha.flying_mem hk hj)
    (ha.nextOrderId_le (by rintro rfl; exact hk) h.wf)

theorem Registered.acts (h : Registered V b) (ha : Acts V K b b') (hK : ∀ k, K k → quietKinds k) : Registered V b' :=
  ha.keeps h fun hk ha hb => hb.act ha (hK _ hk)

theorem Named.acts (h : Named V b) (ha : Acts V K b b') (hK : ∀ k, K k → quietKinds k) : Named V b' := by
  refine (h.registered.acts ha hK).named (ha.keeps (I := fun b => b.inFlight.length ≤ 1) h.single ?_)
  intro k b b' hk ha hle
  rcases ha.inFlight_cases (hK _ hk) with hx | ⟨i, -, hx⟩
  · rw [hx]
    exact hle
  · rw [hx]
    exact length_erase_le.trans hle

theorem quiet_of_tidy (k : Kind) (h : tidyKinds k) : quietKinds k := by
  cases k <;> first | exact h | trivial

theorem quiet_of_after (k : Kind) (h : afterKinds False k) : quietKinds k := by
  cases k <;> first | exact h | trivial

/-! ## Entries -/

theorem newId_ne_zero (h : c.nextOrderId ≠ 0) (oid : Nat) : c.newId oid ≠ 0 := by
  unfold Core.newId
  split
  · exact h
  · assumption

/-- The id of the order that comes in after the checks. -/
theorem admitted_id {b1 : Book} (hw : Wf V b) (ha : (b.admission V r).2.accept V r = some (i, b1)) :
    (b1.core.body i).id = b.core.newId r.orderId := by
  have hw0 : Wf V (b.admission V r).2 := (admission_does (K := quietKinds) trivial).wf hw
  obtain ⟨⟨g, a, he, -⟩, -⟩ := admission_spec
  rw [body_of_view (hw0.accept_view ha), he]
  simp [View.setBody, Request.order]

/-- A call that returns 0 has let no order in. -/
theorem submit_zero {why : RejectReason} (hw : Wf V b) (hn : b.core.nextOrderId ≠ 0)
    (hs : Book.submit V n r b = some ((0, why), b')) : ∃ reason, b' = (b.admission V r).2.reject r reason := by
  rcases submit_cases hw (.inl trivial) hs with ⟨reason, -, he, -⟩ | ⟨i, b1, b2, m, hres, hc, -⟩
  · exact ⟨reason, he⟩
  · have h0 : 0 = (b1.core.body i).id := congrArg Prod.fst hres
    rw [admitted_id hw hc.accepted] at h0
    exact absurd h0.symm (newId_ne_zero hn r.orderId)

theorem Registered.id_ne_zero (h : Registered V b) {k : Nat} (hf : b.core.find k = some i) : k ≠ 0 := by
  obtain ⟨he, hl⟩ := h.wf.found hf
  rw [← he]
  exact (h.live i hl.symm).2

/-- Nothing in the index and no order in flight has the id `k`. -/
def Book.Unused (b : Book) (k : Nat) : Prop := b.core.find k = none ∧ ∀ i ∈ b.inFlight, (b.core.body i).id ≠ k

theorem Book.Unused.of_idle (hx : b.inFlight = []) {k : Nat} (hf : b.core.find k = none) : b.Unused k := by
  refine ⟨hf, fun i hi => ?_⟩
  rw [hx] at hi
  cases hi

/-- An order enters flight under an unused id. -/
theorem Registered.accept (h : Registered V b) (hq : 0 < r.qty) (hfree : b.Unused (b.core.newId r.orderId))
    (ha : b.accept V r = some (i, b')) (hn : b.core.nextOrderId ≤ b'.core.nextOrderId) : Registered V b' := by
  have hlaw := h.wf.accept hq ha
  have hw' := hlaw.wf h.wf
  have hv := h.wf.accept_view ha
  have hx : b'.inFlight = i :: b.inFlight := accept_inFlight ha
  have hfind : ∀ k, b'.core.find k = b.core.find k := fun k => by
    simp only [Core.find, index_of_view hv]
    rfl
  have hid : (b'.core.body i).id = b.core.newId r.orderId := by
    rw [body_of_view hv]
    simp [View.setBody, Request.order]
  have hold : ∀ j ∈ b.inFlight, b'.core.body j = b.core.body j := by
    intro j hj
    refine hlaw.moves.body j ?_
    rw [mem_singleton]
    rintro rfl
    have hnd : b'.inFlight.Nodup := (nodup_append.mp hw'.links.nodup).2.1
    rw [hx] at hnd
    exact (nodup_cons.mp hnd).1 hj
  refine ⟨hw', ?_, ?_, ?_, by have := h.next; omega⟩
  · intro j hj
    have hne : j ≠ i := by
      rintro rfl
      exact hw'.not_live_of_flying (by simp [hx]) hj
    have hjT : j ∉ [i] := by simpa using hne
    rw [hfind, hlaw.moves.body j hjT]
    exact h.live j ((hlaw.moves.live hjT).mp hj)
  · intro j hj
    rw [hfind]
    rcases mem_cons.mp (hx ▸ hj) with rfl | hj
    · rw [hid]
      exact ⟨hfree.1, newId_ne_zero h.next r.orderId⟩
    · rw [hold j hj]
      exact h.flying j hj
  · intro j hj j' hj' he
    rcases mem_cons.mp (hx ▸ hj) with rfl | hj <;> rcases mem_cons.mp (hx ▸ hj') with rfl | hj'
    · rfl
    · rw [hid, hold j' hj'] at he
      exact absurd he.symm (hfree.2 j' hj')
    · rw [hid, hold j hj] at he
      exact absurd he (hfree.2 j hj)
    · rw [hold j hj, hold j' hj'] at he
      exact h.distinct j hj j' hj' he

/-- The order `o` in slot `i` becomes live under an id that is free and that no order still in flight has. -/
theorem Registered.inserted (h : Registered V b) (hw : Wf V b') (hm : Moves V [i] b b') (hb : b'.core.body i = o)
    (hfree : b.core.find o.id = none) (hnz : o.id ≠ 0) (hidx : b'.core.idIndex = b.core.idIndex.insert o.id i)
    (hx : ∀ j ∈ b'.inFlight, j ∈ b.inFlight ∧ j ≠ i ∧ (b.core.body j).id ≠ o.id) (hn : b.core.nextOrderId ≤ b'.core.nextOrderId) :
    Registered V b' := by
  have hfind : ∀ k, k ≠ o.id → b'.core.find k = b.core.find k := by
    intro k hk
    unfold Core.find
    rw [hidx, AList.lookup_insert_ne hk]
  have hbody : ∀ j, j ≠ i → b'.core.body j = b.core.body j := fun j hj => hm.body j (by simpa using hj)
  refine ⟨hw, ?_, ?_, ?_, ?_⟩
  · intro j hj
    by_cases e : j = i
    · subst e
      rw [hb]
      refine ⟨?_, hnz⟩
      unfold Core.find
      rw [hidx, AList.lookup_insert]
    · obtain ⟨h1, h2⟩ := h.live j ((hm.live (by simpa using e)).mp hj)
      have hne : (b.core.body j).id ≠ o.id := by
        intro he
        rw [he, hfree] at h1
        cases h1
      rw [hbody j e, hfind _ hne]
      exact ⟨h1, h2⟩
  · intro j hj
    obtain ⟨hj, e, hne⟩ := hx j hj
    rw [hbody j e, hfind _ hne]
    exact h.flying j hj
  · intro j hj j' hj'
    obtain ⟨hj, e, -⟩ := hx j hj
    obtain ⟨hj', e', -⟩ := hx j' hj'
    rw [hbody j e, hbody j' e']
    exact h.distinct j hj j' hj'
  · have := h.next
    omega

/-- An order becomes live at once, under an unused id. -/
theorem Registered.entered (h : Registered V b) (hw : Wf V b') (hm : Moves V [i] b b') (hl : b'.Live V i)
    (hb : b'.core.body i = o) (hfree : b.Unused o.id) (hnz : o.id ≠ 0) (hidx : b'.core.idIndex = b.core.idIndex.insert o.id i)
    (hx : b'.inFlight = b.inFlight) (hn : b.core.nextOrderId ≤ b'.core.nextOrderId) : Registered V b' := by
  refine h.inserted hw hm hb hfree.1 hnz hidx (fun j hj => ?_) hn
  have hj' : j ∈ b.inFlight := hx ▸ hj
  refine ⟨hj', ?_, hfree.2 j hj'⟩
  rintro rfl
  exact hw.not_live_of_flying hj hl

theorem Registered.wait (h : Registered V b) (hwt : Waits oid i f c b b') (hfree : b.Unused (b.core.newId oid)) :
    Registered V b' := by
  have hact : Act V .wait b b' := .wait oid i f c hwt
  have hv := h.wf.wait_view hwt.alloc hwt.core hwt.inFlight
  obtain ⟨⟨G, hF, hl⟩, hb, hrest⟩ := h.wf.links.allocAs hwt.alloc
  have hlaw := h.wf.wait hF hl hb hrest hwt.waiting hwt.core hwt.inFlight
  have hid : (f { id := b.core.newId oid }).strip.id = b.core.newId oid := hwt.id
  refine h.entered (hact.wf h.wf) hlaw.moves (.inr ?_) ?_ (by rw [hid]; exact hfree)
    (by rw [hid]; exact newId_ne_zero h.next oid) (index_of_view hv) hwt.inFlight (hact.nextOrderId_le (by simp) h.wf)
  · rw [hwt.core]
    exact mem_append_right _ (mem_singleton_self i)
  · rw [body_of_view hv]
    simp [View.wait]

theorem Registered.peg (h : Registered V b) (hp : Pegs V oid i f c b b') (hfree : b.Unused (b.core.newId oid)) :
    Registered V b' := by
  have hact : Act V .peg b b' := .peg oid i f c hp
  obtain ⟨x, y, hc⟩ := hp.core
  have hv := h.wf.peg_view hp.alloc hp.grid hc hp.inFlight
  have hlaw := h.wf.peg hp.alloc hp.resting hp.grid hc hp.inFlight
  have hid : (f { id := b.core.newId oid }).strip.id = b.core.newId oid := hp.id
  refine h.entered (hact.wf h.wf) hlaw.moves
    (.inl ⟨(f { id := b.core.newId oid }).strip.priceTicks, ?_⟩) ?_ (by rw [hid]; exact hfree)
    (by rw [hid]; exact newId_ne_zero h.next oid) (index_of_view hv) hp.inFlight (hact.nextOrderId_le (by simp) h.wf)
  · rw [queue_of_view hv]
    simp [View.settle]
  · rw [body_of_view hv]
    simp [View.settle]

/-! ## Calls -/

/-- A well-named book between two calls: no bracket, nothing in flight. -/
structure Settling (V : Env) (b : Book) : Prop where
  named : Named V b
  noBracket : b.NoBracket
  inFlight : b.inFlight = []

theorem Settling.does (h : Settling V b) (hd : Does V K b b') (hK : ∀ k, K k → quietKinds k) (hbr : ¬ K .bracket) : Settling V b' :=
  ⟨h.named.acts hd.acts hK, hd.acts.noBracket hbr h.noBracket, hd.inFlight.trans h.inFlight⟩

theorem Settling.tidy (h : Settling V b) (hd : Does V tidyKinds b b') : Settling V b' :=
  h.does hd quiet_of_tidy fun hk => hk

theorem Settling.submit (h : Settling V b) (hid : r.orderId = 0 → b.core.find b.core.nextOrderId = none)
    (hs : Book.submit V n r b = some (x, b')) : Settling V b' := by
  have hd := submit_does (N := False) n r b x b' h.named.wf (.inr h.noBracket) hs
  have hadm : Does V tidyKinds b (b.admission V r).2 := admission_does trivial
  have h0 := h.tidy hadm
  refine ⟨?_, hd.acts.noBracket (fun hk => hk) h.noBracket, hd.inFlight.trans h.inFlight⟩
  rcases submit_cases (N := False) h.named.wf (.inr h.noBracket) hs with ⟨reason, -, rfl, -⟩ | ⟨i, b1, b2, n', -, hc, -⟩
  · exact (h0.tidy (reject_does reason trivial)).named
  · obtain ⟨hreg, hspec⟩ := admission_spec
    obtain ⟨hq, hdup⟩ := hspec hc.passed
    have hcore : (b.admission V r).2.core = b.core := by
      obtain ⟨g, a, he, -⟩ := hreg
      rw [he]
    have hfree : (b.admission V r).2.core.find ((b.admission V r).2.core.newId r.orderId) = none := by
      rw [hcore]
      unfold Core.newId
      split
      · rename_i h0
        exact hid h0
      · rename_i h0
        exact hdup h0
    have hact := admitted_act hc.passed hc.accepted
    have h1 := (h0.named.registered.accept hq (.of_idle h0.inFlight hfree) hc.accepted
      (hact.nextOrderId_le (by simp) h0.named.wf)).named (by rw [accept_inFlight hc.accepted, h0.inFlight]; exact le_rfl)
    have h2 := h1.acts hc.matched.acts quiet_of_after
    have hi : i ∈ b2.inFlight := by
      rw [hc.matched.inFlight, accept_inFlight hc.accepted]
      exact mem_cons_self
    exact h2.acts (finish_acts hi trivial hc.finished).1 fun _ hk => hk

theorem reduceInPlace_does (hr : K .reduce) (hrs : K .reduceStop) (hw : Wf V b) (hf : b.core.find id = some i)
    (hlt : q < (b.order i).totalQty) (hq : (b.order i).filledQty < q) : Does V K b (b.reduceInPlace id i q) := by
  rcases (hw.found hf).2 with hs | ⟨p, hp⟩
  · exact Does.one (.reduceStop id i q hs hf hlt hq) hrs rfl
  · exact Does.one (.reduce p id i q hp hf hlt hq) hr rfl

theorem Settling.reduce (h : Settling V b) (hf : b.core.find id = some i) (hlt : q < (b.order i).totalQty)
    (hq : (b.order i).filledQty < q) : Settling V (b.reduceInPlace id i q) :=
  h.does (K := fun k => k = .reduce ∨ k = .reduceStop) (reduceInPlace_does (.inl rfl) (.inr rfl) h.named.wf hf hlt hq)
    (fun k hk => by rcases hk with rfl | rfl <;> trivial) (by simp)

/-- A replaced order comes back under its own id, which the cancel has freed. -/
theorem Settling.modify (h : Settling V b) {newPrice newQty : Int} (hs : b.modify V n id newPrice newQty = some (x, b')) :
    Settling V b' := by
  rcases modify_cases hs with ⟨-, -, rfl⟩ | ⟨i, hf, ⟨hin, -, rfl⟩ | ⟨-, hcr⟩⟩
  · exact h
  · exact h.reduce hf hin.2.1 hin.2.2
  · obtain ⟨b2, hsub, hre⟩ := cancelReplace_cases hcr
    have h2 : Settling V ((b.unlinkOco id).cancelInternal V i false) :=
      h.does (K := fun k => k = .oco ∨ k = .replace) (takeOut_does (.inl rfl) (.inr rfl) h.named.wf hf)
        (by rintro _ (rfl | rfl) <;> trivial) (by simp)
    have h3 := h2.submit (fun h0 => absurd h0 (h.named.registered.id_ne_zero hf)) hsub
    have h4 := h3.tidy (relinkOco_does (b.oco.partner id) x.1 h3.named.wf)
    rw [h.noBracket.2 id] at hre
    cases hre
    exact h4

/-- A triggered stop comes back under its own id, which its release has freed. -/
theorem Settling.stopLoop (n m k : Nat) (h : Settling V b)
    (hs : Book.stopLoop V (Book.submit V n) m k b = some b') : Settling V b' := by
  induction m generalizing b k with
  | zero => cases hs
  | succ m ih =>
    unfold Book.stopLoop at hs
    split at hs
    · cases hs
      exact h
    · rename_i i hk
      dsimp only at hs
      have hi : i ∈ b.core.stopOrders := mem_of_getElem? hk
      have ht : Act V .touch b (b.ratchetStop V i) := .touch 0 i _ (.inl hi) rfl
      have h1 : Settling V (b.ratchetStop V i) :=
        h.does (Does.one ht rfl rfl) (by rintro _ rfl; trivial) (by simp)
      split at hs
      · split at hs
        · cases hs
        · rename_i y b2 hsub
          have hrel : Act V .release (b.ratchetStop V i) ((b.ratchetStop V i).releaseStop k i) := .release k i hk
          have h2 : Settling V ((b.ratchetStop V i).releaseStop k i) :=
            h1.does (Does.one hrel rfl rfl) (by rintro _ rfl; trivial) (by simp)
          have h3 := h2.tidy (setInternal_does true trivial)
          have hid : (Book.stopRequest V ((b.ratchetStop V i).order i)).orderId ≠ 0 := (h1.named.live i (.inr hi)).2
          have h4 := h3.submit (fun h0 => absurd h0 hid) hsub
          exact ih k (h4.tidy (setInternal_does false trivial)) hs
      · exact ih (k + 1) h1 hs

end

/-! ## Runs -/

/-- The id the call brings in is free: the next automatic id of a `submit` that asks for one, and any
    id of a `submit_stop` or a `submit_peg`. -/
def Book.idsFree (b : Book) : Op → Bool
  | .submit r => r.orderId ≠ 0 || (b.core.find b.core.nextOrderId).isNone
  | .submitStop _ _ _ _ oid _ | .submitPeg _ _ _ oid _ _ => (b.core.find (b.core.newId oid)).isNone
  | .cancel _ | .modify .. | .checkStopTriggers | .massCancel _ | .linkOco .. | .unlinkOco _ => true
  | _ => false

theorem Settling.exec {b' : Book} {n : Nat} {op : Op} {x : Outcome} (h : Settling V b) (hf : b.idsFree op)
    (hs : Book.exec V n op b = some (x, b')) : Settling V b' := by
  cases op with
  | submit r =>
    obtain ⟨y, hsub⟩ := Book.returned hs fun _ => rfl
    refine h.submit (fun h0 => ?_) hsub
    simpa [Book.idsFree, h0] using hf
  | submitStop s t l q oid cid =>
    cases hs
    rcases submitStop_cases s t l q oid cid with he | ⟨i, f, c, hw⟩
    · exact he.symm ▸ h
    · have hfree : b.core.find (b.core.newId oid) = none := by simpa [Book.idsFree] using hf
      have hx := hw.inFlight.trans h.inFlight
      have hreg := h.named.registered.wait hw (.of_idle h.inFlight hfree)
      exact ⟨hreg.named (by rw [hx]; exact Nat.zero_le 1), hw.noBracket h.noBracket, hx⟩
  | submitPeg s o q oid cid cap =>
    cases hs
    have hfree : b.core.find (b.core.newId oid) = none := by simpa [Book.idsFree] using hf
    rcases submitPeg_cases s o q oid cid cap with he | ⟨i, f, c, hp⟩
    · exact he.symm ▸ h
    · have hx := hp.inFlight.trans h.inFlight
      have hreg := h.named.registered.peg hp (.of_idle h.inFlight hfree)
      exact ⟨hreg.named (by rw [hx]; exact Nat.zero_le 1), hp.noBracket h.noBracket, hx⟩
  | cancel id =>
    cases hs
    exact h.tidy (cancel_does id h.named.wf)
  | modify id p q =>
    obtain ⟨y, hm⟩ := Book.returned hs fun _ => rfl
    exact h.modify hm
  | checkStopTriggers =>
    obtain ⟨b1, hc, he⟩ := Option.map_eq_some_iff.mp hs
    cases he
    unfold Book.checkStopTriggers at hc
    split at hc
    · cases hc
      exact h
    · exact Settling.stopLoop n n 0 h hc
  | massCancel cid =>
    cases hs
    exact h.tidy (massCancel_does cid h.named.wf)
  | linkOco u w =>
    cases hs
    exact h.tidy (linkOco_does u w trivial)
  | unlinkOco u =>
    cases hs
    exact h.tidy (unlinkOco_does u trivial)
  | _ => cases hf

theorem fresh_settling (V : Env) : Settling V (fresh V) := by
  refine ⟨⟨fresh_wf V, ?_, ?_, by simp [fresh], by simp [fresh]⟩, ⟨rfl, fun _ => rfl⟩, rfl⟩
  · rintro i (⟨p, hp⟩ | hs)
    · have := ((fresh_wf V).resting hp).active
      exact absurd this (by simp [fresh, Core.body, Order.strip, Order.isActive])
    · cases hs
  · intro i hi
    cases hi

theorem Settling.reach (h : Book.Reach V (fun b op _ => b.idsFree op = true) b) : Settling V b := by
  induction h with
  | init => exact fresh_settling V
  | step _ hs hp ih =>
    obtain ⟨n, hn⟩ := hs
    exact ih.exec hp hn

/-- In a run whose entries all find their id free, the index is exactly the set of live orders. -/
theorem index_exact {V : Env} {b : Book} (h : Book.Reach V (fun b op _ => b.idsFree op = true) b) : IndexExact V b :=
  (Settling.reach h).named.registered.indexExact

/-- A stop and a peg under free ids; a trade, a trigger, a cancel-replace. -/
theorem index_exact_small : ∃ b, Book.runIf smallEnv 20 (fun b op _ => b.idsFree op)
      [.submit { side := .sell, priceTicks := 3, qty := 5, orderId := 5 },
       .submitStop .buy 3 4 2 7 2,
       .submitPeg .sell 1 4 0 3 0,
       .submit { side := .buy, priceTicks := 3, qty := 2 },
       .checkStopTriggers,
       .modify 1 5 6] (fresh smallEnv) = some b ∧ b.core.idIndex.keys = [1, 5] ∧ IndexExact smallEnv b := by
  have hrun : (Book.runIf smallEnv 20 (fun b op _ => b.idsFree op)
      [.submit { side := .sell, priceTicks := 3, qty := 5, orderId := 5 },
       .submitStop .buy 3 4 2 7 2,
       .submitPeg .sell 1 4 0 3 0,
       .submit { side := .buy, priceTicks := 3, qty := 2 },
       .checkStopTriggers,
       .modify 1 5 6] (fresh smallEnv)).any (fun b => b.core.idIndex.keys = [1, 5]) = true := by decide +kernel
  obtain ⟨b, hb, hr, hk⟩ := Reach.ofRun hrun fun _ _ _ h => h
  exact ⟨b, hb, of_decide_eq_true hk, index_exact hr⟩

/-- `submit_stop` takes the id of a resting order: two live orders share it. -/
theorem stop_takes_live_id : ∃ b, Book.runIf smallEnv 20 (fun _ _ _ => true)
      [.submit { side := .sell, priceTicks := 3, qty := 5, orderId := 5 },
       .submitStop .buy 5 6 2 5 2] (fresh smallEnv) = some b ∧ ¬ IndexExact smallEnv b := by
  have hrun : (Book.runIf smallEnv 20 (fun _ _ _ => true)
      [.submit { side := .sell, priceTicks := 3, qty := 5, orderId := 5 },
       .submitStop .buy 5 6 2 5 2] (fresh smallEnv)).any (fun b =>
        0 ∈ b.core.queue smallEnv 3 ∧ 1 ∈ b.core.stopOrders ∧ (b.order 0).id = (b.order 1).id) = true := by decide +kernel
  obtain ⟨b, hb, h⟩ := (Option.any_eq_true _ _).mp hrun
  obtain ⟨h0, h1, hid⟩ := of_decide_eq_true h
  refine ⟨b, hb, fun hex => ?_⟩
  have := hex.unique 0 1 (Or.inl ⟨3, h0⟩) (Or.inr h1) hid
  omega

end HftLab.OrderBook
