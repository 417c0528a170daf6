/-
  HftLab.OrderBook.Injections — on-close orders enter the book.

  `run_closing_auction` submits the queued orders in auction mode, where nothing matches on entry: each is refused with a
  REJECT event, or accepted and at rest (`injected`). `Rested V k b₀ b`: since `b₀` the order that rests under the id `k`
  still rests, or it is gone and a report of the time says how it ended. An injection under another id keeps the trace, and
  so does everything the call does afterwards (`Carried`).
-/

import HftLab.OrderBook.Departures
import HftLab.OrderBook.OcoCalls
import HftLab.OrderBook.Stops
import HftLab.OrderBook.Streams
import HftLab.OrderBook.CallBook

namespace HftLab.OrderBook

open Lib Function List

section

variable {V : Env} {b₀ b b' b₁ : Book} {k i n : Nat} {kd : Kind} {r : Request} {I : Book → Prop}

/-! ## The stops that wait -/

/-- Only `submit_stop` lets a stop in. -/
theorem Act.stops_sub (h : Act V kd b b') (hk : quietKinds kd) (hw : Wf V b) {j : Nat} (hj : j ∈ b'.core.stopOrders) :
    j ∈ b.core.stopOrders := by
  have hsame : b'.core.stopOrders = b.core.stopOrders → j ∈ b.core.stopOrders := fun hs => hs ▸ hj
  cases h with
  | aux hs _ _ _ => exact hsame hs.stopOrders
  | config hs _ _ _ _ _ => exact hsame hs.stopOrders
  | exec p t ts i qty hm =>
    cases hw.executed_view hm.queued hm.flying ts (min qty (b.core.body i).displayedQty) with
    | refresh shown _ _ _ _ hv => exact hsame (congrArg View.stops hv)
    | complete _ hv => exact hsame (congrArg View.stops hv)
    | partial_ _ _ hv => exact hsame (congrArg View.stops hv)
  | cancel p i hi => exact hsame (congrArg View.stops (hw.cancelInternal_view hi true))
  | replace p i hi => exact hsame (congrArg View.stops (hw.cancelInternal_view hi false))
  | unwait i hi =>
    obtain ⟨m, hm, hv⟩ := hw.cancelPendingStop_view hi
    rw [show (b.cancelPendingStop i).2.core.stopOrders = swapErase b.core.stopOrders m from congrArg View.stops hv] at hj
    exact (swapErase_perm hm).mem_iff.mpr (mem_cons_of_mem _ hj)
  | finishFilled i hi _ =>
    have hv : (b.finishFilled i).view V = { (b.view V).setBody i { b.core.body i with status := .filled } with
        flight := b.inFlight.erase i } := hw.drop_view hi rfl rfl
    exact hsame (congrArg View.stops hv)
  | finishIoc i hi _ =>
    have hv : (b.finishIoc i).view V = { (b.view V).setBody i { b.core.body i with status := .cancelled } with
        flight := b.inFlight.erase i } := hw.drop_view hi rfl rfl
    exact hsame (congrArg View.stops hv)
  | rest i hi _ hr => exact hsame (congrArg View.stops (hw.restOrder_view hi hr))
  | release m i hm =>
    rw [show (b.releaseStop m i).core.stopOrders = swapErase b.core.stopOrders m from
      congrArg View.stops (hw.releaseStop_view hm)] at hj
    exact (swapErase_perm hm).mem_iff.mpr (mem_cons_of_mem _ hj)
  | reprice p i q x y hi hr =>
    have hv : Book.view V { b with core := { b.core.reprice V i q with bestBid := x, bestAsk := y } } = _ :=
      hw.reprice_view hi hr rfl rfl
    exact hsame (congrArg View.stops hv)
  | expire p i hi => exact hsame (congrArg View.stops (hw.expireOrder_view hi))
  | auction p clearing i take ts hi _ _ =>
    cases hw.auctionTake_view hi clearing take ts with
    | complete _ hv => exact hsame (congrArg View.stops hv)
    | partial_ _ hv => exact hsame (congrArg View.stops hv)
  | stpAbort | stpCancel | reduce | reduceStop | touch | oco | bracket => exact hj
  | accept | wait | peg | clear => cases hk

/-! ## The trace of an order at rest -/

/-- The trace of an id, under which no stop waits. -/
structure Rested (V : Env) (k : Nat) (b₀ b : Book) : Prop where
  traced : Traced V k b₀ b
  unwaited : ∀ i ∈ b.core.stopOrders, (b.core.body i).id ≠ k

theorem Rested.act (h : Rested V k b₀ b) (ha : Act V kd b b') (hk : quietKinds kd) : Rested V k b₀ b' := by
  refine ⟨h.traced.act ha hk, fun i hi => ?_⟩
  rw [ha.id_eq hk h.traced.wf]
  exact h.unwaited i (ha.stops_sub hk h.traced.wf hi)

theorem Rested.acts {K : Kind → Prop} (h : Rested V k b₀ b) (ha : Acts V K b b') (hK : ∀ k, K k → quietKinds k) :
    Rested V k b₀ b' := ha.keeps h fun hk ha hb => hb.act ha (hK _ hk)

theorem Rested.accept (h : Rested V k b₀ b) {r : Request} (hq : 0 < r.qty) (hne : b.core.newId r.orderId ≠ k)
    (ha : b.accept V r = some (i, b')) : Rested V k b₀ b' := by
  have hv := h.traced.wf.accept_view ha
  refine ⟨h.traced.accept hq hne ha, fun j hj => ?_⟩
  rw [show b'.core.stopOrders = b.core.stopOrders from congrArg View.stops hv] at hj
  rw [body_of_view hv]
  by_cases e : j = i
  · subst e
    rw [show (View.body _ j).id = _ from congrArg Order.id (update_self ..)]
    exact hne
  · rw [show View.body _ j = b.core.body j from update_of_ne e ..]
    exact h.unwaited j hj

theorem Rested.wait (h : Rested V k b₀ b) {f : Order → Order} {c : Core} (hwt : Waits 0 i f c b b') : Rested V k b₀ b' := by
  refine ⟨(traced_kept V k b₀).wait hwt h.traced, fun j hj => ?_⟩
  have hv := h.traced.wf.wait_view hwt.alloc hwt.core hwt.inFlight
  rw [body_of_view hv]
  by_cases e : j = i
  · subst e
    have hid : (f { id := b.core.newId 0 }).strip.id = b.core.newId 0 := hwt.id
    rw [show (View.body _ j).id = _ from congrArg Order.id (update_self ..), hid]
    exact h.traced.newId_ne
  · rw [show View.body _ j = b.core.body j from update_of_ne e ..]
    rw [show b'.core.stopOrders = b.core.stopOrders ++ [i] from congrArg View.stops hv] at hj
    rcases mem_append.mp hj with hj | hj
    · exact h.unwaited j hj
    · exact absurd (mem_singleton.mp hj) e

theorem rested_kept (V : Env) (k : Nat) (b₀ : Book) : Kept V (Rested V k b₀) where
  wf := fun h => h.traced.wf
  act := fun hk ha h => h.act ha (quiet_of_work _ hk)
  round := fun h => h.acts (ocoRound_does h.traced.wf).acts quiet_of_tidy
  enter := by
    intro b b' r i h0 hq ha h
    refine h.accept hq ?_ ha
    rw [h0]
    exact h.traced.newId_ne
  wait := fun hwt h => h.wait hwt
  link := fun x y _ _ _ h => h.acts (linkOco_does x y trivial).acts quiet_of_tidy

/-- What is found under the id rests in a queue. -/
theorem Rested.queued (h : Rested V k b₀ b) (hf : b.core.find k = some i) : b.core.Queued V i := by
  obtain ⟨hid, hl⟩ := h.traced.wf.found hf
  exact hl.resolve_left fun hs => h.unwaited i hs hid

/-! ## What entries under other ids keep -/

/-- A property that the steps of a call keep, and the entry of an order under another id than `k`. -/
structure Carried (V : Env) (k : Nat) (I : Book → Prop) : Prop where
  kept : Kept V I
  enter : ∀ {b b' : Book} {r : Request} {i : Nat}, 0 < r.qty → b.core.newId r.orderId ≠ k → b.accept V r = some (i, b') →
    I b → I b'

theorem traced_carried (V : Env) (k : Nat) (b₀ : Book) : Carried V k (Traced V k b₀) :=
  ⟨traced_kept V k b₀, fun hq hne ha h => h.accept hq hne ha⟩

theorem rested_carried (V : Env) (k : Nat) (b₀ : Book) : Carried V k (Rested V k b₀) :=
  ⟨rested_kept V k b₀, fun hq hne ha h => h.accept hq hne ha⟩

/-! ## One injection -/

theorem reject_carried (hI : Kept V I) (why : RejectReason) (h : I b) : I ((b.admission V r).2.reject r why) :=
  hI.does (Does.trans (admission_does trivial) (reject_does why trivial)) h

theorem reject_core (why : RejectReason) : ((b.admission V r).2.reject r why).core = b.core := by
  obtain ⟨⟨g, a, he, -⟩, -⟩ := admission_spec
  rw [he]
  rfl

/-- The refusal is published. -/
theorem reject_told (why : RejectReason) : ∃ e, ((b.admission V r).2.reject r why).tape.events = b.tape.events ++ [e] ∧
    e.type = .reject ∧ e.orderId = r.orderId := by
  obtain ⟨⟨g, a, he, -⟩, -⟩ := admission_spec
  rw [he]
  exact ⟨_, rfl, rfl, rfl⟩

/-- The admitted order `r` is accepted in slot `i` and comes to rest. -/
structure Enters (V : Env) (r : Request) (b : Book) (i : Nat) (b₁ b' : Book) : Prop where
  passed : (b.admission V r).1 = none
  accepted : (b.admission V r).2.accept V r = some (i, b₁)
  grid : inRange V r.priceTicks
  rests : b' = b₁.restOrder i

/-- A limit order for the day is refused in auction mode, or rests whole. -/
theorem injected (hw : Wf V b) (ha : b.gates.inAuctionMode) (ht : r.type = .limit) (hd : r.tif = .day)
    {x : Nat × RejectReason} (hs : Book.submit V n r b = some (x, b')) :
    (∃ why, x = (0, why) ∧ b' = (b.admission V r).2.reject r why) ∨
      ∃ i b₁, x.1 = (b₁.core.body i).id ∧ Enters V r b i b₁ b' := by
  rcases submit_cases hw (.inl trivial) hs with ⟨why, hx, he, -⟩ | ⟨i, b₁, b2, m, rfl, hc, hmatch⟩
  · exact .inl ⟨why, hx, he⟩
  · obtain ⟨hq, -⟩ := (admission_spec).2 hc.passed
    have hw0 : Wf V (b.admission V r).2 := (admission_does (K := quietKinds) trivial).wf hw
    have hoff : b₁.matchesOnEntry r = false := by
      unfold Book.matchesOnEntry
      rw [(Book.accept_rest hc.accepted).2.2.2.1, admission_auction ha]
      simp
    rw [hoff] at hmatch
    cases hmatch
    have hgrid : inRange V r.priceTicks := admission_grid hc.passed (by rw [ht]; decide)
    have hbody := accept_body hw0 hc.accepted
    have hfin := hc.finished
    unfold Book.finish at hfin
    dsimp only at hfin
    have e1 : (b₁.order i).filledQty = 0 := congrArg Order.filledQty hbody
    have e2 : (b₁.order i).totalQty = r.qty := congrArg Order.totalQty hbody
    have e3 : (b₁.order i).type = r.type := congrArg Order.type hbody
    have e4 : (b₁.order i).tif = r.tif := congrArg Order.tif hbody
    have e5 : (b₁.order i).priceTicks = r.priceTicks := congrArg Order.priceTicks hbody
    rw [e1, e2, e3, e4, e5, if_neg (by omega), if_neg (by rw [ht, hd]; decide), if_pos hgrid] at hfin
    cases hfin
    exact .inr ⟨i, b₁, rfl, hc.passed, hc.accepted, hgrid, rfl⟩

theorem Enters.qty (h : Enters V r b i b₁ b') : 0 < r.qty := ((admission_spec (V := V) (b := b) (r := r)).2 h.passed).1

theorem Enters.unused (h : Enters V r b i b₁ b') (h0 : r.orderId ≠ 0) : b.core.find r.orderId = none :=
  ((admission_spec).2 h.passed).2 h0

theorem Enters.admitted_core (b : Book) (r : Request) : (b.admission V r).2.core = b.core := by
  obtain ⟨⟨g, a, he, -⟩, -⟩ := admission_spec
  rw [he]

theorem Enters.body (h : Enters V r b i b₁ b') (hw : Wf V b) :
    b₁.core.body i = r.order (b.core.newId r.orderId) (V.clock (b.admission V r).2.asked) := by
  have hw0 : Wf V (b.admission V r).2 := (admission_does (K := quietKinds) trivial).wf hw
  rw [accept_body hw0 h.accepted, Enters.admitted_core]

theorem Enters.id (h : Enters V r b i b₁ b') (hw : Wf V b) (h0 : r.orderId ≠ 0) : (b₁.core.body i).id = r.orderId := by
  rw [h.body hw]
  show b.core.newId r.orderId = r.orderId
  unfold Core.newId
  rw [if_neg h0]

theorem Enters.flying (h : Enters V r b i b₁ b') : i ∈ b₁.inFlight := by
  rw [accept_inFlight h.accepted]
  exact mem_cons_self

theorem Enters.left (h : Enters V r b i b₁ b') (hw : Wf V b) : (b₁.core.body i).filledQty < (b₁.core.body i).totalQty := by
  rw [h.body hw]
  exact h.qty

theorem Enters.act (h : Enters V r b i b₁ b') (hw : Wf V b) : Act V .finish b₁ b' := by
  rw [h.rests]
  refine .rest i h.flying (h.left hw) ?_
  rw [h.body hw]
  exact h.grid

theorem Enters.inFlight (h : Enters V r b i b₁ b') (hx : b.inFlight = []) : b'.inFlight = [] := by
  rw [h.rests, Book.restOrder_inFlight, accept_inFlight h.accepted, (admission_does (K := quietKinds) trivial).inFlight, hx]
  exact erase_cons_head ..

/-- Another order is not concerned. -/
theorem Enters.carried (h : Enters V r b i b₁ b') (hw : Wf V b) (hI : Carried V k I) (hne : b.core.newId r.orderId ≠ k)
    (hb : I b) : I b' := by
  have h0 : I (b.admission V r).2 := hI.kept.does (admission_does trivial) hb
  have h1 : I b₁ := hI.enter h.qty (by rw [Enters.admitted_core]; exact hne) h.accepted h0
  exact hI.kept.act (k := .finish) trivial (h.act hw) h1

/-- The order is found under its id from now on. -/
theorem Enters.rested (h : Enters V r b i b₁ b') (hx : b.inFlight = []) (h0 : r.orderId ≠ 0) (ht : Traced V r.orderId b₀ b) :
    Rested V r.orderId b' b' ∧ b'.core.find r.orderId = some i ∧
      ∃ e o, b'.log = e :: .accept o :: b.log ∧ o.id = r.orderId := by
  have hw := ht.wf
  have hw0 : Wf V (b.admission V r).2 := (admission_does (K := quietKinds) trivial).wf hw
  have hw1 : Wf V b₁ := (Act.accept r i h.qty (fun hn => by rw [Enters.admitted_core]; exact h.unused hn) h.accepted).wf hw0
  have hid := h.id hw h0
  have hv1 := hw0.accept_view h.accepted
  have hgrid : inRange V (b₁.order i).priceTicks := by
    have hprice : (b₁.order i).priceTicks = r.priceTicks := congrArg Order.priceTicks (h.body hw)
    rw [hprice]
    exact h.grid
  have hv := hw1.restOrder_view h.flying hgrid
  rw [← h.rests] at hv
  have hidrest : (b₁.core.body i).atRest.id = r.orderId := by
    unfold Order.atRest
    split <;> exact hid
  have hfind : b'.core.find r.orderId = some i := by
    have hidx : b'.core.idIndex = b₁.core.idIndex.insert (b₁.core.body i).atRest.id i := index_of_view hv
    unfold Core.find
    rw [hidx, hidrest, AList.lookup_insert]
  -- No order was live under the id, and the one accepted is the only one now.
  have hids : ∀ j, j ≠ i → b'.core.body j = b.core.body j := by
    intro j hj
    rw [body_of_view hv]
    show update b₁.core.body i _ j = _
    rw [update_of_ne hj, body_of_view hv1]
    show update (b.admission V r).2.core.body i _ j = _
    rw [update_of_ne hj, Enters.admitted_core]
  have hlive : ∀ j, j ≠ i → b'.Live V j → b.Live V j := by
    intro j hj hl
    have h1 : b₁.Live V j := (Moves.live (hw1.restOrder h.flying (h.left hw) hgrid).moves (by simpa using hj)).mp
      (h.rests ▸ hl)
    have h2 := (Moves.live (hw0.accept h.qty h.accepted).moves (by simpa using hj)).mp h1
    unfold Book.Live at h2 ⊢
    rwa [Enters.admitted_core] at h2
  have halone : ∀ j, b'.Live V j → (b'.core.body j).id = r.orderId → j = i := by
    intro j hl hj
    by_contra hne
    rw [hids j hne] at hj
    have := ht.sole.live j (hlive j hne hl) hj
    rw [h.unused h0] at this
    cases this
  refine ⟨⟨Traced.refl ((h.act hw).wf hw1) ⟨fun j hl hj => ?_, fun j hj => ?_⟩ ?_, fun j hj hjk => ?_⟩, hfind, ?_⟩
  · rw [halone j hl hj]
    exact hfind
  · rw [h.inFlight hx] at hj
    cases hj
  · have hnext : b.core.nextOrderId ≤ b'.core.nextOrderId := by
      have h1 := next_le (accept_next h.accepted)
      rw [Enters.admitted_core] at h1
      exact h1.trans ((h.act hw).nextOrderId_le (by simp) hw1)
    exact ht.past.trans_le hnext
  · have hji := halone j (.inr hj) hjk
    have hmem : i ∈ b'.core.queue V (b₁.core.body i).atRest.priceTicks := by
      rw [queue_of_view hv]
      simp [View.settle]
    exact ((h.act hw).wf hw1).stop_ne_queued hj hmem hji
  · refine ⟨.rest (b₁.order i).atRest, b₁.order i, ?_, hid⟩
    obtain ⟨⟨g, a, he, -⟩, -⟩ := admission_spec
    rw [h.rests, Book.restOrder_log, (Book.accept_rest h.accepted).1, he]

/-! ## The price range of the book -/

/-- One side shows a price. -/
def Book.Priced (b : Book) : Prop := ∃ s : Side, b.core.best s ≠ s.noBest

theorem bookRange_none_iff (b : Book) : b.bookRange = none ↔ ¬ b.Priced := by
  have hsides : b.Priced ↔ b.core.hasBid ∨ b.core.hasAsk := by
    constructor
    · intro h
      obtain ⟨s, hs⟩ := h
      cases s with
      | buy => exact .inl (decide_eq_true hs)
      | sell => exact .inr (decide_eq_true hs)
    · intro h
      rcases h with h | h
      · exact ⟨.buy, of_decide_eq_true h⟩
      · exact ⟨.sell, of_decide_eq_true h⟩
  rw [hsides]
  unfold Book.bookRange
  cases b.core.hasBid <;> cases b.core.hasAsk <;> simp

theorem Enters.quoted (h : Enters V r b i b₁ b') (hw : Wf V b) (ht : r.type = .limit) : b'.Priced := by
  have hbody := h.body hw
  have htype : (b₁.order i).type ≠ .hidden := by
    rw [show (b₁.order i).type = r.type from congrArg Order.type hbody, ht]
    decide
  have hprice : (b₁.order i).priceTicks = r.priceTicks := congrArg Order.priceTicks hbody
  refine ⟨(b₁.order i).side, ?_⟩
  rw [h.rests, (rest_best htype rfl).2]
  split
  · rw [hprice]
    intro hn
    exact Side.not_inRange_noBest V _ (hn ▸ h.grid)
  · rename_i hc
    exact fun hn => hc (.inl hn)

end

end HftLab.OrderBook
