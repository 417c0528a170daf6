/-
  HftLab.OrderBook.Views — the book as queues of orders.

  `View`: what is left of a book when the links, the free list and the sums are forgotten: the queue
  of each price, the order in each slot, the index, the waiting stops and the orders in flight. Each
  transition of the code is an operation on views (`Book.cancelInternal_view`, `Book.executed_view`, ..).
-/

import HftLab.OrderBook.Acts

namespace HftLab.OrderBook

open Lib Function List

@[ext]
structure View where
  queue : Int → List Nat
  body : Nat → Order
  index : AList (fun _ : Nat => Nat)
  stops : List Nat
  flight : List Nat

def Book.view (V : Env) (b : Book) : View where
  queue := b.core.queue V
  body := b.core.body
  index := b.core.idIndex
  stops := b.core.stopOrders
  flight := b.inFlight

namespace View

variable (v : View)

def setBody (i : Nat) (o : Order) : View := { v with body := Function.update v.body i o }

/-- The order in slot `i` of level `p` leaves the book. -/
def leave (p : Int) (i : Nat) (s : OrderStatus) : View :=
  { v with queue := Function.update v.queue p ((v.queue p).erase i)
           body := Function.update v.body i { v.body i with status := s }
           index := v.index.erase (v.body i).id }

/-- The order `o` takes slot `i` and joins the queue of its price. -/
def settle (i : Nat) (o : Order) : View :=
  { v with queue := Function.update v.queue o.priceTicks (v.queue o.priceTicks ++ [i])
           body := Function.update v.body i o
           index := v.index.insert o.id i }

/-- The order `o` takes slot `i` and waits for its trigger. -/
def wait (i : Nat) (o : Order) : View :=
  { v with body := Function.update v.body i o, index := v.index.insert o.id i, stops := v.stops ++ [i] }

/-- The stop at position `k` leaves, as `o`. -/
def unwait (k i : Nat) (o : Order) : View :=
  { v with body := Function.update v.body i o, index := v.index.erase (v.body i).id, stops := swapErase v.stops k }

/-- `q` of the maker in slot `i` is executed against the taker in slot `t`. -/
def exchange (t i : Nat) (q : Int) : View :=
  { v with body := Function.update (Function.update v.body t ((v.body t).tookBy q)) i ((v.body i).filledBy q) }

/-- The iceberg in slot `i` shows `shown` and goes to the end of the queue of level `p`. -/
def refresh (p : Int) (i : Nat) (shown : Int) : View :=
  { v with queue := Function.update v.queue p ((v.queue p).erase i ++ [i])
           body := Function.update v.body i { v.body i with displayedQty := shown } }

/-- The order in slot `i` moves from level `p` to the end of the queue of level `q`. -/
def reprice (p q : Int) (i : Nat) : View :=
  { v with queue := requeued v.queue p q i, body := Function.update v.body i { v.body i with priceTicks := q } }

end View

section

variable {V : Env} {b b' : Book} {p : Int} {i t : Nat}
    {v : View} {s : OrderStatus} {k oid : Nat} {o : Order} {c : Core} {x y q : Int} {f : Order → Order}

theorem SameSlots.view (h : SameSlots b b') : b'.view V = b.view V :=
  View.ext h.queue h.body h.idIndex h.stopOrders h.inFlight

theorem queue_of_view (h : b'.view V = v) : b'.core.queue V = v.queue := congrArg View.queue h

theorem body_of_view (h : b'.view V = v) : b'.core.body = v.body := congrArg View.body h

/-- A slot taken out of its queue is in none. -/
theorem Wf.not_queued_of_erase (h : Wf V b) (hi : i ∈ b.core.queue V p)
    (hq : b'.core.queue V = update (b.core.queue V) p ((b.core.queue V p).erase i)) : ¬ b'.core.Queued V i := by
  rintro ⟨r, hm⟩
  rw [hq] at hm
  by_cases e : r = p
  · subst e
    rw [update_self] at hm
    exact (h.links.level r).nodup.not_mem_erase hm
  · rw [update_of_ne e] at hm
    exact e (h.links.unique hm hi)

/-! ## Leaving -/

theorem Wf.leave_view (h : Wf V b) (hi : i ∈ b.core.queue V p) (hc : b'.core = b.core.leave V i s) (hx : b'.inFlight = b.inFlight) :
    b'.view V = (b.view V).leave p i s := by
  obtain ⟨hidx, hst, -⟩ := b.core.leave_rest
  refine View.ext ?_ ?_ ?_ ?_ hx
  · show b'.core.queue V = _
    rw [hc]
    exact (h.links.leave hi).queue_eq
  · show b'.core.body = _
    rw [hc]
    exact b.core.leave_body
  · show b'.core.idIndex = _
    rw [hc]
    exact hidx
  · show b'.core.stopOrders = _
    rw [hc]
    exact hst

theorem Wf.cancelInternal_view (h : Wf V b) (hi : i ∈ b.core.queue V p) (e : Bool) :
    (b.cancelInternal V i e).view V = (b.view V).leave p i .cancelled :=
  h.leave_view hi (Book.cancelInternal_core (h.resting hi).active) Book.cancelInternal_inFlight

theorem Wf.expireOrder_view (h : Wf V b) (hi : i ∈ b.core.queue V p) :
    (b.expireOrder V i).view V = (b.view V).leave p i .expired := h.leave_view hi rfl rfl

theorem Wf.drop_view (h : Wf V b) (hi : i ∈ b.inFlight) (hc : b'.core = (b.core.setStatus i s).freeOrder i)
    (hx : b'.inFlight = b.inFlight.erase i) :
    b'.view V = { (b.view V).setBody i { b.core.body i with status := s } with flight := b.inFlight.erase i } := by
  refine View.ext ?_ ?_ ?_ ?_ hx
  · show b'.core.queue V = _
    rw [hc]
    exact ((h.links.setStatus i s).freeOrder hi).queue_eq
  · show b'.core.body = _
    rw [hc, Core.freeOrder_body, Core.setStatus_body]
    rfl
  · show b'.core.idIndex = _
    rw [hc]
    rfl
  · show b'.core.stopOrders = _
    rw [hc]
    rfl

theorem Wf.unwait_view (h : Wf V b) (hk : b.core.stopOrders[k]? = some i) (hc : b'.core = b.core.unwait k i o)
    (hx : b'.inFlight = b.inFlight) : b'.view V = (b.view V).unwait k i o.strip := by
  have h1 := (h.links.unpark hk).setOrder_out (mem_append_right _ mem_cons_self) o
  have h2 := (h1.eraseId (b.core.pool i).id).freeOrder mem_cons_self
  refine View.ext ?_ ?_ ?_ ?_ hx
  · show b'.core.queue V = _
    rw [hc]
    exact h2.queue_eq
  · show b'.core.body = _
    rw [hc]
    unfold Core.unwait
    rw [Core.freeOrder_body]
    exact Core.setOrder_body ..
  · show b'.core.idIndex = _
    rw [hc]
    rfl
  · show b'.core.stopOrders = _
    rw [hc]
    rfl

theorem Wf.cancelPendingStop_view (h : Wf V b) (hi : i ∈ b.core.stopOrders) : ∃ k, b.core.stopOrders[k]? = some i ∧
    (b.cancelPendingStop i).2.view V = (b.view V).unwait k i { b.core.body i with status := .cancelled } := by
  unfold Book.cancelPendingStop
  cases hk : b.core.stopOrders.idxOf? i with
  | none => exact absurd hi (by simpa using hk)
  | some k =>
    have hm := getElem_of_idxOf hk
    exact ⟨k, hm, h.unwait_view (o := { b.core.pool i with status := .cancelled }) hm rfl rfl⟩

theorem Wf.releaseStop_view (h : Wf V b) (hk : b.core.stopOrders[k]? = some i) :
    (b.releaseStop k i).view V = (b.view V).unwait k i (b.core.body i) := by
  refine h.unwait_view hk ?_ rfl
  unfold Core.unwait Core.setOrder
  rw [update_eq_self]
  rfl

/-! ## Entering -/

theorem Allocated.view_core (h : Allocated V b.inFlight i o b.core c) :
    c.queue V = b.core.queue V ∧ c.body = update b.core.body i o.strip ∧ c.idIndex = b.core.idIndex ∧
      c.stopOrders = b.core.stopOrders := by
  obtain ⟨⟨G, -, hl⟩, hb, hrest⟩ := h
  refine ⟨hl.queue_eq, hb, ?_, ?_⟩
  · rw [hrest]
  · rw [hrest]

theorem Wf.accept_view (h : Wf V b) {r : Request} (ha : b.accept V r = some (i, b')) :
    b'.view V = { (b.view V).setBody i (r.order (b.core.newId r.orderId) (V.clock b.asked)) with
      flight := i :: b.inFlight } := by
  obtain ⟨hal, hx⟩ := Book.accept_eq h.links ha
  obtain ⟨h1, h2, h3, h4⟩ := hal.view_core
  exact View.ext h1 h2 h3 h4 hx

theorem Layout.settle_view {F X : List Nat} {Q : Int → List Nat} (hl : Layout V c F Q X) (hi : i ∈ X)
    (hr : inRange V o.priceTicks) {ps : List Nat}
    (hc : b'.core = { c.settle i o with bestBid := x, bestAsk := y, pegOrders := ps }) :
    b'.view V = { queue := update Q o.priceTicks (Q o.priceTicks ++ [i])
                  body := update c.body i o.strip
                  index := c.idIndex.insert o.id i
                  stops := c.stopOrders
                  flight := b'.inFlight } := by
  refine View.ext ?_ ?_ ?_ ?_ rfl
  · show b'.core.queue V = _
    rw [hc]
    exact ((hl.settle hi hr).same rfl rfl rfl rfl rfl).queue_eq
  · show b'.core.body = _
    rw [hc]
    exact c.settle_body o
  · show b'.core.idIndex = _
    rw [hc]
    exact c.settle_index o
  · show b'.core.stopOrders = _
    rw [hc]
    rfl

theorem Wf.restOrder_view (h : Wf V b) (hi : i ∈ b.inFlight) (hr : inRange V (b.order i).priceTicks) :
    (b.restOrder i).view V =
      { (b.view V).settle i (b.core.body i).atRest with flight := b.inFlight.erase i } := by
  obtain ⟨x, y, hc⟩ := Book.restOrder_core
  have hstrip : (b.core.body i).atRest = (b.order i).atRest.strip := (Order.atRest_strip _).symm
  rw [h.links.settle_view hi (by rwa [Order.atRest_price]) (hc.trans rfl),
    Book.restOrder_inFlight, hstrip]
  rfl

theorem Wf.peg_view (h : Wf V b) (ha : b.core.allocAs oid f = some (i, c))
    (hr : inRange V (f { id := b.core.newId oid }).priceTicks)
    (hc : b'.core = { c.settle i (c.pool i) with bestBid := x, bestAsk := y, pegOrders := c.pegOrders ++ [i] })
    (hx : b'.inFlight = b.inFlight) : b'.view V = (b.view V).settle i (f { id := b.core.newId oid }).strip := by
  have hal := h.links.allocAs ha
  obtain ⟨-, hb, hidx, hst⟩ := hal.view_core
  obtain ⟨⟨G, hF, hl⟩, -, -⟩ := hal
  have hbi : (f { id := b.core.newId oid }).strip = (c.pool i).strip := by
    show _ = c.body i
    rw [hb, update_self]
  have hprice : (c.pool i).priceTicks = (f { id := b.core.newId oid }).priceTicks := (congrArg Order.priceTicks hbi).symm
  have hid : (c.pool i).id = (f { id := b.core.newId oid }).id := (congrArg Order.id hbi).symm
  rw [hl.settle_view mem_cons_self (hprice ▸ hr) hc, hb, update_idem, hidx, hst, hx, ← hbi, hprice, hid]
  rfl

theorem Wf.wait_view (h : Wf V b) (ha : b.core.allocAs oid f = some (i, c))
    (hc : b'.core = { c with stopOrders := c.stopOrders ++ [i] }.indexOrder i) (hx : b'.inFlight = b.inFlight) :
    b'.view V = (b.view V).wait i (f { id := b.core.newId oid }).strip := by
  have hal := h.links.allocAs ha
  obtain ⟨hQ, hb, hidx, hst⟩ := hal.view_core
  have hid : (c.pool i).id = (f { id := b.core.newId oid }).id := by
    have : (c.body i).id = (f { id := b.core.newId oid }).strip.id := by rw [hb, update_self]
    exact this
  refine View.ext ?_ ?_ ?_ ?_ hx
  · show b'.core.queue V = _
    rw [hc]
    exact hQ
  · show b'.core.body = _
    rw [hc]
    exact hb
  · show b'.core.idIndex = _
    rw [hc]
    show c.idIndex.insert (c.pool i).id i = _
    rw [hidx, hid]
    rfl
  · show b'.core.stopOrders = _
    rw [hc]
    rw [hst]
    rfl

/-! ## Executions -/

/-- The three ways an execution of `q` can leave the maker in slot `i`. -/
inductive ExecView (V : Env) (b : Book) (p : Int) (t i : Nat) (q : Int) (b' : Book) : Prop
  | refresh (shown : Int) : (b.core.body i).displayedQty = q → 0 < shown → shown ≤ (b.core.body i).remainingQty - q →
      (b.core.body i).type = .iceberg → b'.view V = ((b.view V).exchange t i q).refresh p i shown →
      ExecView V b p t i q b'
  | complete : (b.core.body i).totalQty ≤ (b.core.body i).filledQty + q →
      b'.view V = ((b.view V).exchange t i q).leave p i .filled → ExecView V b p t i q b'
  | partial_ : (b.core.body i).filledQty + q < (b.core.body i).totalQty →
      ((b.core.body i).displayedQty = q → (b.core.body i).type ≠ .iceberg) →
      b'.view V = ((b.view V).exchange t i q).setBody i { (b.core.body i).filledBy q with status := .partiallyFilled } →
      ExecView V b p t i q b'

theorem Wf.executed_view (h : Wf V b) (hi : i ∈ b.core.queue V p) (ht : t ∈ b.inFlight) (ts : Nat) (q : Int) :
    ExecView V b p t i q (b.executed V p t ts i q) := by
  have hne := h.flying_ne_queued hi ht
  have hl := h.links.fill (p := p) (t := t) (i := i) (q := q)
  have hbody := Core.fill_body (c := b.core) (p := p) (q := q) hne
  have hx : (b.executed V p t ts i q).inFlight = b.inFlight := Book.settleMaker_inFlight
  have hs : Settled b p t i q (b.executed V p t ts i q) := Book.settled hne
  have hbi : (b.core.fill p t i q).body i = (b.core.body i).filledBy q := by rw [hbody, update_self]
  cases hs with
  | refresh shown hD hpos hle htype hc =>
    obtain ⟨hidx, hst, -⟩ := Core.refresh_rest shown
    refine .refresh shown hD hpos hle htype (View.ext ?_ ?_ ?_ ?_ hx)
    · show Core.queue V (Book.core _) = _
      rw [hc]
      exact (hl.refresh hi shown).queue_eq
    · show Core.body (Book.core _) = _
      rw [hc, Core.refresh_body, hbody]
      rfl
    · show Core.idIndex (Book.core _) = _
      rw [hc]
      exact hidx
    · show Core.stopOrders (Book.core _) = _
      rw [hc]
      exact hst
  | complete hdone hc =>
    refine .complete hdone (View.ext ?_ ?_ ?_ ?_ hx)
    · show Core.queue V (Book.core _) = _
      rw [hc]
      exact (hl.complete hi).queue_eq
    · show Core.body (Book.core _) = _
      rw [hc, Core.complete_body, hbody]
      rfl
    · show Core.idIndex (Book.core _) = _
      rw [hc]
      show b.core.idIndex.erase ((b.core.fill p t i q).body i).id = _
      rw [hbody]
      rfl
    · show Core.stopOrders (Book.core _) = _
      rw [hc]
      rfl
  | partial_ hlt hty hc =>
    refine .partial_ hlt hty (View.ext ?_ ?_ ?_ ?_ hx)
    · show Core.queue V (Book.core _) = _
      rw [hc]
      exact (hl.setStatus i .partiallyFilled).queue_eq
    · show Core.body (Book.core _) = _
      rw [hc, Core.setStatus_body, hbi, hbody]
      rfl
    · show Core.idIndex (Book.core _) = _
      rw [hc]
      rfl
    · show Core.stopOrders (Book.core _) = _
      rw [hc]
      rfl

/-- What an execution of `q` makes of the maker in slot `i` and of the queue of its level. -/
inductive Executed (o : Order) (l : List Nat) (i : Nat) (q : Int) : Order → List Nat → Prop
  | refresh (shown : Int) : o.displayedQty = q → 0 < shown → shown ≤ o.remainingQty - q → o.type = .iceberg →
      Executed o l i q { o.filledBy q with displayedQty := shown } (l.erase i ++ [i])
  | complete : o.totalQty ≤ o.filledQty + q → Executed o l i q { o.filledBy q with status := .filled } (l.erase i)
  | partial_ : o.filledQty + q < o.totalQty → (o.displayedQty = q → o.type ≠ .iceberg) →
      Executed o l i q { o.filledBy q with status := .partiallyFilled } l

theorem Executed.sub {o' : Order} {l l' : List Nat} (h : Executed o l i q o' l') (hi : i ∈ l) {j : Nat} (hj : j ∈ l') : j ∈ l := by
  cases h with
  | refresh shown =>
    rcases mem_append.mp hj with hj | hj
    · exact mem_of_mem_erase hj
    · exact mem_singleton.mp hj ▸ hi
  | complete => exact mem_of_mem_erase hj
  | partial_ => exact hj

/-- An execution changes the taker, the maker and the queue of the level. -/
theorem Wf.executed_cases (h : Wf V b) (hi : i ∈ b.core.queue V p) (ht : t ∈ b.inFlight) (ts : Nat) (q : Int) :
    ∃ o l, Executed (b.core.body i) (b.core.queue V p) i q o l ∧
      (b.executed V p t ts i q).core.queue V = update (b.core.queue V) p l ∧
      (b.executed V p t ts i q).core.body =
        update (update b.core.body t ((b.core.body t).tookBy q)) i o := by
  cases h.executed_view hi ht ts q with
  | refresh shown hD hpos hle htype hv =>
    refine ⟨_, _, .refresh shown hD hpos hle htype, queue_of_view hv, ?_⟩
    rw [body_of_view hv]
    simp [View.refresh, View.exchange, Book.view]
  | complete hdone hv =>
    refine ⟨_, _, .complete hdone, queue_of_view hv, ?_⟩
    rw [body_of_view hv]
    simp [View.leave, View.exchange, Book.view]
  | partial_ hlt hty hv =>
    refine ⟨_, _, .partial_ hlt hty, ?_, ?_⟩
    · rw [queue_of_view hv, update_eq_self]
      rfl
    · rw [body_of_view hv]
      simp [View.setBody, View.exchange, Book.view]

/-- The two ways an auction fill can leave the order in slot `i`. -/
inductive AuctionView (V : Env) (b : Book) (p : Int) (i : Nat) (take : Int) (b' : Book) : Prop
  | complete : (b.core.body i).totalQty ≤ (b.core.body i).filledQty + take →
      b'.view V = ((b.view V).setBody i ((b.core.body i).auctioned take)).leave p i .filled → AuctionView V b p i take b'
  | partial_ : (b.core.body i).filledQty + take < (b.core.body i).totalQty →
      b'.view V = (b.view V).setBody i { (b.core.body i).auctioned take with status := .partiallyFilled } →
      AuctionView V b p i take b'

theorem Wf.auctionTake_view (h : Wf V b) (hi : i ∈ b.core.queue V p) (clearing take : Int) (ts : Nat) :
    AuctionView V b p i take (b.auctionTake p clearing i take ts) := by
  have hl := h.links.auctionFill p i take
  have hx := b.auctionTake_inFlight p clearing i take ts
  have hbody : (b.core.auctionFill p i take).body = update b.core.body i ((b.core.body i).auctioned take) :=
    Core.auctionFill_body
  cases b.auctioned p clearing i take ts with
  | complete hdone hc =>
    have hl' := ((((hl.setStatus i .filled).unlink hi).eraseId (b.order i).id).freeOrder mem_cons_self)
    refine .complete hdone (View.ext ?_ ?_ ?_ ?_ hx)
    · show Core.queue V (Book.core _) = _
      rw [hc]
      exact hl'.queue_eq
    · show Core.body (Book.core _) = _
      rw [hc, Core.freeOrder_body]
      show (Core.unlinkFromLevel _ i).body = _
      rw [Core.unlinkFromLevel_body, Core.setStatus_body, hbody]
      rfl
    · show Core.idIndex (Book.core _) = _
      rw [hc]
      show b.core.idIndex.erase (b.order i).id = b.core.idIndex.erase (update b.core.body i _ i).id
      rw [update_self]
      rfl
    · show Core.stopOrders (Book.core _) = _
      rw [hc]
      rfl
  | partial_ hlt hc =>
    refine .partial_ hlt (View.ext ?_ ?_ ?_ ?_ hx)
    · show Core.queue V (Book.core _) = _
      rw [hc]
      exact (hl.setStatus i .partiallyFilled).queue_eq
    · show Core.body (Book.core _) = _
      rw [hc, Core.setStatus_body, hbody, update_self, update_idem]
      rfl
    · show Core.idIndex (Book.core _) = _
      rw [hc]
      rfl
    · show Core.stopOrders (Book.core _) = _
      rw [hc]
      rfl

/-! ## Changes in place -/

theorem Wf.reduceInPlace_view (h : Wf V b) (id : Nat) (q : Int) :
    (b.reduceInPlace id i q).view V = (b.view V).setBody i ((b.core.body i).reduced q) := by
  have hl : Layout V (b.reduceInPlace id i q).core (b.core.freeList V) (b.core.queue V) b.inFlight := by
    refine Layout.setLevel ?_ rfl rfl
    exact h.links.setOrder rfl rfl rfl rfl
  refine View.ext hl.queue_eq ?_ rfl rfl rfl
  exact Core.setOrder_body ..

theorem Wf.touch_view (h : Wf V b)
    (ho : o = { b.core.pool i with expireTsNs := o.expireTsNs, stopTriggerTicks := o.stopTriggerTicks, pegOffsetTicks := o.pegOffsetTicks }) :
     (b.mapCore (·.setOrder i o)).view V = (b.view V).setBody i o.strip := by
  refine View.ext ?_ (Core.setOrder_body ..) rfl rfl rfl
  exact (h.links.setOrder (by rw [ho]; rfl) (by rw [ho]; rfl) (by rw [ho]; rfl) (by rw [ho]; rfl)).queue_eq

theorem Wf.reprice_view (h : Wf V b) (hi : i ∈ b.core.queue V p) (hr : inRange V q)
    (hc : b'.core = { b.core.reprice V i q with bestBid := x, bestAsk := y }) (hx : b'.inFlight = b.inFlight) :
    b'.view V = (b.view V).reprice p q i := by
  obtain ⟨hidx, hst, -⟩ := b.core.reprice_rest (q := q)
  refine View.ext ?_ ?_ ?_ ?_ hx
  · show b'.core.queue V = _
    rw [hc]
    exact ((h.links.reprice hi hr).same rfl rfl rfl rfl rfl).queue_eq
  · show b'.core.body = _
    rw [hc]
    exact b.core.reprice_body
  · show b'.core.idIndex = _
    rw [hc]
    exact hidx
  · show b'.core.stopOrders = _
    rw [hc]
    exact hst

end

end HftLab.OrderBook
