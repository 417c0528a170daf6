/-
  HftLab.OrderBook.Transitions — each transition of the source keeps a book well formed.

  For every piece of code that moves or rewrites an order there is one lemma here: the step is
  `Lawful` (or, when it frees the slot, `Releases`). In the order of the file: cancel and expiry,
  the release of a stop or of an order in flight, entry, rest and wait, the rewrites in place,
  repricing, execution against a maker, auction fills, `clear`.
-/

import HftLab.OrderBook.Wf

namespace HftLab.OrderBook

open Lib Function List

/-! ## An order leaves its level -/

/-- What `cancel_internal` and `expire_gtd` do to the core. -/
def Core.leave (V : Env) (c : Core) (i : Nat) (s : OrderStatus) : Core :=
  ((((c.unlinkFromLevel i).refreshIfEmptied V (c.pool i).side (c.pool i).priceTicks).setStatus i s).eraseId
    (c.pool i).id).freeOrder i

section

variable {V : Env} {b b' : Book} {i k oid : Nat} {p x y q : Int} {s : OrderStatus} {c : Core} {F X G : List Nat}
    {Q : Int → List Nat} {o : Order} {r : Request} {f : Order → Order}

theorem Layout.leave (h : Layout V c F Q X) (hi : i ∈ Q p) :
    Layout V (c.leave V i s) (i :: F) (update Q p ((Q p).erase i)) X := by
  obtain ⟨x, y, hr⟩ := (c.unlinkFromLevel i).refreshIfEmptied_eq (c.pool i).priceTicks V (c.pool i).side
  unfold Core.leave
  rw [hr]
  have h1 := (h.unlink hi).same (d := { c.unlinkFromLevel i with bestBid := x, bestAsk := y }) rfl rfl rfl rfl rfl
  have h2 := ((h1.setStatus i s).eraseId (c.pool i).id).freeOrder mem_cons_self
  rw [erase_cons_head] at h2
  exact h2

theorem Core.leave_body (c : Core) : (c.leave V i s).body = update c.body i { c.body i with status := s } := by
  obtain ⟨x, y, hr⟩ := (c.unlinkFromLevel i).refreshIfEmptied_eq (c.pool i).priceTicks V (c.pool i).side
  unfold Core.leave
  rw [hr, Core.freeOrder_body]
  show (({ c.unlinkFromLevel i with bestBid := x, bestAsk := y } : Core).setStatus i s).body = _
  rw [Core.setStatus_body]
  show update (c.unlinkFromLevel i).body i { (c.unlinkFromLevel i).body i with status := s } = _
  rw [Core.unlinkFromLevel_body]

theorem Core.leave_rest (c : Core) :
    (c.leave V i s).idIndex = c.idIndex.erase (c.pool i).id ∧ (c.leave V i s).stopOrders = c.stopOrders ∧
      (c.leave V i s).pegOrders = c.pegOrders := by
  obtain ⟨x, y, hr⟩ := (c.unlinkFromLevel i).refreshIfEmptied_eq (c.pool i).priceTicks V (c.pool i).side
  unfold Core.leave
  rw [hr]
  exact ⟨rfl, rfl, rfl⟩

/-- The order in slot `i` leaves level `p` for good. -/
theorem Wf.leave (h : Wf V b) (hi : i ∈ b.core.queue V p) (hc : b'.core = b.core.leave V i s)
    (hx : b'.inFlight = b.inFlight) (hs : s ≠ .open ∧ s ≠ .partiallyFilled) : Releases V i b b' := by
  have hrest := b.core.leave_rest (V := V) (i := i) (s := s)
  have hl := h.links.leave (s := s) hi
  rw [← hc, ← hx] at hl
  refine hl.release (fun j hj q => mem_update_erase hj) ?_ ?_ ?_ ?_ ?_ ?_
  · rw [hc, hrest.2.1]
    exact fun _ _ => Iff.rfl
  · rw [hx]
    exact fun _ _ => Iff.rfl
  · intro j hj
    rw [hc, Core.leave_body, update_of_ne hj]
  · rw [hc, Core.leave_body, update_self]
    simp [Order.isActive, hs.1, hs.2]
  · intro k j hk
    have hk' : (b.core.eraseId (b.core.pool i).id).find k = some j := by
      rw [← hk, hc]
      simp only [Core.find, Core.eraseId, hrest.1]
    refine ⟨?_, (find_of_erase hk').2⟩
    rintro rfl
    exact h.find_erase_ne rfl k hk'
  · rw [hc, hrest.2.2]

namespace Book

theorem cancelInternal_core {e : Bool} (ha : (b.order i).isActive) :
    (b.cancelInternal V i e).core = b.core.leave V i .cancelled := by
  unfold cancelInternal
  simp only [ha, Bool.not_true, Bool.false_eq_true, if_false]
  cases e <;> rfl

theorem pushDelta_trades (b : Book) (type : DeltaType) (side : Side) (price newQty : Int) :
    (b.pushDelta type side price newQty).tape.trades = b.tape.trades := by
  unfold pushDelta
  split <;> rfl

/-- What a cancel does outside the core. -/
theorem cancelInternal_rest (e : Bool) (ha : (b.order i).isActive) :
    (b.cancelInternal V i e).log = (if e then .cancel (b.order i) else .replace (b.order i)) :: b.log ∧
    (b.cancelInternal V i e).exposure =
      (b.exposureOnCancel (b.order i).clientId (b.order i).side (b.order i).remainingQty).exposure ∧
    (b.cancelInternal V i e).oco = b.oco.complete (b.order i).id ∧
    (b.cancelInternal V i e).gates = b.gates ∧ (b.cancelInternal V i e).tape.trades = b.tape.trades := by
  unfold cancelInternal
  simp only [ha, Bool.not_true, Bool.false_eq_true, if_false]
  cases e
  · exact ⟨rfl, rfl, rfl, rfl, pushDelta_trades ..⟩
  · exact ⟨rfl, rfl, rfl, rfl, pushDelta_trades ..⟩

theorem cancelInternal_inFlight {e : Bool} : (b.cancelInternal V i e).inFlight = b.inFlight := by
  unfold cancelInternal
  cases e <;> dsimp only <;> split <;> rfl

theorem cancelInternal_of_inactive {e : Bool} (ha : (b.order i).isActive = false) : b.cancelInternal V i e = b := by
  simp [cancelInternal, ha]

end Book

theorem Wf.cancelInternal (h : Wf V b) (hi : i ∈ b.core.queue V p) (e : Bool) :
    Releases V i b (b.cancelInternal V i e) :=
  h.leave hi (Book.cancelInternal_core (h.resting hi).active) Book.cancelInternal_inFlight (by simp)

theorem Wf.expireOrder (h : Wf V b) (hi : i ∈ b.core.queue V p) : Releases V i b (b.expireOrder V i) :=
  h.leave hi rfl rfl (by simp)

/-! ## A waiting stop, or an order in flight, is released -/

theorem Wf.not_found_of_flying (h : Wf V b) (hi : i ∈ b.inFlight) (k : Nat) : b.core.find k ≠ some i := by
  intro hk
  rcases (h.found hk).2 with hs | ⟨p, hq⟩
  · have hn := h.links.nodup
    exact (nodup_append.mp hn).2.2 i (mem_append_right _ hs) i hi rfl
  · exact h.links.apart p i hq (mem_append_right _ hi)

/-- The stop at position `k` of `stop_orders_` is taken out and its slot freed. -/
def Core.unwait (c : Core) (k i : Nat) (o : Order) : Core :=
  ((({ c with stopOrders := swapErase c.stopOrders k } : Core).setOrder i o).eraseId (c.pool i).id).freeOrder i

theorem Wf.unwait (h : Wf V b) (hk : b.core.stopOrders[k]? = some i) (ho : o.isActive = false)
    (hc : b'.core = b.core.unwait k i o) (hx : b'.inFlight = b.inFlight) : Releases V i b b' := by
  have h1 := (h.links.unpark hk).setOrder_out (mem_append_right _ mem_cons_self) o
  have h2 := (h1.eraseId (b.core.pool i).id).freeOrder mem_cons_self
  rw [erase_cons_head] at h2
  have hl : Layout V b'.core (i :: b.core.freeList V) (b.core.queue V) b'.inFlight := by
    rw [hc, hx]
    exact h2
  have hperm := swapErase_perm hk
  refine hl.release (fun _ _ _ => Iff.rfl) ?_ ?_ ?_ ?_ ?_ ?_
  · intro j hj
    rw [hc, hperm.mem_iff, mem_cons]
    exact ⟨.inr, fun hm => hm.resolve_left hj⟩
  · rw [hx]
    exact fun _ _ => Iff.rfl
  · intro j hj
    rw [hc]
    unfold Core.unwait
    rw [Core.freeOrder_body]
    show Core.body (Core.setOrder _ i o) j = _
    rw [Core.setOrder_body, update_of_ne hj]
    rfl
  · rw [hc]
    unfold Core.unwait
    rw [Core.freeOrder_body]
    show (Core.body (Core.setOrder _ i o) i).isActive = _
    rw [Core.setOrder_body, update_self]
    exact ho
  · intro k j hk
    rw [hc] at hk
    have hk' : (b.core.eraseId (b.core.pool i).id).find k = some j := hk
    refine ⟨?_, (find_of_erase hk').2⟩
    rintro rfl
    exact h.find_erase_ne rfl k hk'
  · rw [hc]
    rfl

theorem getElem_of_idxOf {l : List Nat} (h : l.idxOf? i = some k) : l[k]? = some i := by
  obtain ⟨hk, hv, -⟩ := List.findIdx?_eq_some_iff_getElem.mp h
  rw [List.getElem?_eq_getElem hk]
  simpa using hv

/-- A waiting stop is cancelled; a slot that does not hold one is left alone. -/
theorem Wf.cancelPendingStop (h : Wf V b) :
    (i ∉ b.core.stopOrders ∧ b.cancelPendingStop i = (false, b)) ∨
      (i ∈ b.core.stopOrders ∧ (b.cancelPendingStop i).1 ∧ Releases V i b (b.cancelPendingStop i).2) := by
  unfold Book.cancelPendingStop
  cases hk : b.core.stopOrders.idxOf? i with
  | none => exact .inl ⟨by simpa using hk, rfl⟩
  | some k =>
    have hm := getElem_of_idxOf hk
    refine .inr ⟨mem_of_getElem? hm, rfl, ?_⟩
    exact h.unwait hm rfl rfl rfl

theorem Wf.releaseStop (h : Wf V b) (hk : b.core.stopOrders[k]? = some i) : Releases V i b (b.releaseStop k i) := by
  have hw := (h.placed i).waiting (mem_of_getElem? hk)
  refine h.unwait (o := b.core.pool i) hk (Order.not_active_of_new hw.status) ?_ rfl
  unfold Core.unwait Core.setOrder
  rw [update_eq_self]
  rfl

/-- An order in flight is dropped. -/
theorem Wf.drop (h : Wf V b) (hi : i ∈ b.inFlight) (hs : s ≠ .open ∧ s ≠ .partiallyFilled)
    (hc : b'.core = (b.core.setStatus i s).freeOrder i) (hx : b'.inFlight = b.inFlight.erase i) : Releases V i b b' := by
  have hl := (h.links.setStatus i s).freeOrder hi
  rw [← hc, ← hx] at hl
  refine hl.release (fun _ _ _ => Iff.rfl) ?_ ?_ ?_ ?_ ?_ ?_
  · rw [hc]
    exact fun _ _ => Iff.rfl
  · rw [hx]
    exact fun j hj => mem_erase_of_ne hj
  · intro j hj
    rw [hc, Core.freeOrder_body, Core.setStatus_body, update_of_ne hj]
  · rw [hc, Core.freeOrder_body, Core.setStatus_body, update_self]
    simp [Order.isActive, hs.1, hs.2]
  · intro k j hk
    rw [hc] at hk
    have hk' : b.core.find k = some j := hk
    refine ⟨?_, hk'⟩
    rintro rfl
    exact h.not_found_of_flying hi k hk'
  · rw [hc]
    rfl

theorem Wf.finishFilled (h : Wf V b) (hi : i ∈ b.inFlight) : Releases V i b (b.finishFilled i) :=
  h.drop hi (by simp) rfl rfl

theorem Wf.finishIoc (h : Wf V b) (hi : i ∈ b.inFlight) : Releases V i b (b.finishIoc i) :=
  h.drop hi (by simp) rfl rfl

/-! ## An order enters -/

theorem Request.shown_bounds (h : 0 < r.qty) : 0 ≤ r.shown ∧ r.shown ≤ r.qty := by
  unfold Request.shown
  by_cases hh : r.type = .hidden
  · simp only [hh, if_true]
    omega
  · simp only [hh, if_false]
    by_cases hi : 0 < r.iceShow
    · simp only [hi, if_true]
      refine ⟨by omega, ?_⟩
      unfold Request.iceShow at hi ⊢
      split at hi
      · rename_i hc
        rw [if_pos hc]
        exact Int.min_le_right _ _
      · cases hi
    · simp only [hi, if_false]
      omega

/-- The id an order entered with `orderId` gets. -/
def Core.newId (c : Core) (orderId : Nat) : Nat := if orderId = 0 then c.nextOrderId else orderId

/-- `alloc_order` took the free slot `i` and wrote `o` to it. -/
structure Allocated (V : Env) (X : List Nat) (i : Nat) (o : Order) (c c' : Core) : Prop where
  layout : ∃ G, c.freeList V = i :: G ∧ Layout V c' G (c.queue V) (i :: X)
  body : c'.body = Function.update c.body i o.strip
  rest : c' = { c with pool := c'.pool, freeHead := c'.freeHead, activeOrders := c.activeOrders + 1,
                       nextOrderId := c'.nextOrderId }

theorem Links.allocAs {c' : Core} (h : Links V c X) (ha : c.allocAs oid f = some (i, c')) :
    Allocated V X i (f { id := c.newId oid }) c c' := by
  unfold Core.allocAs at ha
  cases hc : c.allocOrder with
  | none => rw [hc] at ha; cases ha
  | some x =>
    obtain ⟨k, d⟩ := x
    rw [hc] at ha
    simp only [Option.some.injEq, Prod.mk.injEq] at ha
    obtain ⟨rfl, rfl⟩ := ha
    obtain ⟨G, hF, hl, hnew⟩ := Layout.alloc h hc
    have hd : d.nextOrderId = c.nextOrderId ∧ d.body = update c.body k {} ∧
        d = { c with pool := d.pool, freeHead := d.freeHead, activeOrders := c.activeOrders + 1 } := by
      unfold Core.allocOrder at hc
      split at hc
      · cases hc
      · cases hc
        exact ⟨rfl, Core.setOrder_body c k {}, rfl⟩
    refine ⟨⟨G, hF, ?_⟩, ?_, ?_⟩
    · apply Layout.setOrder_out
      · exact hl.same rfl rfl rfl rfl rfl
      · exact mem_append_right _ mem_cons_self
    · rw [Core.setOrder_body]
      show update d.body k _ = _
      rw [hd.2.1, update_idem, hnew, hd.1]
      rfl
    · rw [hd.2.2]
      rfl

theorem Wf.not_found_of_free (h : Wf V b) (hF : b.core.freeList V = i :: G) (k : Nat) : b.core.find k ≠ some i := by
  have hl : Layout V b.core (i :: G) (b.core.queue V) b.inFlight := by
    have := h.links
    unfold Links at this
    rwa [hF] at this
  obtain ⟨h1, h2, -⟩ := hl.apart_of_free
  intro hk
  rcases (h.found hk).2 with hs | ⟨p, hq⟩
  · exact h2 hs
  · exact h1 p hq

/-- The order an accepted request becomes. -/
def Request.order (r : Request) (id ts : Nat) : Order :=
  { id, clientId := r.clientId, priceTicks := r.priceTicks, totalQty := r.qty, displayedQty := r.shown,
    icebergDisplaySize := r.iceShow, side := r.side, type := r.type, tif := r.tif, submitTsNs := ts }

theorem Request.order_flying (h : 0 < r.qty) (id ts : Nat) : (r.order id ts).Flying := by
  obtain ⟨h1, h2⟩ := Request.shown_bounds h
  exact ⟨rfl, Int.le_refl _, by show 0 ≤ r.qty; omega, h1, h2⟩

theorem Book.accept_eq (h : Links V b.core b.inFlight) (ha : b.accept V r = some (i, b')) :
    Allocated V b.inFlight i (r.order (b.core.newId r.orderId) (V.clock b.asked)) b.core b'.core ∧
      b'.inFlight = i :: b.inFlight := by
  unfold Book.accept at ha
  dsimp only at ha
  split at ha
  · cases ha
  · rename_i x k c heq
    cases ha
    exact ⟨h.allocAs heq, rfl⟩

/-- What accepting an order does outside the core. -/
theorem Book.accept_rest (ha : b.accept V r = some (i, b')) :
    b'.log = .accept (b'.order i) :: b.log ∧
    b'.exposure = (b.exposureOnSubmit (b'.order i).clientId (b'.order i).side (b'.order i).totalQty).exposure ∧
    b'.oco = b.oco ∧ b'.gates = b.gates ∧ b'.tape.trades = b.tape.trades := by
  unfold Book.accept at ha
  dsimp only at ha
  split at ha
  · cases ha
  · cases ha
    exact ⟨rfl, rfl, rfl, rfl, rfl⟩

/-- The slot of an accepted order comes from the free list and is in flight. -/
theorem Wf.accept (h : Wf V b) (hr : 0 < r.qty) (ha : b.accept V r = some (i, b')) : Lawful V [i] b b' := by
  obtain ⟨⟨⟨G, hF, hl⟩, hb, hrest⟩, hx⟩ := Book.accept_eq h.links ha
  have hfind : ∀ k, b'.core.find k = b.core.find k := fun k => by rw [hrest]; rfl
  rw [← hx] at hl
  have hi : i ∈ b'.inFlight := by
    rw [hx]
    exact mem_cons_self
  have hbody : b'.core.body i = r.order (b.core.newId r.orderId) (V.clock b.asked) := by
    rw [hb, update_self]
    rfl
  have hq : ¬ b'.core.Queued V i := by
    rintro ⟨p, hp⟩
    rw [hl.queue_eq] at hp
    exact hl.apart p i hp (mem_append_right _ hi)
  refine ⟨hl.moves ?_ (fun _ _ _ => Iff.rfl) ?_ ?_ ?_ ?_, ?_, ?_⟩
  · intro j hj
    rw [hb, update_of_ne (by simpa using hj)]
  · rw [hrest]
    exact fun _ _ => Iff.rfl
  · intro j hj
    rw [hx, mem_cons]
    exact ⟨fun hm => hm.resolve_left (by simpa using hj), .inr⟩
  · exact fun j _ k hk => hfind k ▸ hk
  · rw [hrest]
    exact fun _ _ hj => hj
  · intro j hj
    rw [mem_singleton.mp hj]
    refine ⟨fun hm => absurd hm hq, ?_, ?_, ?_⟩
    · intro hs
      exact absurd rfl ((nodup_append.mp hl.nodup).2.2 i (mem_append_right _ hs) i hi)
    · rw [hbody]
      exact fun _ => Request.order_flying hr _ _
    · intro k hk
      rw [hfind] at hk
      exact absurd hk (h.not_found_of_free hF k)
  · intro j hj ha
    rw [mem_singleton.mp hj, hbody] at ha
    cases ha

/-! ## An order comes to rest, or starts to wait -/

/-- Write `o` to slot `i`, put it in the queue of its price and in the index. -/
def Core.settle (c : Core) (i : Nat) (o : Order) : Core := ((c.setOrder i o).enqueueAtLevel i).indexOrder i

theorem Core.settle_body (c : Core) (o : Order) : (c.settle i o).body = update c.body i o.strip := by
  show ((c.setOrder i o).enqueueAtLevel i).body = _
  rw [Core.enqueueAtLevel_body, Core.setOrder_body]

theorem Core.settle_index (c : Core) (o : Order) : (c.settle i o).idIndex = c.idIndex.insert o.id i := by
  have h : (((c.setOrder i o).enqueueAtLevel i).pool i).id = o.id := by
    rw [Core.enqueueAtLevel_pool, Core.setOrder_pool_self]
  show (((c.setOrder i o).enqueueAtLevel i).idIndex).insert (((c.setOrder i o).enqueueAtLevel i).pool i).id i = _
  rw [h]
  rfl

theorem Layout.settle (h : Layout V c F Q X) (hi : i ∈ X) (hr : inRange V o.priceTicks) :
    Layout V (c.settle i o) F (update Q o.priceTicks (Q o.priceTicks ++ [i])) (X.erase i) := by
  have h1 := h.setOrder_out (mem_append_right _ hi) o
  have hp : (c.setOrder i o).price i = o.priceTicks := by
    unfold Core.price
    rw [Core.setOrder_pool_self]
  have h2 := h1.enqueue hi (by rwa [hp])
  rw [hp] at h2
  exact h2.same rfl rfl rfl rfl rfl

/-- The held slot `i` of a core `c` that is otherwise like `b`'s joins a queue. -/
theorem Wf.settle (h : Wf V b) (hl : Layout V c F (b.core.queue V) X) (hi : i ∈ X) (ho : o.strip.Resting)
    (hr : inRange V o.priceTicks) (hcb : ∀ j, j ≠ i → c.body j = b.core.body j) (hidx : c.idIndex = b.core.idIndex)
    (hst : c.stopOrders = b.core.stopOrders) (hxb : ∀ j, j ≠ i → (j ∈ X ↔ j ∈ b.inFlight)) {ps : List Nat}
    (hc : b'.core = { c.settle i o with bestBid := x, bestAsk := y, pegOrders := ps })
    (hps : ∀ j, j ≠ i → j ∈ ps → j ∈ b.core.pegOrders) (hx : b'.inFlight = X.erase i) : Lawful V [i] b b' := by
  have hl' := (hl.settle hi hr).same (d := b'.core) (by rw [hc]) (by rw [hc]) (by rw [hc]) (by rw [hc]) (by rw [hc])
  rw [← hx] at hl'
  have hbody : b'.core.body = update c.body i o.strip := by
    rw [hc]
    exact c.settle_body o
  have hstop : b'.core.stopOrders = b.core.stopOrders := by
    rw [hc, ← hst]
    rfl
  have hfind : ∀ k, b'.core.find k = (b.core.idIndex.insert o.id i).lookup k := by
    intro k
    rw [hc, ← hidx, ← c.settle_index o]
    rfl
  have hq : b'.core.Queued V i := by
    refine ⟨o.priceTicks, ?_⟩
    rw [hl'.queue_eq, update_self]
    simp
  have hout : i ∉ F ++ b'.core.stopOrders ++ b'.inFlight := by
    obtain ⟨p, hp⟩ := hq
    rw [hl'.queue_eq] at hp
    exact hl'.apart p i hp
  refine ⟨hl'.moves ?_ ?_ ?_ ?_ ?_ ?_, ?_, ?_⟩
  · intro j hj
    rw [hbody, update_of_ne (by simpa using hj), hcb j (by simpa using hj)]
  · exact fun j hj p => mem_update_push (by simpa using hj)
  · rw [hstop]
    exact fun _ _ => Iff.rfl
  · intro j hj
    rw [hx, mem_erase_of_ne (by simpa using hj)]
    exact hxb j (by simpa using hj)
  · intro j hj k hk
    rw [hfind] at hk
    by_cases e : k = o.id
    · subst e
      rw [AList.lookup_insert] at hk
      exact absurd (Option.some.inj hk).symm (by simpa using hj)
    · rwa [AList.lookup_insert_ne e] at hk
  · intro j hj
    rw [hc]
    exact hps j (by simpa using hj)
  · intro j hj
    rw [mem_singleton.mp hj]
    refine ⟨?_, fun hs => absurd (by simp [hs]) hout, fun hs => absurd (by simp [hs]) hout, ?_⟩
    · rw [hbody, update_self]
      exact fun _ => ho
    · intro k hk
      refine ⟨?_, .inr hq⟩
      rw [hbody, update_self]
      rw [hfind] at hk
      by_cases e : k = o.id
      · exact e.symm
      · rw [AList.lookup_insert_ne e] at hk
        -- an old entry for the held slot would make it live already
        exfalso
        rcases (h.found hk).2 with hs | ⟨p, hp⟩
        · rw [← hst] at hs
          exact (nodup_append.mp hl.nodup).2.2 i (mem_append_right _ hs) i hi rfl
        · exact hl.apart p i hp (mem_append_right _ hi)
  · intro j hj _
    rw [mem_singleton.mp hj]
    exact hq

theorem Order.Flying.atRest (h : o.Flying) (hlt : o.filledQty < o.totalQty) : o.atRest.Resting := by
  have h1 := h.filled
  have h2 := h.shown
  have h3 := h.hidden
  unfold Order.atRest
  by_cases hf : 0 < o.filledQty
  · rw [if_pos hf]
    refine ⟨rfl, h1, hlt, ?_, ?_⟩
    · show 0 ≤ min o.displayedQty o.remainingQty
      unfold Order.remainingQty
      omega
    · show 0 ≤ o.totalQty - o.filledQty - min o.displayedQty o.remainingQty
      unfold Order.remainingQty
      omega
  · rw [if_neg hf]
    refine ⟨rfl, h1, hlt, h2, ?_⟩
    show 0 ≤ o.totalQty - o.filledQty - o.displayedQty
    omega

theorem Order.atRest_strip (o : Order) : o.atRest.strip = o.strip.atRest := by
  unfold Order.atRest Order.strip
  split <;> rfl

theorem Order.atRest_price (o : Order) : o.atRest.priceTicks = o.priceTicks := by
  unfold Order.atRest
  split <;> rfl

theorem Book.restOrder_core : ∃ x y, (b.restOrder i).core =
    { b.core.settle i (b.order i).atRest with bestBid := x, bestAsk := y } := by
  unfold Book.restOrder
  dsimp only
  split
  · exact ⟨b.core.bestBid, b.core.bestAsk, rfl⟩
  · obtain ⟨x, y, h⟩ := (b.core.settle i (b.order i).atRest).raiseBest_eq (b.order i).atRest.priceTicks (b.order i).atRest.side
    exact ⟨x, y, h⟩

theorem Book.restOrder_inFlight : (b.restOrder i).inFlight = b.inFlight.erase i := by
  unfold Book.restOrder
  dsimp only
  split <;> rfl

theorem Book.restOrder_log : (b.restOrder i).log = .rest (b.order i).atRest :: b.log := by
  unfold Book.restOrder
  dsimp only
  split <;> rfl

theorem Wf.restOrder (h : Wf V b) (hi : i ∈ b.inFlight) (hlt : (b.order i).filledQty < (b.order i).totalQty)
    (hr : inRange V (b.order i).priceTicks) : Lawful V [i] b (b.restOrder i) := by
  obtain ⟨x, y, hc⟩ := Book.restOrder_core
  refine h.settle h.links hi ?_ ?_ (fun _ _ => rfl) rfl rfl (fun _ _ => Iff.rfl) (hc.trans rfl) (fun _ _ hj => hj)
    Book.restOrder_inFlight
  · rw [Order.atRest_strip]
    exact ((h.placed i).flying hi).atRest hlt
  · rw [Order.atRest_price]
    exact hr

/-- A freshly allocated slot joins the queue of its price. -/
theorem Wf.peg (h : Wf V b) (ha : b.core.allocAs oid f = some (i, c)) (ho : (f { id := b.core.newId oid }).strip.Resting)
    (hr : inRange V (f { id := b.core.newId oid }).priceTicks)
    (hc : b'.core = { c.settle i (c.pool i) with bestBid := x, bestAsk := y, pegOrders := c.pegOrders ++ [i] })
    (hx : b'.inFlight = b.inFlight) : Lawful V [i] b b' := by
  obtain ⟨⟨G, hF, hl⟩, hb, hrest⟩ := h.links.allocAs ha
  have hbi : (f { id := b.core.newId oid }).strip = (c.pool i).strip := by
    show _ = c.body i
    rw [hb, update_self]
  have hprice : (c.pool i).priceTicks = (f { id := b.core.newId oid }).priceTicks := (congrArg Order.priceTicks hbi).symm
  refine h.settle hl mem_cons_self (hbi ▸ ho) (hprice ▸ hr) ?_ ?_ ?_ ?_ hc ?_ ?_
  · intro j hj
    rw [hb, update_of_ne hj]
  · rw [hrest]
  · rw [hrest]
  · intro j hj
    rw [mem_cons]
    exact ⟨fun hm => hm.resolve_left hj, .inr⟩
  · intro j hj hm
    rw [hrest] at hm
    simpa [hj] using hm
  · rw [erase_cons_head, hx]

/-- A freshly allocated slot joins the waiting stops. -/
theorem Wf.wait (h : Wf V b) (hF : b.core.freeList V = i :: G) (hl : Layout V c G (b.core.queue V) (i :: b.inFlight))
    (hb : c.body = update b.core.body i o.strip)
    (hrest : c = { b.core with pool := c.pool, freeHead := c.freeHead, activeOrders := b.core.activeOrders + 1, nextOrderId := c.nextOrderId })
    (ho : o.strip.Waiting) (hc : b'.core = { c with stopOrders := c.stopOrders ++ [i] }.indexOrder i)
    (hx : b'.inFlight = b.inFlight) : Lawful V [i] b b' := by
  have hid : (c.pool i).id = o.id := by
    have : (c.body i).id = o.id := by
      rw [hb, update_self]
      rfl
    exact this
  have hl' := (hl.park mem_cons_self).same (d := b'.core) (by rw [hc]; rfl) (by rw [hc]; rfl) (by rw [hc]; rfl)
    (by rw [hc]; rfl) (by rw [hc]; rfl)
  rw [erase_cons_head, ← hx] at hl'
  have hbody : b'.core.body = update b.core.body i o.strip := by
    rw [hc, ← hb]
    rfl
  have hstop : b'.core.stopOrders = b.core.stopOrders ++ [i] := by
    rw [hc, hrest]
    rfl
  have hfind : ∀ k, b'.core.find k = (b.core.idIndex.insert o.id i).lookup k := by
    intro k
    rw [hc, ← hid]
    simp only [Core.find, Core.indexOrder]
    rw [show c.idIndex = b.core.idIndex by rw [hrest]]
  have hi : i ∈ b'.core.stopOrders := by
    rw [hstop]
    simp
  have hx' : i ∉ b'.inFlight := fun hm =>
    (nodup_append.mp hl'.nodup).2.2 i (mem_append_right _ hi) i hm rfl
  have hq : ¬ b'.core.Queued V i := by
    rintro ⟨p, hp⟩
    rw [hl'.queue_eq] at hp
    exact hl'.apart p i hp (mem_append_left _ (mem_append_right _ hi))
  refine ⟨hl'.moves ?_ (fun _ _ _ => Iff.rfl) ?_ ?_ ?_ ?_, ?_, ?_⟩
  · intro j hj
    rw [hbody, update_of_ne (by simpa using hj)]
  · intro j hj
    rw [hstop]
    simp only [mem_append, mem_singleton]
    exact ⟨fun hm => hm.resolve_right (by simpa using hj), .inl⟩
  · rw [hx]
    exact fun _ _ => Iff.rfl
  · intro j hj k hk
    rw [hfind] at hk
    by_cases e : k = o.id
    · subst e
      rw [AList.lookup_insert] at hk
      exact absurd (Option.some.inj hk).symm (by simpa using hj)
    · rwa [AList.lookup_insert_ne e] at hk
  · intro j _ hm
    rw [hc, hrest] at hm
    exact hm
  · intro j hj
    rw [mem_singleton.mp hj]
    refine ⟨fun hm => absurd hm hq, ?_, fun hm => absurd hm hx', ?_⟩
    · rw [hbody, update_self]
      exact fun _ => ho
    · intro k hk
      refine ⟨?_, .inl hi⟩
      rw [hbody, update_self]
      rw [hfind] at hk
      by_cases e : k = o.id
      · exact e.symm
      · rw [AList.lookup_insert_ne e] at hk
        exact absurd hk (h.not_found_of_free hF k)
  · intro j hj hact
    rw [mem_singleton.mp hj, hbody, update_self, Order.not_active_of_new ho.status] at hact
    cases hact

/-! ## An order is rewritten where it is -/

theorem Wf.not_flying_of_found (h : Wf V b) (hf : b.core.find k = some i) : i ∉ b.inFlight :=
  fun hx => h.not_found_of_flying hx k hf

/-- A write to one slot that keeps its place and its id. -/
theorem Wf.rewrite (h : Wf V b) (hl : Layout V b'.core F Q b.inFlight) (hq : ∀ j p, j ∈ Q p ↔ j ∈ b.core.queue V p)
    (hb : b'.core.body = update b.core.body i o) (hid : o.id = (b.core.body i).id)
    (hidx : b'.core.idIndex = b.core.idIndex) (hst : b'.core.stopOrders = b.core.stopOrders)
    (hp : b'.core.pegOrders = b.core.pegOrders) (hx : b'.inFlight = b.inFlight) (hres : b.core.Queued V i → o.Resting)
    (hwait : i ∈ b.core.stopOrders → o.Waiting) (hfly : i ∈ b.inFlight → o.Flying) (htr : o.isActive → b.core.Queued V i) :
    Lawful V [i] b b' := by
  have hl' : Layout V b'.core F Q b'.inFlight := hx.symm ▸ hl
  have hfind : ∀ k, b'.core.find k = b.core.find k := fun k => by simp only [Core.find, hidx]
  have hqd : b'.core.Queued V i ↔ b.core.Queued V i := by
    unfold Core.Queued
    rw [hl'.queue_eq]
    simp only [hq]
  have hbi : b'.core.body i = o := by
    rw [hb, update_self]
  refine ⟨hl'.moves ?_ (fun j _ p => hq j p) ?_ ?_ ?_ ?_, ?_, ?_⟩
  · intro j hj
    rw [hb, update_of_ne (by simpa using hj)]
  · rw [hst]
    exact fun _ _ => Iff.rfl
  · rw [hx]
    exact fun _ _ => Iff.rfl
  · exact fun j _ k hk => hfind k ▸ hk
  · rw [hp]
    exact fun _ _ hj => hj
  · intro j hj
    rw [mem_singleton.mp hj]
    refine ⟨?_, ?_, ?_, ?_⟩
    · rw [hqd, hbi]
      exact hres
    · rw [hst, hbi]
      exact hwait
    · rw [hx, hbi]
      exact hfly
    · intro k hk
      rw [hfind] at hk
      rw [hqd, hst, hbi, hid]
      exact h.found hk
  · intro j hj ha
    rw [mem_singleton.mp hj] at ha ⊢
    rw [hbi] at ha
    exact hqd.mpr (htr ha)

/-- A write to fields that no place constrains: the expiry, the trigger, the peg offset. -/
theorem Wf.touch (h : Wf V b) (hf : i ∈ b.core.stopOrders ∨ b.core.find k = some i)
    (ho : o = { b.core.pool i with expireTsNs := o.expireTsNs, stopTriggerTicks := o.stopTriggerTicks, pegOffsetTicks := o.pegOffsetTicks })
    (hc : b'.core = b.core.setOrder i o) (hx : b'.inFlight = b.inFlight) : Lawful V [i] b b' := by
  have hfly : i ∉ b.inFlight := by
    rcases hf with hs | hf
    · exact fun hm => (nodup_append.mp h.links.nodup).2.2 i (mem_append_right _ hs) i hm rfl
    · exact h.not_flying_of_found hf
  have hl := h.links.setOrder (o := o) (by rw [ho]; rfl) (by rw [ho]; rfl) (by rw [ho]; rfl) (by rw [ho]; rfl)
  rw [← hc] at hl
  refine h.rewrite (o := o.strip) hl (fun _ _ => Iff.rfl) ?_ ?_ ?_ ?_ ?_ hx ?_ ?_ ?_ ?_
  · rw [hc, Core.setOrder_body]
  · rw [ho]
    rfl
  · rw [hc]
    rfl
  · rw [hc]
    rfl
  · rw [hc]
    rfl
  · intro hq
    have hr := (h.placed i).resting hq
    rw [ho]
    exact ⟨hr.active, hr.filled, hr.left, hr.shown, hr.hidden⟩
  · intro hs
    have hr := (h.placed i).waiting hs
    rw [ho]
    exact ⟨hr.status, hr.type, hr.filled, hr.qty, hr.shown⟩
  · exact fun hm => absurd hm hfly
  · intro ha
    rw [ho] at ha
    have ha' : (b.core.body i).isActive := ha
    rcases hf with hs | hf
    · rw [Order.not_active_of_new ((h.placed i).waiting hs).status] at ha'
      cases ha'
    · exact h.tracked_of_found hf ha'

/-- The order after the in-place branch of `modify`. -/
def Order.reduced (o : Order) (newQty : Int) : Order :=
  { o with totalQty := newQty, displayedQty := o.displayedQty - min (o.totalQty - newQty) o.displayedQty }

theorem Wf.reduceInPlace (h : Wf V b) {id : Nat} (hf : b.core.find id = some i) (hq : (b.order i).filledQty < q) :
    Lawful V [i] b (b.reduceInPlace id i q) := by
  have hl : Layout V (b.reduceInPlace id i q).core (b.core.freeList V) (b.core.queue V) b.inFlight := by
    refine Layout.setLevel ?_ rfl rfl
    exact h.links.setOrder rfl rfl rfl rfl
  refine h.rewrite (o := (b.core.body i).reduced q) hl (fun _ _ => Iff.rfl) ?_ rfl rfl rfl rfl rfl ?_ ?_ ?_ ?_
  · show Core.body (Core.setOrder _ i _) = _
    rw [Core.setOrder_body]
    rfl
  · intro hm
    obtain ⟨ha, h1, h2, h3, h4⟩ := (h.placed i).resting hm
    unfold Order.hiddenQty at h4
    have e1 : (b.core.body i).totalQty = (b.order i).totalQty := rfl
    have e2 : (b.core.body i).filledQty = (b.order i).filledQty := rfl
    refine ⟨ha, h1, hq, ?_, ?_⟩
    · show 0 ≤ (b.core.body i).displayedQty - min ((b.core.body i).totalQty - q) (b.core.body i).displayedQty
      omega
    · show 0 ≤ q - (b.core.body i).filledQty -
        ((b.core.body i).displayedQty - min ((b.core.body i).totalQty - q) (b.core.body i).displayedQty)
      omega
  · intro hm
    obtain ⟨ha, ht, h1, h2, h3⟩ := (h.placed i).waiting hm
    have e1 : (b.core.body i).totalQty = (b.order i).totalQty := rfl
    have e2 : (b.core.body i).filledQty = (b.order i).filledQty := rfl
    refine ⟨ha, ht, h1, by show 0 < q; omega, ?_⟩
    show (b.core.body i).displayedQty - min ((b.core.body i).totalQty - q) (b.core.body i).displayedQty = q
    omega
  · exact fun hm => absurd hm (h.not_flying_of_found hf)
  · exact h.tracked_of_found hf

/-- The queues after the order in slot `i` moved from level `p` to the end of level `q`. -/
def requeued (Q : Int → List Nat) (p q : Int) (i : Nat) : Int → List Nat :=
  let R := Function.update Q p ((Q p).erase i)
  Function.update R q (R q ++ [i])

theorem mem_requeued {r : Int} {j : Nat} (hj : j ≠ i) : j ∈ requeued Q p q i r ↔ j ∈ Q r := by
  unfold requeued
  rw [mem_update_push hj, mem_update_erase hj]

theorem Layout.reprice (h : Layout V c F Q X) (hi : i ∈ Q p) (hr : inRange V q) :
    Layout V (c.reprice V i q) F (requeued Q p q i) X := by
  obtain ⟨x, y, hb⟩ := (c.unlinkFromLevel i).refreshIfEmptied_eq (c.pool i).priceTicks V (c.pool i).side
  unfold Core.reprice
  dsimp only
  rw [hb]
  have h1 := ((h.unlink hi).same (d := { c.unlinkFromLevel i with bestBid := x, bestAsk := y }) rfl rfl rfl rfl rfl)
  have h2 := h1.setOrder_out (mem_append_right _ mem_cons_self)
    { (c.unlinkFromLevel i).pool i with priceTicks := q }
  have hp : Core.price (Core.setOrder { c.unlinkFromLevel i with bestBid := x, bestAsk := y } i
      { (c.unlinkFromLevel i).pool i with priceTicks := q }) i = q := by
    unfold Core.price
    rw [Core.setOrder_pool_self]
  have h3 := h2.enqueue mem_cons_self (by rwa [hp])
  rw [hp, erase_cons_head] at h3
  exact h3

theorem Core.reprice_body (c : Core) : (c.reprice V i q).body = update c.body i { c.body i with priceTicks := q } := by
  obtain ⟨x, y, hb⟩ := (c.unlinkFromLevel i).refreshIfEmptied_eq (c.pool i).priceTicks V (c.pool i).side
  unfold Core.reprice
  dsimp only
  rw [hb, Core.enqueueAtLevel_body, Core.setOrder_body]
  show update (c.unlinkFromLevel i).body i { (c.unlinkFromLevel i).body i with priceTicks := q } = _
  rw [Core.unlinkFromLevel_body]

theorem Core.reprice_rest (c : Core) :
    (c.reprice V i q).idIndex = c.idIndex ∧ (c.reprice V i q).stopOrders = c.stopOrders ∧
      (c.reprice V i q).pegOrders = c.pegOrders := by
  obtain ⟨x, y, hb⟩ := (c.unlinkFromLevel i).refreshIfEmptied_eq (c.pool i).priceTicks V (c.pool i).side
  unfold Core.reprice
  dsimp only
  rw [hb]
  exact ⟨rfl, rfl, rfl⟩

/-- The order moves to another level. -/
theorem Wf.reprice (h : Wf V b) (hi : i ∈ b.core.queue V p) (hr : inRange V q)
    (hc : b'.core = { b.core.reprice V i q with bestBid := x, bestAsk := y }) (hx : b'.inFlight = b.inFlight) :
    Lawful V [i] b b' := by
  obtain ⟨hidx, hst, hpg⟩ := b.core.reprice_rest (V := V) (i := i) (q := q)
  have hl := (h.links.reprice hi hr).same (d := b'.core) (by rw [hc]) (by rw [hc]) (by rw [hc]) (by rw [hc]) (by rw [hc])
  rw [← hx] at hl
  have hbody : b'.core.body = update b.core.body i { b.core.body i with priceTicks := q } := by
    rw [hc, ← Core.reprice_body]
    rfl
  have hq : b'.core.Queued V i := by
    refine ⟨q, ?_⟩
    rw [hl.queue_eq]
    unfold requeued
    rw [update_self]
    simp
  have hout : i ∉ b.core.freeList V ++ b'.core.stopOrders ++ b'.inFlight := by
    obtain ⟨r, hm⟩ := hq
    rw [hl.queue_eq] at hm
    exact hl.apart r i hm
  have hfind : ∀ k, b'.core.find k = b.core.find k := fun k => by
    rw [hc]
    simp only [Core.find, hidx]
  refine ⟨hl.moves ?_ (fun j hj r => mem_requeued (by simpa using hj)) ?_ ?_ ?_ ?_, ?_, ?_⟩
  · intro j hj
    rw [hbody, update_of_ne (by simpa using hj)]
  · rw [hc]
    exact fun j _ => by rw [hst]
  · rw [hx]
    exact fun _ _ => Iff.rfl
  · exact fun j _ k hk => hfind k ▸ hk
  · rw [hc]
    exact fun j _ hj => by rwa [hpg] at hj
  · intro j hj
    rw [mem_singleton.mp hj]
    refine ⟨?_, fun hs => absurd (by simp [hs]) hout, fun hs => absurd (by simp [hs]) hout, ?_⟩
    · rw [hbody, update_self]
      have ho := h.resting hi
      exact fun _ => ⟨ho.active, ho.filled, ho.left, ho.shown, ho.hidden⟩
    · intro k hk
      rw [hfind] at hk
      rw [hbody, update_self]
      exact ⟨(h.found hk).1, .inr hq⟩
  · intro j hj _
    rw [mem_singleton.mp hj]
    exact hq

/-- A slot of the peg list is left alone, or its order moves to another level. -/
theorem Tracked.repricePeg (ht : Tracked V b i) :
    b.repricePeg V i = b ∨ ∃ p, i ∈ b.core.queue V p ∧ ∃ q x y, inRange V q ∧
      b.repricePeg V i = { b with core := { b.core.reprice V i q with bestBid := x, bestAsk := y } } := by
  unfold Book.repricePeg
  dsimp only
  split
  · exact .inl rfl
  · rename_i ha
    have hact : (b.order i).isActive := by simpa using ha
    obtain ⟨p, hp⟩ := ht hact
    split
    · exact .inl rfl
    · rename_i target _
      split
      · exact .inl rfl
      · rename_i hr
        have hr' : inRange V target := by
          by_contra hn
          exact hr (.inl hn)
        obtain ⟨x, y, hb⟩ : ∃ x y, (b.core.reprice V i target).followPeg (b.order i).side target =
            { b.core.reprice V i target with bestBid := x, bestAsk := y } := by
          cases (b.order i).side
          · exact ⟨_, _, rfl⟩
          · exact ⟨_, _, rfl⟩
        refine .inr ⟨p, hp, target, x, y, hr', ?_⟩
        exact congrArg (fun c => { b with core := c }) hb

/-! ## clear -/

theorem Core.freeAll_body (l : List Nat) (c : Core) : (l.foldl Core.freeOrder c).body = c.body := by
  induction l generalizing c with
  | nil => rfl
  | cons i l ih => rw [foldl_cons, ih, Core.freeOrder_body]

theorem Core.freeAll_levels (l : List Nat) (c : Core) (L : Int → PriceLevel) :
    ({ l.foldl Core.freeOrder c with levels := L } : Core) = l.foldl Core.freeOrder { c with levels := L } := by
  induction l generalizing c with
  | nil => rfl
  | cons i l ih =>
    rw [foldl_cons, foldl_cons, ih]
    rfl

theorem Core.freeAll_stops (l : List Nat) (c : Core) (S : List Nat) :
    ({ l.foldl Core.freeOrder c with stopOrders := S } : Core) = l.foldl Core.freeOrder { c with stopOrders := S } := by
  induction l generalizing c with
  | nil => rfl
  | cons i l ih =>
    rw [foldl_cons, foldl_cons, ih]
    rfl

theorem Layout.freeAll (l : List Nat) (h : Layout V c F Q (l ++ X)) :
    Layout V (l.foldl Core.freeOrder c) (l.reverse ++ F) Q X := by
  induction l generalizing c F with
  | nil => exact h
  | cons i l ih =>
    have h1 := h.freeOrder mem_cons_self
    rw [cons_append, erase_cons_head] at h1
    have h2 := ih h1
    rwa [foldl_cons, reverse_cons, append_assoc]

/-- Level `p` is emptied; its orders are held by nobody but the caller. -/
theorem Layout.detach (h : Layout V c F Q X) (p : Int) :
    Layout V { c with levels := update c.levels p {} } F (update Q p []) (Q p ++ X) := by
  refine h.relevel ?_ ?_ (fun _ _ _ _ => rfl) (fun _ _ _ _ => rfl) rfl rfl rfl rfl rfl ?_ (by simp) (by simp)
  · dsimp only
    rw [update_self]
    exact dlist_nil
  · intro q e
    dsimp only
    rw [update_of_ne e]
    exact ⟨rfl, rfl⟩
  · rw [append_nil, ← append_assoc]
    have : (F ++ c.stopOrders ++ X ++ Q p).Perm (F ++ c.stopOrders ++ (Q p ++ X)) := by
      rw [append_assoc]
      exact List.Perm.append_left _ perm_append_comm
    rwa [← append_assoc] at this

theorem Layout.detachStops (h : Layout V c F Q X) : Layout V { c with stopOrders := [] } F Q (c.stopOrders ++ X) := by
  refine h.reshuffle (fun _ _ _ => rfl) (fun _ _ _ => rfl) (fun _ _ _ => rfl) rfl h.free ?_ h.active
  simp

/-- One level of `clear`. -/
def Core.clearLevel (V : Env) (c : Core) (p : Int) : Core :=
  { (c.queue V p).foldl Core.freeOrder c with levels := Function.update c.levels p {} }

theorem Layout.clearLevels (h : Layout V c F Q X) (ps : List Int) :
    ∃ G R, Layout V (ps.foldl (Core.clearLevel V) c) G R X ∧ (∀ p ∈ ps, R p = []) ∧ (∀ p, Q p = [] → R p = []) ∧
      (ps.foldl (Core.clearLevel V) c).body = c.body := by
  induction ps generalizing c F Q with
  | nil => exact ⟨F, Q, h, by simp, fun _ hp => hp, rfl⟩
  | cons p ps ih =>
    have h1 : Layout V (c.clearLevel V p) ((Q p).reverse ++ F) (update Q p []) X := by
      unfold Core.clearLevel
      rw [Core.freeAll_levels, h.queue_eq]
      exact (h.detach p).freeAll
    have hb : (c.clearLevel V p).body = c.body := by
      show (List.foldl Core.freeOrder c (c.queue V p)).body = _
      rw [Core.freeAll_body]
    obtain ⟨G, R, hl, hall, hkeep, hbody⟩ := ih h1
    refine ⟨G, R, hl, ?_, ?_, by rw [foldl_cons, hbody, hb]⟩
    · intro q hq
      rcases mem_cons.mp hq with rfl | hq
      · exact hkeep q (update_self ..)
      · exact hall q hq
    · intro q hq
      refine hkeep q ?_
      by_cases e : q = p
      · subst e
        exact update_self ..
      · rw [update_of_ne e]
        exact hq

theorem Book.clear_core :
    ∃ c, c = ((List.range V.LEVELS.toNat).map fun (k : Nat) => (k : Int)).foldl (Core.clearLevel V) b.core ∧
      (b.clear V).core = { c.stopOrders.foldl Core.freeOrder { c with stopOrders := [] } with
        idIndex := ∅, pegOrders := [], bestBid := NO_BID_TICKS, bestAsk := NO_ASK_TICKS } := by
  refine ⟨_, rfl, ?_⟩
  rw [← Core.freeAll_stops]
  rfl

/-- After `clear` every slot that no running call holds is free. -/
theorem Links.clear {b : Book} (h : Links V b.core b.inFlight) :
    ∃ G, Layout V (b.clear V).core G (fun _ => []) b.inFlight ∧ (b.clear V).core.body = b.core.body := by
  obtain ⟨c, hc, hcore⟩ := Book.clear_core
  obtain ⟨G, R, hl, hall, hkeep, hbody⟩ := Layout.clearLevels h ((List.range V.LEVELS.toNat).map fun (k : Nat) => (k : Int))
  rw [← hc] at hl hbody
  have hR : R = fun _ => [] := by
    funext p
    by_cases hr : inRange V p
    · refine hall p (mem_map.mpr ⟨p.toNat, mem_range.mpr ?_, ?_⟩)
      · have := hr.1
        have := hr.2
        omega
      · have := hr.1
        omega
    · refine hkeep p ?_
      by_contra hne
      obtain ⟨i, hi⟩ := exists_mem_of_ne_nil _ hne
      exact hr (h.grid p i hi)
  subst hR
  refine ⟨c.stopOrders.reverse ++ G, ?_, ?_⟩
  · rw [hcore]
    exact (hl.detachStops.freeAll).same rfl rfl rfl rfl rfl
  · rw [hcore, ← hbody]
    exact Core.freeAll_body ..

theorem Wf.clear {b : Book} (h : Wf V b) : Wf V (b.clear V) := by
  obtain ⟨G, hl, hb⟩ := Links.clear h.links
  have hst : (b.clear V).core.stopOrders = [] := rfl
  have hq : ∀ i, ¬ (b.clear V).core.Queued V i := by
    rintro i ⟨p, hi⟩
    rw [hl.queue_eq] at hi
    cases hi
  refine ⟨hl.links, ?_, ?_⟩
  · intro i
    refine ⟨fun hm => absurd hm (hq i), ?_, ?_, ?_⟩
    · rw [hst]
      exact fun hm => absurd hm not_mem_nil
    · rw [hb]
      exact (h.placed i).flying
    · intro k hk
      cases hk
  · exact fun i hi => absurd hi not_mem_nil

end

end HftLab.OrderBook
