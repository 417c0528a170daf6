/-
  HftLab.OrderBook.Priority — price-time priority over runs.

  Submitting, cancelling and modifying keep the book and the reference book together (`submit_sim`,
  `cancel_sim`, `modify_sim`), with the same answers, and the calls return (`submit_returns`). Two sums of
  the code can leave 32 bits where the reference book's do not: the preview of a FOK order, and
  `new_qty - filled_qty` in `modify`.
-/

import HftLab.OrderBook.PriceTime

namespace HftLab.OrderBook

open Lib Function List Bool

section

variable {V : Env} {b b' : Book} {x : RefBook} {p q newQty : Int} {t ts i n k : Nat} {s : Side} {r : Request}
    {y : Nat × RejectReason} {op : Op}

/-! ## Submit -/

theorem ranked_ranks (h : Orderly V b) (s : Side) : Ranks s (b.ranked V s) := by
  refine ⟨?_, fun m hm => ?_⟩
  · refine pairwise_flatMap.mpr ⟨fun r _ => ?_, ladder_sorted.imp fun hlt m hm k hk => ?_⟩
    · refine List.Pairwise.filter _ (pairwise_map.mpr (pairwise_of_forall_mem_list fun i hi j hj => ?_))
      rw [h.wf.ticket_price hi, h.wf.ticket_price hj]
    · obtain ⟨i, hi, rfl⟩ := mem_tickets.mp (mem_filter.mp hm).1
      obtain ⟨j, hj, rfl⟩ := mem_tickets.mp (mem_filter.mp hk).1
      rw [h.wf.ticket_price hi, h.wf.ticket_price hj]
      exact hlt.le
  · obtain ⟨-, r, i, hi, rfl⟩ := mem_ranked hm
    have h1 := (h.visible r i hi).shown
    have h2 : 0 ≤ (b.core.body i).totalQty - (b.core.body i).filledQty - (b.core.body i).displayedQty := (h.wf.resting hi).hidden
    show 0 < (b.core.body i).totalQty - (b.core.body i).filledQty
    omega

theorem Follows.ranks (h : Follows V b x) (s : Side) : Ranks s (x.orders s) := by
  rw [← h.agrees.orders]
  exact ranked_ranks h.orderly s

theorem Book.Quiet.not_stranded (h : b.Quiet V) : ¬ b.Stranded V := by
  rintro ⟨e, he, hs⟩
  rw [(h e he).2] at hs
  cases hs

theorem Book.Quiet.aborts (h : b.Quiet V) : AbortsDrop b.log := by
  have hq : ∀ e ∈ b.log, e.isAbort = false := fun e he => (h e he).1
  revert hq
  induction b.log with
  | nil => exact fun _ => trivial
  | cons e l ih =>
    intro hq
    have ih := ih fun e he => hq e (mem_cons_of_mem _ he)
    cases e with
    | rest o => exact ⟨fun e he => hq e (mem_cons_of_mem _ ((takeWhile_sublist _).subset he)), ih⟩
    | _ => exact ih

theorem Book.Quiet.noneStopped (h : b.Quiet V) : b.NoneStopped := by
  intro e he
  have ha := (h e he).1
  cases e with
  | stpAbort t m => cases ha
  | _ => rfl

/-- They go together, and the index is right, so that the two find the same order by its id. -/
structure Tied (V : Env) (b : Book) (x : RefBook) : Prop extends Follows V b x where
  settling : Settling V b

theorem Sim.tied (h : Sim V b x) : Tied V b x := ⟨h.toFollows, h.settling⟩

/-- An id in use is one that was handed out. -/
theorem Sim.find_lt (h : Sim V b x) (hf : b.core.find k = some i) : k < b.core.nextOrderId := by
  obtain ⟨p, hi⟩ := h.orderly.cont.queued h.orderly.wf hf
  have hm := mem_ranked_of h.orderly.wf hi rfl
  rw [h.agrees.orders] at hm
  have hlt := (h.tidy _ _ hm).1
  rw [h.agrees.nextId, ← (h.orderly.wf.found hf).1]
  exact hlt

theorem Sim.next_free (h : Sim V b x) : b.core.find b.core.nextOrderId = none := by
  cases hf : b.core.find b.core.nextOrderId with
  | none => rfl
  | some i => exact absurd (h.find_lt hf) (lt_irrefl _)

/-- `submit` keeps the two books together, if no order of another kind comes to rest. -/
theorem submit_keeps_following (h : Follows V b x) (hk : takenKind r.kind) (hf : b.SumsFit V) (hfok : b.fokFits V r)
    (hid : r.orderId ≠ 0 → b.core.find r.orderId = none) (hfree : b.core.freeHead ≠ none)
    (hs : Book.submit V n r b = some (y, b')) (ht : Agrees V b' (x.submit V r).2 → b'.Typed V plainKind) :
    y = (x.submit V r).1 ∧ Follows V b' (x.submit V r).2 := by
  obtain ⟨hy, hag, hq, hstp⟩ := submit_agrees h hk hf hfok hid hfree hs
  have hkeep := submit_keeps h.orderly hf h.uncrossed hk.not_hidden hs hq.not_stranded
  exact ⟨hy, hkeep.orderly, (hkeep.uncrossed hq.noneStopped h.quiet.aborts).1, hstp, ht hag, hq, hag⟩

theorem submit_follows (h : Follows V b x) (hk : plainKind r.kind) (hf : b.SumsFit V) (hfok : b.fokFits V r)
    (hid : r.orderId ≠ 0 → b.core.find r.orderId = none) (hfree : b.core.freeHead ≠ none)
    (hs : Book.submit V n r b = some (y, b')) : y = (x.submit V r).1 ∧ Follows V b' (x.submit V r).2 :=
  submit_keeps_following h (.inl hk) hf hfok hid hfree hs fun _ =>
    (submit_flow h.orderly.wf h.orderly.cont hk hs).keeps h.orderly.wf h.typed fun hw hm ht => hm.typed hw ht

/-- An order of any kind taken, where no IOC order comes to rest. -/
theorem submit_follows_taken (h : Follows V b x) (hk : takenKind r.kind) (hf : b.SumsFit V) (hfok : b.fokFits V r)
    (hid : r.orderId ≠ 0 → b.core.find r.orderId = none) (hfree : b.core.freeHead ≠ none)
    (hrest : ∀ s, ∀ m ∈ (x.submit V r).2.orders s, m.type ≠ .ioc) (hs : Book.submit V n r b = some (y, b')) :
    y = (x.submit V r).1 ∧ Follows V b' (x.submit V r).2 := by
  refine submit_keeps_following h hk hf hfok hid hfree hs fun hag => ?_
  have hw := h.orderly.wf
  have hw' := (submit_flow hw h.orderly.cont hk hs).wf hw
  have hx : b'.inFlight = [] :=
    (submit_does n _ _ _ _ hw (.inl trivial) hs).inFlight.trans h.orderly.idle
  have ht : b'.Typed V takenKind := (submit_flow hw h.orderly.cont hk hs).keeps hw
    ⟨fun p i hi => .inl (h.typed.queued p i hi), fun i hi => .inl (h.typed.flying i hi)⟩ fun hw hm ht => hm.typed hw ht
  refine ⟨fun p i hi => (ht.queued p i hi).resolve_right fun hioc => ?_, fun i hi => ?_⟩
  · refine hrest (b'.core.body i).side (b'.core.body i).ticket ?_ (congrArg Prod.fst hioc)
    rw [← hag.orders]
    refine mem_flatMap.mpr ⟨p, mem_ladder.mpr (hw'.links.grid p i hi), ?_⟩
    exact mem_filter.mpr ⟨mem_tickets.mpr ⟨i, hi, rfl⟩, decide_eq_true rfl⟩
  · rw [hx] at hi
    cases hi

theorem submit_sim (h : Sim V b x) (hk : plainKind r.kind) (hf : b.SumsFit V) (hfok : b.fokFits V r)
    (hid : r.orderId ≠ 0 → b.core.find r.orderId = none ∧ r.orderId < x.nextId) (hfree : b.core.freeHead ≠ none)
    (hs : Book.submit V n r b = some (y, b')) : y = (x.submit V r).1 ∧ Sim V b' (x.submit V r).2 := by
  obtain ⟨hy, hfol⟩ := submit_follows h.toFollows hk hf hfok (fun h0 => (hid h0).1) hfree hs
  exact ⟨hy, hfol, h.settling.submit (fun _ => h.next_free) hs, h.tidy.submit (fun h0 => (hid h0).2) (h.ranks _)⟩

/-! ## Cancel -/

/-- The orders of the list come from slots of their own, each with its own id. -/
theorem Tied.ticket_iff (h : Tied V b x) {j : Nat} (hi : i ∈ b.core.queue V p) (hj : b.core.Queued V j) :
    (b.core.body j).ticket.id = (b.core.body i).id ↔ j = i :=
  ⟨h.settling.named.registered.indexExact.unique j i (.inl hj) (.inl ⟨p, hi⟩), fun e => by rw [e]; rfl⟩

/-- The index of the code and the search of the reference book find the same order. -/
theorem Tied.find (h : Tied V b x) (k : Nat) : x.find k = (b.core.find k).map fun i => (b.core.body i).ticket := by
  have hw := h.orderly.wf
  unfold RefBook.find
  rw [← h.agrees.orders, ← h.agrees.orders]
  have hmem : ∀ m ∈ b.ranked V .buy ++ b.ranked V .sell, ∃ j p, j ∈ b.core.queue V p ∧ (b.core.body j).ticket = m := by
    intro m hm
    rcases mem_append.mp hm with hm | hm
    · obtain ⟨-, p, j, hj, he⟩ := mem_ranked hm
      exact ⟨j, p, hj, he⟩
    · obtain ⟨-, p, j, hj, he⟩ := mem_ranked hm
      exact ⟨j, p, hj, he⟩
  cases hf : b.core.find k with
  | none =>
    refine List.find?_eq_none.mpr fun m hm => ?_
    obtain ⟨j, p, hj, rfl⟩ := hmem m hm
    intro hk
    have hlive := (h.settling.named.live j (.inl ⟨p, hj⟩)).1
    rw [show (b.core.body j).id = k from of_decide_eq_true hk, hf] at hlive
    cases hlive
  | some i =>
    obtain ⟨p, hi⟩ := h.orderly.cont.queued hw hf
    have hid : (b.core.body i).id = k := (hw.found hf).1
    have hin : (b.core.body i).ticket ∈ b.ranked V .buy ++ b.ranked V .sell := by
      cases hs : (b.core.body i).side with
      | buy => exact mem_append_left _ (mem_ranked_of hw hi hs)
      | sell => exact mem_append_right _ (mem_ranked_of hw hi hs)
    cases hm : (b.ranked V .buy ++ b.ranked V .sell).find? fun m => decide (m.id = k) with
    | none => exact absurd (decide_eq_true hid) (List.find?_eq_none.mp hm _ hin)
    | some m =>
      obtain ⟨j, r, hj, rfl⟩ := hmem m (mem_of_find?_eq_some hm)
      have hk : (b.core.body j).ticket.id = k := by simpa using List.find?_some hm
      rw [← hid, h.ticket_iff hi ⟨r, hj⟩] at hk
      rw [hk]
      rfl

/-- One order leaves its level. -/
theorem cancel_tickets (h : Tied V b x) (hi : i ∈ b.core.queue V p) (e : Bool) :
    (b.cancelInternal V i e).tickets V = fun r => (b.tickets V r).filter (·.id ≠ (b.core.body i).id) := by
  have hw := h.orderly.wf
  have hv := hw.cancelInternal_view hi e
  have hQ : ∀ r, (b.cancelInternal V i e).core.queue V r = (b.core.queue V r).filter (· ≠ i) := by
    intro r
    rw [queue_of_view hv]
    show update (b.core.queue V) p ((b.core.queue V p).erase i) r = _
    by_cases er : r = p
    · subst er
      rw [update_self, (hw.links.level r).nodup.erase_eq_filter]
      exact filter_congr fun j _ => by by_cases ej : j = i <;> simp [ej]
    · rw [update_of_ne er]
      refine (filter_eq_self.mpr fun j hj => decide_eq_true ?_).symm
      rintro rfl
      exact er (hw.links.unique hj hi)
  funext r
  unfold Book.tickets
  rw [hQ, filter_map]
  have hfilter : (b.core.queue V r).filter
      ((fun m : Ticket => decide (m.id ≠ (b.core.body i).id)) ∘ fun j => (b.core.body j).ticket) =
      (b.core.queue V r).filter (· ≠ i) := by
    refine filter_congr fun j hj => ?_
    exact decide_eq_decide.mpr (not_congr (h.ticket_iff hi ⟨r, hj⟩))
  rw [hfilter]
  refine map_congr_left fun j hj => ?_
  have hne : j ≠ i := by simpa using (mem_filter.mp hj).2
  rw [body_of_view hv]
  show (update b.core.body i _ j).ticket = _
  rw [update_of_ne hne]

theorem ranked_filter {f : Ticket → Bool} (hb : b'.tickets V = fun r => (b.tickets V r).filter f) (s : Side) :
    b'.ranked V s = (b.ranked V s).filter f := by
  unfold Book.ranked
  rw [hb, filter_flatMap]
  refine flatMap_congr fun r _ => ?_
  rw [filter_filter, filter_filter]
  exact filter_congr fun _ _ => and_comm _ _

theorem cancelInternal_free (hw : Wf V b) (hi : i ∈ b.core.queue V p) (e : Bool) :
    (b.cancelInternal V i e).core.freeHead = some i := by
  rw [Book.cancelInternal_core (hw.resting hi).active]
  rfl

/-- The order with id `k` is taken out, with a CANCEL event or without. -/
theorem cancelInternal_tied (h : Tied V b x) (hf : b.SumsFit V) (hk : b.core.find k = some i) (e : Bool) :
    Tied V (b.cancelInternal V i e) { x.drop k with
      fates := x.fates ++ if e then [(k, .cancelled (b.core.body i).ticket.left)] else [] } := by
  have hw := h.orderly.wf
  obtain ⟨p, hi⟩ := h.orderly.cont.queued hw hk
  have hid : (b.core.body i).id = k := (hw.found hk).1
  have hkeep := cancelInternal_keeps h.orderly hf h.uncrossed hi e
  obtain ⟨hlog, -, -, hgates, -⟩ := Book.cancelInternal_rest e (hw.resting hi).active
  have hquiet : (b.cancelInternal V i e).Quiet V := by
    refine h.quiet.more (l := [_]) hlog fun z hz => ?_
    rw [mem_singleton.mp hz]
    cases e <;> exact ⟨rfl, rfl⟩
  have hnext : (b.cancelInternal V i e).core.nextOrderId = b.core.nextOrderId := by
    rw [Book.cancelInternal_core (hw.resting hi).active]
    exact leave_nextOrderId _ _
  refine ⟨⟨hkeep.orderly, (hkeep.uncrossed hquiet.noneStopped h.quiet.aborts).1, by rw [hgates]; exact h.stp,
    h.typed.cancel hw hi e, hquiet, fun s => ?_, hnext.trans h.agrees.nextId, ?_, ?_⟩, ?_⟩
  · rw [ranked_filter (cancel_tickets h hi e), h.agrees.orders, hid]
    rfl
  · rw [hlog, reverse_cons, filterMap_append, h.agrees.trades]
    cases e <;> exact append_nil _
  · rw [hlog, reverse_cons, flatMap_append, h.agrees.fates]
    cases e with
    | true =>
      rw [← hid]
      rfl
    | false => rfl
  · cases e with
    | true =>
      have hact : Act V .cancel b (b.cancelInternal V i true) := .cancel p i hi
      exact h.settling.does (Does.one hact rfl Book.cancelInternal_inFlight)
        (by rintro _ rfl; trivial) (by simp)
    | false =>
      have hact : Act V .replace b (b.cancelInternal V i false) := .replace p i hi
      exact h.settling.does (Does.one hact rfl Book.cancelInternal_inFlight)
        (by rintro _ rfl; trivial) (by simp)

theorem cancelInternal_sim (h : Sim V b x) (hf : b.SumsFit V) (hk : b.core.find k = some i) (e : Bool) :
    Sim V (b.cancelInternal V i e) { x.drop k with
      fates := x.fates ++ if e then [(k, .cancelled (b.core.body i).ticket.left)] else [] } :=
  let h' := cancelInternal_tied h.tied hf hk e
  ⟨h'.toFollows, h'.settling, fun s m hm => h.tidy s m (mem_filter.mp hm).1⟩

theorem cancel_tied (h : Tied V b x) (hf : b.SumsFit V) (k : Nat) :
    (b.cancel V k).1 = (x.cancel k).1 ∧ Tied V (b.cancel V k).2 (x.cancel k).2 := by
  rw [cancel_eq h.orderly.cont h.orderly.wf]
  unfold RefBook.cancel
  rw [h.find]
  cases hk : b.core.find k with
  | none => exact ⟨rfl, h⟩
  | some i => exact ⟨rfl, cancelInternal_tied h hf hk true⟩

theorem RefBook.Tidy.cancel (h : x.Tidy) (k : Nat) : (x.cancel k).2.Tidy := by
  unfold RefBook.cancel
  cases x.find k with
  | none => exact h
  | some t => exact fun s m hm => h s m (mem_filter.mp hm).1

theorem cancel_sim (h : Sim V b x) (hf : b.SumsFit V) (k : Nat) :
    (b.cancel V k).1 = (x.cancel k).1 ∧ Sim V (b.cancel V k).2 (x.cancel k).2 :=
  let h' := cancel_tied h.tied hf k
  ⟨h'.1, h'.2.toFollows, h'.2.settling, h.tidy.cancel k⟩

/-! ## Modify -/

theorem ranked_map {f : Ticket → Ticket} (hf : ∀ m, (f m).side = m.side)
    (hb : b'.tickets V = fun r => (b.tickets V r).map f) (s : Side) : b'.ranked V s = (b.ranked V s).map f := by
  unfold Book.ranked
  rw [hb, map_flatMap]
  refine flatMap_congr fun r _ => ?_
  rw [filter_map]
  exact congrArg _ (filter_congr fun m _ => decide_eq_decide.mpr (by rw [hf]))

theorem reduce_tickets (h : Sim V b x) (hi : i ∈ b.core.queue V p) (hk : (b.core.body i).id = k) (newQty : Int) :
    (b.reduceInPlace k i newQty).tickets V =
      fun r => (b.tickets V r).map fun m => if m.id = k then { m with qty := newQty } else m := by
  have hv := h.orderly.wf.reduceInPlace_view (i := i) k newQty
  funext r
  unfold Book.tickets
  rw [queue_of_view hv, body_of_view hv, map_map]
  show (b.core.queue V r).map (fun j => (update b.core.body i _ j).ticket) = _
  refine map_congr_left fun j hj => ?_
  show _ = if (b.core.body j).ticket.id = k then _ else _
  rw [← hk]
  by_cases e : j = i
  · subst e
    rw [update_self, if_pos (show (b.core.body j).ticket.id = (b.core.body j).id from rfl)]
    rfl
  · rw [update_of_ne e, if_neg fun hc => e ((h.tied.ticket_iff hi ⟨r, hj⟩).mp hc)]

theorem reduce_sim (h : Sim V b x) (hk : b.core.find k = some i) (hlt : newQty < (b.core.body i).totalQty)
    (hq : (b.core.body i).filledQty < newQty) : Sim V (b.reduceInPlace k i newQty) (x.shrink k newQty) := by
  have hw := h.orderly.wf
  obtain ⟨p, hi⟩ := h.orderly.cont.queued hw hk
  have hid : (b.core.body i).id = k := (hw.found hk).1
  have hwhole := (h.orderly.visible p i hi).whole (h.typed.noIceberg p i hi)
  obtain ⟨hord, hrests⟩ := reduce_orderly h.orderly hk hi hlt hq (by omega)
  have hlog : (b.reduceInPlace k i newQty).log = [.reduce (b.order i) newQty] ++ b.log := rfl
  have hmove : Move V plainKind b (b.reduceInPlace k i newQty) := .reduce p k i newQty hi hk hlt hq
  refine ⟨⟨hord, fun r t h1 h2 => h.uncrossed r t ((hrests _ _).mp h1) ((hrests _ _).mp h2), h.stp,
    hmove.typed hw h.typed, ?_, fun s => ?_, h.agrees.nextId, ?_, ?_⟩, ?_, fun s m hm => ?_⟩
  · refine h.quiet.more hlog fun z hz => ?_
    rw [mem_singleton.mp hz]
    exact ⟨rfl, rfl⟩
  · rw [ranked_map (fun m => by split <;> rfl) (reduce_tickets h hi hid newQty), h.agrees.orders]
    rfl
  · rw [hlog, reverse_append, filterMap_append, h.agrees.trades]
    exact append_nil _
  · rw [hlog, reverse_append, flatMap_append, h.agrees.fates, ← hid]
    rfl
  · exact h.settling.reduce hk hlt hq
  · obtain ⟨t, ht, rfl⟩ := mem_map.mp hm
    have := h.tidy s t ht
    split
    · exact this
    · exact this

/-- The quantity `modify` submits again is what it should be. -/
def Book.refits (b : Book) (k : Nat) (newQty : Int) : Bool :=
  (b.core.find k).all fun i => i32 (newQty - (b.order i).filledQty) = newQty - (b.order i).filledQty

theorem modify_sim (h : Sim V b x) (hf : b.SumsFit V) {newPrice : Int} (hfit : b.refits k newQty)
    (hm : b.modify V n k newPrice newQty = some (y, b')) :
    y = (x.modify V k newPrice newQty).1 ∧ Sim V b' (x.modify V k newPrice newQty).2 := by
  have hw := h.orderly.wf
  rw [modify_eq h.orderly.cont hw] at hm
  unfold RefBook.modify
  rw [h.tied.find]
  cases hk : b.core.find k with
  | none =>
    rw [hk] at hm
    cases hm
    exact ⟨rfl, h⟩
  | some i =>
    rw [hk] at hm
    obtain ⟨p, hi⟩ := h.orderly.cont.queued hw hk
    have hid : (b.core.body i).id = k := (hw.found hk).1
    dsimp only [Option.map] at hm ⊢
    by_cases hc : newPrice = (b.order i).priceTicks ∧ newQty < (b.order i).totalQty ∧ (b.order i).filledQty < newQty
    · rw [if_pos hc] at hm
      cases hm
      have hc' : newPrice = (b.core.body i).ticket.price ∧ newQty < (b.core.body i).ticket.qty ∧
        (b.core.body i).ticket.filled < newQty := hc
      rw [if_pos hc']
      exact ⟨Prod.ext hid rfl, reduce_sim h hk hc.2.1 hc.2.2⟩
    · rw [if_neg hc] at hm
      have hc' : ¬ (newPrice = (b.core.body i).ticket.price ∧ newQty < (b.core.body i).ticket.qty ∧
        (b.core.body i).ticket.filled < newQty) := hc
      rw [if_neg hc']
      have h1 := cancelInternal_sim h hf hk false
      rw [if_neg Bool.false_ne_true, append_nil] at h1
      have hq : i32 (newQty - (b.order i).filledQty) = newQty - (b.order i).filledQty := by
        unfold Book.refits at hfit
        rw [hk] at hfit
        exact of_decide_eq_true hfit
      -- a FOK order never rests, so its preview is not asked for again
      have hmem : (b.core.body i).ticket ∈ x.orders (b.core.body i).side := by
        rw [← h.agrees.orders]
        exact mem_ranked_of hw hi rfl
      obtain ⟨hlt, hnf⟩ := h.tidy _ _ hmem
      have hres := submit_sim (r := (b.order i).resubmit k newPrice newQty) h1 (h.typed.queued p i hi)
        (SumsFit.cancel hf h.orderly.wf hi false) ?_ ?_ ?_ hm
      · unfold Order.resubmit at hres
        rw [hq] at hres
        exact hres
      · unfold Book.fokFits
        rw [Bool.or_eq_true]
        exact .inl (decide_eq_true hnf)
      · refine fun _ => ⟨?_, ?_⟩
        · have hv := hw.cancelInternal_view hi false
          unfold Core.find
          rw [index_of_view hv]
          show AList.lookup k (b.core.idIndex.erase (b.core.body i).id) = none
          rw [hid]
          exact AList.lookup_erase _ _
        · exact hid ▸ hlt
      · rw [cancelInternal_free hw hi false]
        exact Option.some_ne_none i

/-! ## The calls return -/

/-- The price loop ends, and what is left of the order has a level to join. -/
theorem submit_returns (h : Follows V b x) (hf : b.SumsFit V) (hk : takenKind r.kind) :
    ∃ n y b', Book.submit V n r b = some (y, b') := by
  have hw := h.orderly.wf
  cases hsc : b.screen V r with
  | some reason => exact ⟨1, _, _, by rw [submit_eq h.orderly.cont, hsc]⟩
  | none =>
    cases ha : b.accept V r with
    | none => exact ⟨1, _, _, by rw [submit_eq h.orderly.cont, hsc]; dsimp only; rw [ha]⟩
    | some z =>
      obtain ⟨i, b1⟩ := z
      obtain ⟨hq, hdup, -⟩ := screen_none hsc
      have hact : Act V .accept b b1 := .accept r i hq hdup ha
      have hw1 := hact.wf hw
      have hun := accept_unmoved hw ha
      have hbody := accept_body hw ha
      have hprice : (b1.core.body i).priceTicks = r.priceTicks := by rw [hbody]; rfl
      have hr := screen_inRange hsc hk.not_market
      have hi : i ∈ b1.inFlight := by
        rw [accept_inFlight ha]
        exact mem_cons_self
      suffices hmatch : ∃ n b2, b1.matchEntry V n r i = some b2 ∧ (b2.core.body i).priceTicks = r.priceTicks by
        obtain ⟨n, b2, hm, hp⟩ := hmatch
        have hr' : inRange V (b2.order i).priceTicks := by
          rw [show (b2.order i).priceTicks = r.priceTicks from hp]
          exact hr
        obtain ⟨b3, hfin⟩ := finish_returns hr'
        refine ⟨n + 1, ((b1.order i).id, .none), b3, ?_⟩
        rw [submit_eq h.orderly.cont, hsc]
        rw [ha]
        dsimp only
        rw [hm, Option.bind_some, hfin]
        rfl
      by_cases hpo : r.type = .postOnly
      · refine ⟨0, b1, ?_, hprice⟩
        unfold Book.matchEntry
        rw [if_neg fun hc => hc.1 hpo]
      · have hloop : Looping V i ((b1.order i).remainingQty, (b1.monoNsNow V).2) := by
          refine ⟨⟨hw1.of_core rfl rfl, hi, le_rfl⟩, fun u => ?_⟩
          show b1.core.best u = u.noBest ∨ inRange V (b1.core.best u)
          rw [hun.best]
          exact (h.orderly.best u).onGrid hw
        have hvis : (b1.monoNsNow V).2.AllVisible V := hun.visible h.orderly.visible
        obtain ⟨n, b2, hm⟩ : ∃ n b2, b1.matchAgainst V n i = some b2 := loop_ends hloop (visible_neverBarren hloop hvis)
        have hentry : b1.matchEntry V n r i = some b2 := by
          unfold Book.matchEntry
          rw [if_pos ⟨hpo, hk.not_hidden⟩, hm]
        refine ⟨n, b2, hentry, ?_⟩
        have hsw : Sweep V r.side.other b1 :=
          hun.sweep (h.orderly.sweep hf h.uncrossed r.side.other) (hact.summed trivial hw h.orderly.summed)
        have hn1 : b1.NoIceberg V := by
          intro p j hj
          rw [hun.queue] at hj
          rw [hun.body p j hj]
          exact h.typed.noIceberg p j hj
        have hside : (b1.core.body i).side = r.side.other.other := by
          rw [hbody, Side.other_other]
          rfl
        have hstp : b1.gates.stpPolicy = .none := by
          rw [(Book.accept_rest ha).2.2.2.1]
          exact h.stp
        obtain ⟨ms, q, fs, -, hmet⟩ := matchAgainst_met hw1 hi hsw hstp hn1 hside hm
        rw [hmet.body]
        exact hprice

theorem modify_returns (h : Sim V b x) (hf : b.SumsFit V) (k : Nat) (newPrice newQty : Int) :
    ∃ n y b', b.modify V n k newPrice newQty = some (y, b') := by
  have hw := h.orderly.wf
  cases hk : b.core.find k with
  | none => exact ⟨0, _, _, by rw [modify_eq h.orderly.cont hw, hk]⟩
  | some i =>
    obtain ⟨p, hi⟩ := h.orderly.cont.queued hw hk
    by_cases hc : newPrice = (b.order i).priceTicks ∧ newQty < (b.order i).totalQty ∧ (b.order i).filledQty < newQty
    · refine ⟨0, ((b.order i).id, .none), b.reduceInPlace k i newQty, ?_⟩
      rw [modify_eq h.orderly.cont hw, hk]
      dsimp only
      rw [if_pos hc]
    · obtain ⟨n, y, b', hs⟩ := submit_returns (r := (b.order i).resubmit k newPrice newQty) (cancelInternal_sim h hf hk false).toFollows
        (SumsFit.cancel hf h.orderly.wf hi false) (.inl (h.typed.queued p i hi))
      refine ⟨n, y, b', ?_⟩
      rw [modify_eq h.orderly.cont hw, hk]
      dsimp only
      rw [if_neg hc, hs]

/-! ## Runs -/

/-- The calls the reference book knows. -/
def RefBook.exec (V : Env) (x : RefBook) : Op → Outcome × RefBook
  | .submit r => let (a, y) := x.submit V r; (.id a.1 a.2, y)
  | .cancel id => let (ok, y) := x.cancel id; (.flag ok, y)
  | .modify id newPrice newQty => let (a, y) := x.modify V id newPrice newQty; (.id a.1 a.2, y)
  | _ => (.unit, x)

/-- LIMIT, IOC, FOK and POST_ONLY orders for the day under automatic ids, cancel and modify, where the sums
    of the levels fit in 32 bits and the pool has a slot. -/
def Book.takes (V : Env) (b : Book) (op : Op) : Bool :=
  decide (b.SumsFit V) && match op with
    | .submit r => decide (plainKind r.kind) && decide (r.orderId = 0) && b.core.freeHead.isSome
    | .cancel _ | .modify .. => true
    | _ => false

/-- The other sums of the call fit as well: those of a FOK order's preview, and what `modify` submits again. -/
def Book.fits (V : Env) (b : Book) : Op → Bool
  | .submit r => b.fokFits V r
  | .modify id _ newQty => b.refits id newQty
  | _ => true

def Book.plays (V : Env) (b : Book) (op : Op) : Prop := b.takes V op = true ∧ b.fits V op = true

/-- The two books after the same calls. -/
inductive Twin (V : Env) (P : Book → Op → Prop) : Book → RefBook → Prop
  | init : Twin V P (fresh V) {}
  | step {b b' : Book} {x : RefBook} {op : Op} {a : Outcome} : Twin V P b x → P b op → Book.Step V b op a b' →
      Twin V P b' (x.exec V op).2

/-- What the book shows is what the reference book says: the tape, what became of each order, the queue at
    each price; and a call that meets `P` returns, with the reference book's answer. -/
structure PriceTime (V : Env) (P : Book → Op → Prop) (b : Book) (x : RefBook) : Prop where
  trades : b.tape.trades.map Trade.print = x.trades
  fates : b.log.reverse.flatMap Report.fates = x.fates
  queues : ∀ p, b.tickets V p = x.queueAt p
  returns : ∀ op, P b op → ∃ a b', Book.Step V b op a b'
  answers : ∀ op, P b op → ∀ a b', Book.Step V b op a b' → a = (x.exec V op).1

theorem exec_sim {a : Outcome} (h : Sim V b x) (hp : b.plays V op) (he : Book.exec V n op b = some (a, b')) :
    a = (x.exec V op).1 ∧ Sim V b' (x.exec V op).2 := by
  obtain ⟨ht, hfit⟩ := hp
  simp only [Book.takes, and_eq_true, decide_eq_true_eq] at ht
  obtain ⟨hf, hp⟩ := ht
  cases op with
  | submit r =>
    simp only [and_eq_true, decide_eq_true_eq] at hp
    obtain ⟨⟨hk, h0⟩, hfree⟩ := hp
    obtain ⟨⟨y, b1⟩, hs, he⟩ := Option.map_eq_some_iff.mp he
    cases he
    obtain ⟨hy, hsim⟩ := submit_sim h hk hf hfit (fun hne => absurd h0 hne) (Option.isSome_iff_ne_none.mp hfree) hs
    refine ⟨?_, hsim⟩
    rw [hy]
    rfl
  | cancel k =>
    cases he
    obtain ⟨hy, hsim⟩ := cancel_sim h hf k
    refine ⟨?_, hsim⟩
    rw [hy]
    rfl
  | modify k newPrice newQty =>
    obtain ⟨⟨y, b1⟩, hm, he⟩ := Option.map_eq_some_iff.mp he
    cases he
    obtain ⟨hy, hsim⟩ := modify_sim h hf hfit hm
    refine ⟨?_, hsim⟩
    rw [hy]
    rfl
  | _ => cases hp

theorem exec_returns (h : Sim V b x) (hp : b.plays V op) : ∃ a b', Book.Step V b op a b' := by
  have ht := hp.1
  simp only [Book.takes, and_eq_true, decide_eq_true_eq] at ht
  obtain ⟨hf, hp⟩ := ht
  cases op with
  | submit r =>
    simp only [and_eq_true, decide_eq_true_eq] at hp
    obtain ⟨n, y, b', hs⟩ := submit_returns h.toFollows hf (.inl hp.1.1)
    exact ⟨_, b', n, Option.map_eq_some_iff.mpr ⟨_, hs, rfl⟩⟩
  | cancel k => exact ⟨_, _, 0, rfl⟩
  | modify k newPrice newQty =>
    obtain ⟨n, y, b', hs⟩ := modify_returns h hf k newPrice newQty
    exact ⟨_, b', n, Option.map_eq_some_iff.mpr ⟨_, hs, rfl⟩⟩
  | _ => cases hp

theorem fresh_sim (V : Env) : Sim V (fresh V) {} := by
  have hnone : ∀ s p, ¬ (fresh V).core.Rests V s p := by
    rintro s p ⟨i, hi, -⟩
    rw [fresh_queue] at hi
    cases hi
  refine ⟨⟨fresh_orderly V, fun p q hp => absurd hp (hnone _ _), rfl, fresh_typed, fun e he => (by cases he),
    fun s => ?_, rfl, rfl, rfl⟩, fresh_settling V, fun s m hm => (by cases hm)⟩
  unfold Book.ranked Book.tickets
  simp only [fresh_queue, map_nil, filter_nil]
  exact flatMap_eq_nil_iff.mpr fun _ _ => rfl

theorem Twin.sim (h : Twin V (Book.plays V) b x) : Sim V b x := by
  induction h with
  | init => exact fresh_sim V
  | step _ hp hs ih =>
    obtain ⟨n, hn⟩ := hs
    exact (exec_sim ih hp hn).2

theorem Twin.reach (h : Twin V (Book.plays V) b x) : Book.Reach V (fun _ op _ => op.entry = true) b := by
  induction h with
  | init => exact .init
  | @step b b' x op a _ hp hs ih =>
    refine .step ih hs ?_
    have ht := hp.1
    simp only [Book.takes, and_eq_true] at ht
    cases op with
    | submit | cancel | modify => rfl
    | _ => cases ht.2

/-- A level holds orders of one side. -/
theorem Follows.queueAt (h : Follows V b x) (p : Int) : b.tickets V p = x.queueAt p := by
  have hw := h.orderly.wf
  unfold RefBook.queueAt
  rw [← h.agrees.orders, ← h.agrees.orders, filter_append]
  by_cases hp : inRange V p
  · rw [ranked_at hw hp, ranked_at hw hp]
    by_cases hb : b.core.Rests V .buy p
    · have hs : ∀ m ∈ b.tickets V p, m.side = .buy := by
        intro m hm
        obtain ⟨i, hi, rfl⟩ := mem_tickets.mp hm
        cases hsd : (b.core.body i).side with
        | buy => exact hsd
        | sell => exact absurd (h.uncrossed p p hb ⟨i, hi, hsd⟩) (lt_irrefl _)
      rw [filter_eq_self.mpr fun m hm => decide_eq_true (hs m hm),
        filter_eq_nil_iff.mpr fun m hm hc => by rw [hs m hm] at hc; simp at hc, append_nil]
    · have hs : ∀ m ∈ b.tickets V p, m.side = .sell := by
        intro m hm
        obtain ⟨i, hi, rfl⟩ := mem_tickets.mp hm
        cases hsd : (b.core.body i).side with
        | buy => exact absurd ⟨i, hi, hsd⟩ hb
        | sell => exact hsd
      rw [filter_eq_nil_iff.mpr fun m hm hc => by rw [hs m hm] at hc; simp at hc,
        filter_eq_self.mpr fun m hm => decide_eq_true (hs m hm), nil_append]
  · have hnil : ∀ s : Side, (b.ranked V s).filter (·.price = p) = [] := by
      intro s
      refine filter_eq_nil_iff.mpr fun m hm hc => hp ?_
      obtain ⟨-, r, i, hi, rfl⟩ := mem_ranked hm
      rw [← of_decide_eq_true hc, hw.ticket_price hi]
      exact hw.links.grid r i hi
    rw [hnil, hnil]
    refine map_eq_nil_iff.mpr (eq_nil_iff_forall_not_mem.mpr fun i hi => hp ?_)
    exact hw.links.grid p i hi

end

/-- In a run where no sum leaves 32 bits, the book is the reference book. -/
theorem price_time_priority {V : Env} {b : Book} {x : RefBook} (h : Twin V (Book.plays V) b x) :
    PriceTime V (Book.plays V) b x := by
  have hsim := h.sim
  refine ⟨(Reach.told h.reach).trades.trans hsim.agrees.trades, hsim.agrees.fates, hsim.queueAt,
    fun op hp => exec_returns hsim hp, fun op hp a b' hs => ?_⟩
  obtain ⟨n, hn⟩ := hs
  exact (exec_sim hsim hp hn).1

theorem Twin.run {V : Env} {P : Book → Op → Prop} {n : Nat} {chk : Book → Op → Book → Bool}
    (hP : ∀ b op b', chk b op b' → P b op) (ops : List Op) {b b' : Book} {x : RefBook} (h : Twin V P b x)
    (hrun : Book.runIf V n chk ops b = some b') : Twin V P b' (ops.foldl (fun x op => (x.exec V op).2) x) := by
  induction ops generalizing b x with
  | nil =>
    cases hrun
    exact h
  | cons op ops ih =>
    unfold Book.runIf at hrun
    split at hrun
    · cases hrun
    · rename_i a b1 he
      split at hrun
      · rename_i hc
        exact ih (.step h (hP _ _ _ hc) ⟨n, he⟩) hrun
      · cases hrun

/-- Two sells at one price, one below; the first is lowered in place, the second moved; a FOK takes one and
    a half of them, an IOC the rest. -/
theorem price_time_priority_small : ∃ b x, Twin smallEnv (Book.plays smallEnv) b x ∧
    x.trades = [(1, 4, 3, 2, .buy), (3, 4, 4, 2, .buy), (3, 5, 4, 3, .buy), (2, 5, 4, 5, .buy)] ∧
    PriceTime smallEnv (Book.plays smallEnv) b x := by
  let ops : List Op := [.submit { side := .sell, priceTicks := 3, qty := 5 },
    .submit { side := .sell, priceTicks := 3, qty := 5 }, .submit { side := .sell, priceTicks := 4, qty := 5 },
    .modify 1 3 2, .modify 2 4 5,
    .submit { side := .buy, priceTicks := 4, qty := 4, type := .fok },
    .submit { side := .buy, priceTicks := 5, qty := 9, type := .ioc }]
  have hrun : (Book.runIf smallEnv 20 (fun b op _ => b.takes smallEnv op && b.fits smallEnv op) ops
      (fresh smallEnv)).isSome = true := by decide +kernel
  have htrades : (ops.foldl (fun x op => (x.exec smallEnv op).2) ({} : RefBook)).trades =
      [(1, 4, 3, 2, .buy), (3, 4, 4, 2, .buy), (3, 5, 4, 3, .buy), (2, 5, 4, 5, .buy)] := by decide +kernel
  obtain ⟨b, hb⟩ := Option.isSome_iff_exists.mp hrun
  have ht : Twin smallEnv (Book.plays smallEnv) b _ := Twin.run (fun b op b' h => by
    rw [Bool.and_eq_true] at h
    exact h) ops .init hb
  exact ⟨b, _, ht, htrades, price_time_priority ht⟩

/-- The preview of a FOK order adds up what two levels show, past 32 bits, and refuses what could be filled. -/
theorem fok_preview_overflows : ∃ b x, Twin smallEnv (fun b op => b.takes smallEnv op = true) b x ∧
    ¬ PriceTime smallEnv (fun b op => b.takes smallEnv op = true) b x := by
  let ops : List Op := [.submit { side := .sell, priceTicks := 3, qty := 2147483646 },
    .submit { side := .sell, priceTicks := 4, qty := 2147483647 }]
  let op : Op := .submit { side := .buy, priceTicks := 4, qty := 2147483647, type := .fok }
  have hrun : (Book.runIf smallEnv 20 (fun b op _ => b.takes smallEnv op) ops (fresh smallEnv)).any (fun b =>
      b.takes smallEnv op && (Book.exec smallEnv 20 op b).any fun y => y.1 = .id 0 .fokNotFillable) = true := by decide +kernel
  have hans : ((ops.foldl (fun x op => (x.exec smallEnv op).2) ({} : RefBook)).exec smallEnv op).1 = .id 3 .none := by
    decide +kernel
  obtain ⟨b, hb, hf⟩ := (Option.any_eq_true _ _).mp hrun
  rw [Bool.and_eq_true] at hf
  obtain ⟨⟨a, b'⟩, he, ha⟩ := (Option.any_eq_true _ _).mp hf.2
  have ht : Twin smallEnv (fun b op => b.takes smallEnv op = true) b
      (ops.foldl (fun x op => (x.exec smallEnv op).2) {}) := by
    refine Twin.run (fun _ _ _ h => ?_) ops .init hb
    exact h
  refine ⟨b, _, ht, fun h => ?_⟩
  have hsame := h.answers op hf.1 a b' ⟨20, he⟩
  have ha : a = .id 0 .fokNotFillable := of_decide_eq_true ha
  rw [hans, ha] at hsame
  cases hsame

end HftLab.OrderBook
