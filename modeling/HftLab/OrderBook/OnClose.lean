/-
  HftLab.OrderBook.OnClose — what `run_closing_auction` does with the queued on-close orders.

  Every queued order meets one of four fates: the injection is refused and a REJECT event says so; the order is executed
  completely; what the cross leaves of it is cancelled and counted; or it is gone before the sweep, with a report of its
  end. None of them rests afterwards and both queues are empty (`runClosingAuction_disposes`). Without brackets the call
  always returns (`runClosingAuction_returns`).

  The sweep looks an order up by its id, so no other live order may be under the id of a queued one (`Sole`).
-/

import HftLab.OrderBook.Injections
import HftLab.OrderBook.Takings

namespace HftLab.OrderBook

open Lib List

/-! ## Fates -/

/-- What becomes of a queued order. -/
inductive Disposal where
  | refused
  | executed
  | unfilled
  | withdrawn
  deriving DecidableEq

/-- The report is of the execution that completes the order with id `k`. -/
def Report.completes (k : Nat) : Report → Bool
  | .fill m _ q => m.id = k && m.totalQty ≤ m.filledQty + q
  | .auctionFill o q => o.id = k && o.totalQty ≤ o.filledQty + q
  | _ => false

namespace Book

def eventsSince (b b' : Book) : List BookEvent := b'.tape.events.drop b.tape.events.length

/-- Newest first. -/
def reportsSince (b b' : Book) : List Report := b'.log.take (b'.log.length - b.log.length)

/-- The reports are of the entry of an order under the id `k`. -/
def Entry (k : Nat) (l : List Report) : Prop := ∃ o, .accept o ∈ l ∧ o.id = k

/-- What the events and the reports from `b` to `b'` say of the order queued under `k`. An order that is left unfilled
    was cancelled with a rest, or the book had no best price on either side and nothing entered at all. -/
def Met (b b' : Book) (k : Nat) : Disposal → Prop
  | .refused => ∃ e ∈ b.eventsSince b', e.type = .reject ∧ e.orderId = k
  | .executed => Entry k (b.reportsSince b') ∧ ∃ e ∈ b.reportsSince b', e.completes k = true
  | .unfilled =>
    Entry k (b.reportsSince b') ∧ (∃ o, .cancel o ∈ b.reportsSince b' ∧ o.id = k ∧ 0 < o.remainingQty) ∨
      b.bookRange = none ∧ b.reportsSince b' = []
  | .withdrawn => Entry k (b.reportsSince b') ∧ ∃ e ∈ b.reportsSince b', e.ends k = true ∧ e.completes k = false

/-- The order queued under `k` met the fate, and no order is live under `k` but one that was found under it before. -/
structure Disposed (V : Env) (b b' : Book) (k : Nat) (f : Disposal) : Prop where
  met : b.Met b' k f
  gone : ∀ i, b'.Live V i → (b'.order i).id = k → b.core.find k = some i

end Book

section

variable {V : Env} {b c c' d b' b₁ : Book} {k i n : Nat} {r : Request} {ids locIds mocIds : List Nat} {lo hi : Int}
    {res : AuctionResult} {S : List Report → Prop}

theorem eventsSince_eq {es : List BookEvent} (h : c.tape.events = b.tape.events ++ es) : b.eventsSince c = es := by
  unfold Book.eventsSince
  rw [h, drop_left]

theorem reportsSince_eq {l : List Report} (h : c.log = l ++ b.log) : b.reportsSince c = l := by
  unfold Book.reportsSince
  rw [h, length_append, Nat.add_sub_cancel, take_left]

/-! ## Steps that pass an id by -/

/-- What holds on account of the order under `k` still does, and events are only added. -/
structure Passes (V : Env) (k : Nat) (c c' : Book) : Prop where
  carries : ∀ I, Carried V k I → I c → I c'
  events : c.tape.events <+: c'.tape.events

theorem Passes.refl (c : Book) : Passes V k c c := ⟨fun _ _ h => h, prefix_rfl⟩

theorem Passes.trans {c'' : Book} (h : Passes V k c c') (h' : Passes V k c' c'') : Passes V k c c'' :=
  ⟨fun I hI hc => h'.carries I hI (h.carries I hI hc), h.events.trans h'.events⟩

/-- A write outside the orders and the streams. -/
theorem Passes.aside (hs : SameSlots c c') (hf : Frozen c c') (hb : c'.brackets = c.brackets)
    (he : c'.tape.events = c.tape.events) (hn : c'.core.nextOrderId = c.core.nextOrderId) : Passes V k c c' :=
  ⟨fun _ hI hc => hI.kept.does (aux_does hs hf hb trivial hn) hc, he ▸ prefix_rfl⟩

theorem Passes.cancel (ht : Tracked V c i) : Passes V k c (c.cancelInternal V i true) :=
  ⟨fun _ hI hc => hI.kept.cancelInternal ht hc, (cancelInternal_adds i true).events⟩

theorem Passes.oco (c : Book) : Passes V k c (c.processOcoPending V) :=
  ⟨fun _ hI hc => (hI.kept.processOcoPending hc).1, ((Adds.walk V).processOcoPending _).events⟩

theorem Passes.auction (h : c.runAuction V n = some (res, c')) : Passes V k c c' := by
  refine ⟨fun I hI hc => ?_, ((Adds.walk V).runAuction h).events⟩
  unfold Book.runAuction at h
  dsimp only at h
  split at h
  · split at h
    · cases h
    · rename_i c1 hp
      cases h
      have hcross := hI.kept.does (executeAuction_does trivial trivial (min c.core.bestBid c.core.bestAsk)
        (max c.core.bestBid c.core.bestAsk) (c.core.indicativeAuctionInfo V).clearingPriceTicks
        (c.core.indicativeAuctionInfo V).matchedQty (hI.kept.wf hc)) hc
      have hrests := hI.kept.processOcoPending (hI.kept.sweepGtx hcross)
      exact (hI.kept.processBracketPending (hI.kept.keepsAuto n) n hrests hp).1
  · cases h
    exact hc

/-! ## Where an order is on its way -/

/-- The injection of the order was refused since `b`, and an event says so. -/
structure Refused (V : Env) (b : Book) (k : Nat) (c : Book) : Prop where
  traced : Traced V k b c
  told : ∃ e es, c.tape.events = b.tape.events ++ es ∧ e ∈ es ∧ e.type = .reject ∧ e.orderId = k

/-- The order entered since `b`. -/
def InBook (V : Env) (b : Book) (k : Nat) (c : Book) : Prop :=
  ∃ d i l, Rested V k d c ∧ d.core.find k = some i ∧ d.log = l ++ b.log ∧ Book.Entry k l

/-- The order is gone, and the reports since `b` say `S`. -/
def Over (V : Env) (S : List Report → Prop) (b : Book) (k : Nat) (c : Book) : Prop :=
  ∃ d l, Traced V k d c ∧ d.core.find k = none ∧ d.log = l ++ b.log ∧ S l

theorem Refused.pass (h : Refused V b k c) (hp : Passes V k c c') : Refused V b k c' := by
  obtain ⟨e, es, hes, he⟩ := h.told
  obtain ⟨fs, hfs⟩ := hp.events
  refine ⟨hp.carries _ (traced_carried V k b) h.traced, e, es ++ fs, ?_, mem_append_left _ he.1, he.2⟩
  rw [← hfs, hes, append_assoc]

theorem InBook.pass (h : InBook V b k c) (hp : Passes V k c c') : InBook V b k c' := by
  obtain ⟨d, i, l, hr, hd⟩ := h
  exact ⟨d, i, l, hp.carries _ (rested_carried V k d) hr, hd⟩

theorem Over.pass (h : Over V S b k c) (hp : Passes V k c c') : Over V S b k c' := by
  obtain ⟨d, l, ht, hd⟩ := h
  exact ⟨d, l, hp.carries _ (traced_carried V k d) ht, hd⟩

/-- An order of the book that is no longer found has a report of its end. -/
theorem InBook.over (h : InBook V b k c) (hf : c.core.find k = none) :
    Over V (fun l => Book.Entry k l ∧ ∃ e ∈ l, e.ends k) b k c := by
  obtain ⟨d, i, l, hr, hd, hl, o, ho, hid⟩ := h
  obtain ⟨l', hl', hk⟩ := hr.traced.log
  have hgone := hk.resolve_left fun hsame => by
    rw [hf, hd] at hsame
    cases hsame
  obtain ⟨-, e, he, hends⟩ := hgone
  refine ⟨c, l' ++ l, Traced.refl hr.traced.wf hr.traced.sole hr.traced.past, hf, ?_, ?_⟩
  · rw [hl', hl, append_assoc]
  · exact ⟨⟨o, mem_append_right _ ho, hid⟩, e, mem_append_left _ he, hends⟩

/-- An order of the book that is found is cancelled with what is left of it. -/
theorem InBook.cancel (h : InBook V b k c) (hf : c.core.find k = some i) :
    Over V (fun l => Book.Entry k l ∧ ∃ o, .cancel o ∈ l ∧ o.id = k ∧ 0 < o.remainingQty) b k (c.cancelInternal V i true) := by
  obtain ⟨d, j, l, hr, -, hl, o, ho, hid⟩ := h
  have hw := hr.traced.wf
  obtain ⟨p, hp⟩ := hr.queued hf
  obtain ⟨hki, -⟩ := hw.found hf
  have hcancel : Rested V k d (c.cancelInternal V i true) := hr.act (.cancel p i hp) trivial
  obtain ⟨l', hl', -⟩ := hr.traced.log
  have hnone : (c.cancelInternal V i true).core.find k = none := by
    rw [find_erased (cancelInternal_gone hw hp true).1, hki, if_pos rfl]
  have ht := hcancel.traced
  refine ⟨_, .cancel (c.order i) :: (l' ++ l), Traced.refl ht.wf ht.sole ht.past, hnone, ?_, ?_, ?_⟩
  · rw [(Book.cancelInternal_rest true (hw.resting hp).active).1, hl', hl]
    simp
  · exact ⟨o, mem_cons_of_mem _ (mem_append_right _ ho), hid⟩
  · exact ⟨c.order i, mem_cons_self, hki, hw.remaining_pos hp⟩

/-! ## At the end of the call -/

theorem Traced.gone_of (h : Traced V k b c) (hi : c.Live V i) (hid : (c.order i).id = k) : b.core.find k = some i := by
  have hfind := h.sole.live i hi hid
  obtain ⟨l, -, hk⟩ := h.log
  rcases hk with hsame | ⟨hnone, -⟩
  · rw [← hsame]
    exact hfind
  · rw [hfind] at hnone
    cases hnone

theorem Refused.disposed (h : Refused V b k c) : Book.Disposed V b c k .refused := by
  refine ⟨?_, fun i hi hid => h.traced.gone_of hi hid⟩
  obtain ⟨e, es, hes, he⟩ := h.told
  refine ⟨e, ?_, he.2⟩
  rw [eventsSince_eq hes]
  exact he.1

/-- What the reports said when the order was gone they still say. -/
theorem Over.since (hS : ∀ l l', S l → S (l' ++ l)) (h : Over V S b k c) : S (b.reportsSince c) ∧
    ∀ i, c.Live V i → (c.order i).id ≠ k := by
  obtain ⟨d, l, ht, hd, hl, hs⟩ := h
  obtain ⟨l', hl', -⟩ := ht.log
  have hlog : c.log = (l' ++ l) ++ b.log := by
    rw [hl', hl, append_assoc]
  refine ⟨?_, fun i hi hid => ?_⟩
  · rw [reportsSince_eq hlog]
    exact hS l l' hs
  · have hfind := ht.gone_of hi hid
    rw [hd] at hfind
    cases hfind

theorem Over.executed_or (h : Over V (fun l => Book.Entry k l ∧ ∃ e ∈ l, e.ends k) b k c) :
    Book.Disposed V b c k (if (b.reportsSince c).any (·.completes k) then .executed else .withdrawn) := by
  obtain ⟨⟨hentry, e, he, hends⟩, hgone⟩ := h.since (by
    intro l l' hs
    obtain ⟨⟨o, ho, hid⟩, e, he, hends⟩ := hs
    exact ⟨⟨o, mem_append_right _ ho, hid⟩, e, mem_append_right _ he, hends⟩)
  refine ⟨?_, fun i hi hid => absurd hid (hgone i hi)⟩
  split
  · rename_i hany
    obtain ⟨e, he, hc⟩ := any_eq_true.mp hany
    exact ⟨hentry, e, he, hc⟩
  · rename_i hany
    refine ⟨hentry, e, he, hends, ?_⟩
    by_contra hc
    exact hany (any_eq_true.mpr ⟨e, he, by simpa using hc⟩)

theorem Over.unfilled (h : Over V (fun l => Book.Entry k l ∧ ∃ o, .cancel o ∈ l ∧ o.id = k ∧ 0 < o.remainingQty) b k c) :
    Book.Disposed V b c k .unfilled := by
  obtain ⟨hs, hgone⟩ := h.since (by
    intro l l' hs
    obtain ⟨⟨o, ho, hid⟩, x, hx, hxid⟩ := hs
    exact ⟨⟨o, mem_append_right _ ho, hid⟩, x, mem_append_right _ hx, hxid⟩)
  exact ⟨.inl hs, fun i hi hid => absurd hid (hgone i hi)⟩

/-! ## The injections -/

theorem Passes.refused (why : RejectReason) : Passes V k c ((c.admission V r).2.reject r why) :=
  ⟨fun _ hI hc => reject_carried hI.kept why hc, ((admission_adds r).trans (reject_adds r why)).events⟩

theorem Enters.passes {c1 : Book} (h : Enters V r c i c1 c') (hw : Wf V c) (h0 : r.orderId ≠ 0) (hne : r.orderId ≠ k)
    (he : Adds c c') : Passes V k c c' := by
  refine ⟨fun I hI hc => h.carried hw hI ?_ hc, he.events⟩
  unfold Core.newId
  rw [if_neg h0]
  exact hne

/-- The requests of on-close orders: limit orders for the day under ids of their own. -/
structure Request.OnClose (r : Request) : Prop where
  type : r.type = .limit
  tif : r.tif = .day
  id : r.orderId ≠ 0

/-- One injection: refused, or in the book from now on. Orders under other ids are passed by. -/
theorem inject_one (hw : Wf V c) (hx : c.inFlight = []) (ha : c.gates.inAuctionMode) (hr : r.OnClose)
    {x : Nat × RejectReason} (hs : Book.submit V n r c = some (x, c')) :
    x.1 = 0 ∧ (∀ k, Passes V k c c') ∧ c'.core = c.core ∧ c'.log = c.log ∧ (∀ b, Traced V r.orderId b c →
        b.tape.events <+: c.tape.events → Refused V b r.orderId c') ∨
      x.1 = r.orderId ∧ (∀ k, k ≠ r.orderId → Passes V k c c') ∧ c'.Priced ∧
        ∀ b, Traced V r.orderId b c → InBook V b r.orderId c' := by
  rcases injected hw ha hr.type hr.tif hs with ⟨why, rfl, rfl⟩ | ⟨i, c1, hxid, hen⟩
  · refine .inl ⟨rfl, fun k => .refused why, reject_core why, ?_, fun b ht hpre => ?_⟩
    · obtain ⟨⟨g, a, he, -⟩, -⟩ := admission_spec
      rw [he]
      rfl
    · obtain ⟨e, he, htype, hid⟩ := reject_told why
      obtain ⟨es, hes⟩ := hpre
      refine ⟨(Passes.refused why).carries _ (traced_carried V _ b) ht, e, es ++ [e], ?_, ?_, htype, hid⟩
      · rw [he, ← hes, append_assoc]
      · exact mem_append_right _ (mem_singleton_self e)
  · refine .inr ⟨hxid.trans (hen.id hw hr.id), fun k hk => hen.passes hw hr.id hk.symm ((Adds.walk V).submit n _ _ _ _ hs),
      hen.quoted hw hr.type, fun b ht => ?_⟩
    obtain ⟨hrested, hfind, e, o, hlog, hid⟩ := hen.rested hx hr.id ht
    obtain ⟨l, hl, -⟩ := ht.log
    refine ⟨c', i, e :: .accept o :: l, hrested, hfind, ?_, o, ?_, hid⟩
    · rw [hlog, hl]
      rfl
    · exact mem_cons_of_mem _ mem_cons_self

/-- The injections one after another: `ids` are the orders that entered. -/
structure Injections (V : Env) (rs : List Request) (ids : List Nat) (c c' : Book) : Prop where
  sub : ids.Sublist (rs.map (·.orderId))
  passes : ∀ k, k ∉ rs.map (·.orderId) → Passes V k c c'
  entered : ∀ b, ∀ k ∈ ids, Traced V k b c → InBook V b k c'
  refused : ∀ b, ∀ k ∈ rs.map (·.orderId), k ∉ ids → Traced V k b c → b.tape.events <+: c.tape.events → Refused V b k c'
  quoted : ids ≠ [] ∨ c.Priced → c'.Priced
  quiet : ids = [] → c'.core = c.core ∧ c'.log = c.log

theorem inject_injections (rs : List Request) (hw : Wf V c) (hx : c.inFlight = []) (ha : c.gates.inAuctionMode)
    (hrs : ∀ r ∈ rs, r.OnClose) (hn : (rs.map (·.orderId)).Nodup) (hs : Book.inject (Book.submit V n) rs c = some (ids, c')) :
    Injections V rs ids c c' := by
  induction rs generalizing c ids with
  | nil =>
    cases hs
    refine ⟨List.Sublist.refl _, fun k _ => .refl _, fun _ _ hk => absurd hk not_mem_nil,
      fun _ _ hk => absurd hk not_mem_nil, fun h => h.resolve_left fun hne => hne rfl, fun _ => ⟨rfl, rfl⟩⟩
  | cons r rs ih =>
    unfold Book.inject at hs
    split at hs
    · cases hs
    · rename_i id why c1 hsub
      split at hs
      · cases hs
      · rename_i ids' c2 hrest
        cases hs
        have hr := hrs r mem_cons_self
        have hd := submit_does n _ _ _ _ hw (.inl trivial) hsub
        rw [map_cons, nodup_cons] at hn
        have hrec := ih (hd.wf hw) (hd.inFlight.trans hx) (submit_auction hw ha hsub).2
          (fun r' hr' => hrs r' (mem_cons_of_mem _ hr')) hn.2 hrest
        have hadds : c.tape.events <+: c1.tape.events := ((Adds.walk V).submit n _ _ _ _ hsub).events
        rcases inject_one hw hx ha hr hsub with ⟨rfl, hpass, hcore, hlog, href⟩ | ⟨hid, hpass, hquoted, hin⟩
        · -- the injection is refused
          rw [if_pos rfl]
          have hmoved : ∀ b k, Traced V k b c → Traced V k b c1 := fun b k ht => (hpass k).carries _ (traced_carried V k b) ht
          refine ⟨hrec.sub.cons _, fun k hk => ?_, fun b k hk ht => hrec.entered b k hk (hmoved b k ht),
            fun b k hk hout ht hpre => ?_, fun h => hrec.quoted (h.imp id fun hq => ?_),
            fun h => ⟨(hrec.quiet h).1.trans hcore, (hrec.quiet h).2.trans hlog⟩⟩
          · rw [map_cons, mem_cons, not_or] at hk
            exact (hpass k).trans (hrec.passes k hk.2)
          · rw [map_cons, mem_cons] at hk
            rcases hk with rfl | hk
            · exact (href b ht hpre).pass (hrec.passes _ hn.1)
            · exact hrec.refused b k hk hout (hmoved b k ht) (hpre.trans hadds)
          · unfold Book.Priced at hq ⊢
            rw [hcore]
            exact hq
        · -- the order is in the book
          have hid' : id = r.orderId := hid
          rw [hid', if_neg hr.id]
          have hmoved : ∀ b k, k ≠ r.orderId → Traced V k b c → Traced V k b c1 :=
            fun b k hk ht => (hpass k hk).carries _ (traced_carried V k b) ht
          refine ⟨hrec.sub.cons_cons _, fun k hk => ?_, fun b k hk ht => ?_, fun b k hk hout ht hpre => ?_,
            fun _ => hrec.quoted (.inr hquoted), fun h => by cases h⟩
          · rw [map_cons, mem_cons, not_or] at hk
            exact (hpass k hk.1).trans (hrec.passes k hk.2)
          · rcases mem_cons.mp hk with rfl | hk
            · exact (hin b ht).pass (hrec.passes _ hn.1)
            · refine hrec.entered b k hk (hmoved b k ?_ ht)
              rintro rfl
              exact hn.1 (hrec.sub.subset hk)
          · rw [mem_cons, not_or] at hout
            rw [map_cons, mem_cons] at hk
            exact hrec.refused b k (hk.resolve_left hout.1) hout.2 (hmoved b k hout.1 ht) (hpre.trans hadds)

/-! ## The sweep -/

/-- The orders found are counted and cancelled; orders under other ids are found as before. -/
theorem cancelAll_found (ids : List Nat) (m : Nat) (hn : ids.Nodup) (hin : ∀ k ∈ ids, InBook V b k c) (hw : Wf V c) :
    (ids.foldl (Book.cancelFound V) (m, c)).1 = m + ids.countP (fun k => (c.core.find k).isSome) ∧
    (∀ k, Passes V k c (ids.foldl (Book.cancelFound V) (m, c)).2) ∧
    (∀ k, k ∉ ids → (ids.foldl (Book.cancelFound V) (m, c)).2.core.find k = c.core.find k) ∧
    ∀ k ∈ ids, (c.core.find k).isSome → Over V (fun l => Book.Entry k l ∧ ∃ o, .cancel o ∈ l ∧ o.id = k ∧ 0 < o.remainingQty)
      b k (ids.foldl (Book.cancelFound V) (m, c)).2 := by
  induction ids generalizing m c with
  | nil => exact ⟨rfl, fun _ => .refl c, fun _ _ => rfl, fun _ hk => absurd hk not_mem_nil⟩
  | cons id ids ih =>
    rw [nodup_cons] at hn
    rw [foldl_cons]
    cases hf : c.core.find id with
    | none =>
      have hstep : Book.cancelFound V (m, c) id = (m, c) := by
        unfold Book.cancelFound
        rw [hf]
      obtain ⟨h1, h2, h3, h4⟩ := ih m hn.2 (fun k hk => hin k (mem_cons_of_mem _ hk)) hw
      rw [hstep]
      refine ⟨?_, h2, fun k hk => h3 k fun hc => hk (mem_cons_of_mem _ hc), fun k hk hsome => ?_⟩
      · rw [h1, countP_cons_of_neg (by rw [hf]; decide)]
      · rcases mem_cons.mp hk with rfl | hk
        · rw [hf] at hsome
          cases hsome
        · exact h4 k hk hsome
    | some i =>
      have hstep : Book.cancelFound V (m, c) id = (m + 1, c.cancelInternal V i true) := by
        unfold Book.cancelFound
        rw [hf]
      have hpass : ∀ k, Passes V k c (c.cancelInternal V i true) := fun k => .cancel (hw.tracked_of_found hf)
      have hover := (hin id mem_cons_self).cancel hf
      -- The cancel leaves the other ids alone.
      have hfind : ∀ k, k ≠ id → (c.cancelInternal V i true).core.find k = c.core.find k := by
        intro k hk
        obtain ⟨d, j, l, hr, -⟩ := hin id mem_cons_self
        obtain ⟨p, hp⟩ := hr.queued hf
        rw [find_erased (cancelInternal_gone hw hp true).1, (hw.found hf).1, if_neg hk]
      obtain ⟨h1, h2, h3, h4⟩ := ih (m + 1) hn.2 (fun k hk => (hin k (mem_cons_of_mem _ hk)).pass (hpass k))
        ((cancelInternal_does (hw.tracked_of_found hf)).wf hw)
      rw [hstep]
      refine ⟨?_, fun k => (hpass k).trans (h2 k), fun k hk => ?_, fun k hk hsome => ?_⟩
      · have hcount : ids.countP (fun k => ((c.cancelInternal V i true).core.find k).isSome) =
            ids.countP (fun k => (c.core.find k).isSome) := by
          refine countP_congr fun k hk => ?_
          rw [hfind k fun e => hn.1 (e ▸ hk)]
        rw [h1, hcount, countP_cons_of_pos (by rw [hf]; rfl)]
        omega
      · rw [mem_cons, not_or] at hk
        rw [h3 k hk.2, hfind k hk.1]
      · rcases mem_cons.mp hk with rfl | hk'
        · exact hover.pass (h2 _)
        · refine h4 k hk' ?_
          rw [hfind k fun e => hn.1 (e ▸ hk')]
          exact hsome

/-! ## The closing auction -/

/-- The ids of the queued orders are distinct, and were handed out. -/
structure Book.QueueSound (b : Book) : Prop where
  nodup : b.closingIds.Nodup
  issued : ∀ k ∈ b.closingIds, k ≠ 0 ∧ k < b.core.nextOrderId

/-- The queues are empty, and the counters have gone up by the orders left unfilled. -/
def Closing.settled (q : Closing) (fate : Nat → Disposal) : Closing :=
  { q with
    mocQueue := [], locQueue := []
    mocCancelledUnfilled := q.mocCancelledUnfilled + q.mocQueue.countP fun m => fate m.id = .unfilled
    locCancelledUnfilled := q.locCancelledUnfilled + q.locQueue.countP fun l => fate l.id = .unfilled }

theorem LocOrder.request_onClose {l : LocOrder} (h : l.id ≠ 0) : (Book.LocOrder.request l).OnClose := ⟨rfl, rfl, h⟩

theorem MocOrder.request_onClose {m : MocOrder} (h : m.id ≠ 0) : (Book.MocOrder.request lo hi m).OnClose := ⟨rfl, rfl, h⟩

/-- A count over a list of those that are in a sublist. -/
theorem countP_of_sublist {l l' : List Nat} (h : l'.Sublist l) (hn : l.Nodup) (P : Nat → Bool) :
    l.countP (fun k => decide (k ∈ l') && P k) = l'.countP P := by
  have hperm : (l.filter (· ∈ l')).Perm l' := by
    refine (perm_ext_iff_of_nodup (hn.filter _) (hn.sublist h)).mpr fun k => ?_
    rw [mem_filter]
    simp only [decide_eq_true_eq]
    exact ⟨fun hk => hk.2, fun hk => ⟨h.subset hk, hk⟩⟩
  rw [← hperm.countP_eq, countP_filter]
  refine countP_congr fun k _ => ?_
  rw [Bool.and_comm]

theorem moc_ids (lo hi : Int) (q : List MocOrder) : (q.map (Book.MocOrder.request lo hi)).map (·.orderId) = q.map (·.id) := by
  rw [map_map]
  rfl

theorem Book.QueueSound.loc_nodup (h : b.QueueSound) : (b.closing.locQueue.map (·.id)).Nodup := (nodup_append.mp h.nodup).1

theorem Book.QueueSound.moc_nodup (h : b.QueueSound) : (b.closing.mocQueue.map (·.id)).Nodup := (nodup_append.mp h.nodup).2.1

theorem Book.QueueSound.apart (h : b.QueueSound) (hm : k ∈ b.closing.mocQueue.map (·.id)) : k ∉ b.closing.locQueue.map (·.id) :=
  fun hl => (nodup_append.mp h.nodup).2.2 k hl k hm rfl

theorem closing_aside {g : Gates} {x : Closing} (hs : g.stpPolicy = c.gates.stpPolicy) (hf : g.clientToFirm = c.gates.clientToFirm) :
    Passes V k c { c with gates := g, closing := x } :=
  .aside (.of_core rfl rfl) ⟨rfl, rfl, rfl, rfl, hs, hf⟩ rfl rfl rfl

/-- The queued LOC orders have been injected, those of `ids` accepted. -/
structure LocsIn (V : Env) (b : Book) (ids : List Nat) (b₁ : Book) : Prop where
  wf : Wf V b₁
  idle : b₁.inFlight = []
  mode : b₁.gates.inAuctionMode = true
  closing : b₁.closing = b.closing
  sub : ids.Sublist (b.closing.locQueue.map (·.id))
  entered : ∀ k ∈ ids, InBook V b k b₁
  refused : ∀ k ∈ b.closing.locQueue.map (·.id), k ∉ ids → Refused V b k b₁
  others : ∀ k ∈ b.closing.mocQueue.map (·.id), Traced V k b b₁
  events : b.tape.events <+: b₁.tape.events
  quoted : ids ≠ [] → b₁.Priced
  quiet : ids = [] → b₁.core = b.core ∧ b₁.log = b.log

/-- With no price in the book no LOC order has entered, and the MOC orders are dropped. -/
theorem LocsIn.dropped (h : LocsIn V b ids b₁) (hnone : ¬ b₁.Priced) (x : Closing) :
    ∀ k ∈ b.closingIds, Book.Disposed V b (({ b₁ with closing := x }.setAuction false).setInternal false) k
      (if k ∈ b.closing.mocQueue.map (·.id) then .unfilled else .refused) := by
  have hids : ids = [] := by
    by_contra hne
    exact hnone (h.quoted hne)
  have hpass : ∀ k, Passes V k b₁ (({ b₁ with closing := x }.setAuction false).setInternal false) := fun k =>
    .aside (.of_core rfl rfl) ⟨rfl, rfl, rfl, rfl, rfl, rfl⟩ rfl rfl rfl
  intro k hk
  split
  · rename_i hm
    have ht := (hpass k).carries _ (traced_carried V k b) (h.others k hm)
    obtain ⟨hcore, hlog⟩ := h.quiet hids
    refine ⟨.inr ⟨(bookRange_none_iff b).mpr ?_, reportsSince_eq hlog⟩, fun i hi hid => ht.gone_of hi hid⟩
    unfold Book.Priced at hnone ⊢
    rwa [hcore] at hnone
  · rename_i hm
    have hl := (mem_append.mp hk).resolve_right hm
    have hout : k ∉ ids := by
      rw [hids]
      exact not_mem_nil
    exact ((h.refused k hl hout).pass (hpass k)).disposed

/-- The queued orders have been injected and the auction has run, up to the sweep. -/
structure AtCross (V : Env) (b : Book) (locIds mocIds : List Nat) (b₁ : Book) : Prop where
  wf : Wf V b₁
  closing : b₁.closing = { b.closing with locQueue := [], mocQueue := [] }
  subLoc : locIds.Sublist (b.closing.locQueue.map (·.id))
  subMoc : mocIds.Sublist (b.closing.mocQueue.map (·.id))
  entered : ∀ k, k ∈ locIds ∨ k ∈ mocIds → InBook V b k b₁
  refused : ∀ k ∈ b.closingIds, k ∉ locIds → k ∉ mocIds → Refused V b k b₁

theorem LocsIn.crossed {b2 : Book} (h : LocsIn V b locIds b₁) (hq : b.QueueSound)
    (hs : Book.inject (Book.submit V n) (b₁.closing.mocQueue.map (Book.MocOrder.request lo hi))
      { b₁ with closing := { b₁.closing with locQueue := [] } } = some (mocIds, b2))
    (hrun : (({ b2 with closing := { b2.closing with mocQueue := [] } }.setAuction false).setInternal false).runAuction V n = some (res, c)) :
    AtCross V b locIds mocIds c := by
  rw [h.closing] at hs
  have hstart : ∀ k, Passes V k b₁ { b₁ with closing := { b.closing with locQueue := [] } } := fun k => closing_aside rfl rfl
  have hw0 : Wf V { b₁ with closing := { b.closing with locQueue := [] } } :=
    h.wf.aside (.of_core rfl rfl)
  have hin := inject_injections (b.closing.mocQueue.map (Book.MocOrder.request lo hi)) hw0 h.idle h.mode (fun r hr => by
    obtain ⟨m, hm, rfl⟩ := mem_map.mp hr
    exact MocOrder.request_onClose (hq.issued _ (mem_append_right _ (mem_map_of_mem hm))).1) (by
    rw [moc_ids]
    exact hq.moc_nodup) hs
  have hd := inject_does (submit_does n) _ hw0 (.inl trivial) hs
  have hsub := hin.sub
  have hpasses := hin.passes
  have hrefused := hin.refused b
  rw [moc_ids] at hsub hpasses hrefused
  have hw2 : Wf V (({ b2 with closing := { b2.closing with mocQueue := [] } }.setAuction false).setInternal false) :=
    (hd.wf hw0).aside (.of_core rfl rfl)
  have hgate : ∀ k, Passes V k b2 (({ b2 with closing := { b2.closing with mocQueue := [] } }.setAuction false).setInternal false) :=
    fun k => .aside (.of_core rfl rfl) ⟨rfl, rfl, rfl, rfl, rfl, rfl⟩ rfl rfl rfl
  have hcross : ∀ k, Passes V k b2 c := fun k => (hgate k).trans (Passes.auction hrun)
  have hclosing : b2.closing = { b.closing with locQueue := [] } := inject_auction _ hw0 h.mode hs
  -- A LOC order is passed by while the MOC orders enter.
  have hnotMoc : ∀ k ∈ b.closing.locQueue.map (·.id), k ∉ b.closing.mocQueue.map (·.id) := fun k hl hm => hq.apart hm hl
  refine ⟨(runAuction_does hw2 (.inl trivial) hrun).wf hw2, ?_, h.sub, hsub, fun k hk => ?_, fun k hk hl hm => ?_⟩
  · rw [((Adds.walk V).runAuction hrun).closing]
    show { b2.closing with mocQueue := [] } = _
    rw [hclosing]
  · rcases hk with hk | hk
    · exact (((h.entered k hk).pass (hstart k)).pass (hpasses k (hnotMoc k (h.sub.subset hk)))).pass (hcross k)
    · have ht := (hstart k).carries _ (traced_carried V k b) (h.others k (hsub.subset hk))
      exact (hin.entered b k hk ht).pass (hcross k)
  · rcases mem_append.mp hk with hk | hk
    · exact (((h.refused k hk hl).pass (hstart k)).pass (hpasses k (hnotMoc k hk))).pass (hcross k)
    · have ht := (hstart k).carries _ (traced_carried V k b) (h.others k hk)
      exact (hrefused k hk hm ht h.events).pass (hcross k)

theorem cancelInjected_closing (ids : List Nat) : (c.cancelInjected V ids).2.closing = c.closing :=
  cancelInjected_keeps (I := fun d => d.closing = c.closing) (fun _ _ i hd _ => (cancelInternal_adds i true).closing.trans hd) ids rfl

theorem cancelMocUnfilled_closing (ids : List Nat) : (c.cancelMocUnfilled V ids).closing =
    { c.closing with mocCancelledUnfilled := c.closing.mocCancelledUnfilled + (c.cancelInjected V ids).1 } := by
  have h := cancelInjected_closing (V := V) (c := c) ids
  unfold Book.cancelMocUnfilled
  dsimp only
  rw [h]

theorem cancelLocUnfilled_closing (ids : List Nat) : (c.cancelLocUnfilled V ids).closing =
    { c.closing with locCancelledUnfilled := c.closing.locCancelledUnfilled + (c.cancelInjected V ids).1 } := by
  have h := cancelInjected_closing (V := V) (c := c) ids
  unfold Book.cancelLocUnfilled
  dsimp only
  rw [h]

/-- The orders that entered: left unfilled if the sweep finds them, else executed or withdrawn. -/
def AtCross.fate (locIds mocIds : List Nat) (b b₁ b' : Book) (k : Nat) : Disposal :=
  if k ∈ locIds ∨ k ∈ mocIds then
    if (b₁.core.find k).isSome then .unfilled
    else if (b.reportsSince b').any (·.completes k) then .executed else .withdrawn
  else .refused

theorem AtCross.fate_unfilled : AtCross.fate locIds mocIds b b₁ b' k = .unfilled ↔
    (k ∈ locIds ∨ k ∈ mocIds) ∧ (b₁.core.find k).isSome := by
  unfold AtCross.fate
  split
  · rename_i hk
    split
    · rename_i hf
      exact ⟨fun _ => ⟨hk, hf⟩, fun _ => rfl⟩
    · rename_i hf
      split
      · exact ⟨fun h => (by cases h), fun h => absurd h.2 hf⟩
      · exact ⟨fun h => (by cases h), fun h => absurd h.2 hf⟩
  · rename_i hk
    exact ⟨fun h => (by cases h), fun h => absurd h.1 hk⟩

/-- The sweep: every queued order is disposed of, and those the sweep finds are counted. -/
theorem AtCross.swept (h : AtCross V b locIds mocIds b₁) (hq : b.QueueSound)
    (hb' : b' = ((b₁.cancelMocUnfilled V mocIds).cancelLocUnfilled V locIds).processOcoPending V) :
    (∀ k ∈ b.closingIds, Book.Disposed V b b' k (AtCross.fate locIds mocIds b b₁ b' k)) ∧
      b'.closing = b.closing.settled (AtCross.fate locIds mocIds b b₁ b') := by
  have hapart : ∀ k ∈ locIds, k ∉ mocIds := fun k hl hm => hq.apart (h.subMoc.subset hm) (h.subLoc.subset hl)
  obtain ⟨hmoc, hmpass, hmfind, hmover⟩ := cancelAll_found mocIds 0 (hq.moc_nodup.sublist h.subMoc)
    (fun k hk => h.entered k (.inr hk)) h.wf
  rw [← cancelInjected_eq] at hmoc hmpass hmfind hmover
  have hw2 : Wf V (b₁.cancelMocUnfilled V mocIds) := (cancelMocUnfilled_does mocIds h.wf).wf h.wf
  have hm2 : ∀ k, Passes V k b₁ (b₁.cancelMocUnfilled V mocIds) := fun k => (hmpass k).trans (closing_aside rfl rfl)
  obtain ⟨hloc, hlpass, -, hlover⟩ := cancelAll_found locIds 0
    (hq.loc_nodup.sublist h.subLoc) (fun k hk => (h.entered k (.inl hk)).pass (hm2 k)) hw2
  rw [← cancelInjected_eq] at hloc hlpass hlover
  have hlast : ∀ k, Passes V k (b₁.cancelMocUnfilled V mocIds) b' := by
    intro k
    rw [hb']
    exact Passes.trans ((hlpass k).trans (closing_aside rfl rfl)) (.oco _)
  have hlocfind : ∀ k ∈ locIds, (b₁.cancelMocUnfilled V mocIds).core.find k = b₁.core.find k := fun k hk => hmfind k (hapart k hk)
  refine ⟨fun k hk => ?_, ?_⟩
  · unfold AtCross.fate
    split
    · rename_i hin
      split
      · rename_i hf
        rcases hin with hl | hm
        · have hover := hlover k hl (by rw [hlocfind k hl]; exact hf)
          refine Over.unfilled (hover.pass ?_)
          rw [hb']
          exact Passes.trans (closing_aside rfl rfl) (.oco _)
        · have hover := hmover k hm hf
          exact Over.unfilled ((hover.pass (closing_aside rfl rfl)).pass (hlast k))
      · rename_i hf
        have hover := (h.entered k hin).over (Option.not_isSome_iff_eq_none.mp hf)
        exact ((hover.pass (hm2 k)).pass (hlast k)).executed_or
    · rename_i hout
      rw [not_or] at hout
      exact (((h.refused k hk hout.1 hout.2).pass (hm2 k)).pass (hlast k)).disposed
  · have hcountMoc : b.closing.mocQueue.countP (fun m => AtCross.fate locIds mocIds b b₁ b' m.id = .unfilled) =
        mocIds.countP fun k => (b₁.core.find k).isSome := by
      rw [← countP_of_sublist h.subMoc hq.moc_nodup, countP_map]
      refine countP_congr fun m hm => ?_
      have hno : m.id ∉ locIds := fun hl => hq.apart (mem_map_of_mem hm) (h.subLoc.subset hl)
      simp [AtCross.fate_unfilled, hno]
    have hcountLoc : b.closing.locQueue.countP (fun l => AtCross.fate locIds mocIds b b₁ b' l.id = .unfilled) =
        locIds.countP fun k => (b₁.core.find k).isSome := by
      rw [← countP_of_sublist h.subLoc hq.loc_nodup, countP_map]
      refine countP_congr fun l hl => ?_
      have hno : l.id ∉ mocIds := fun hm => hq.apart (h.subMoc.subset hm) (mem_map_of_mem hl)
      simp [AtCross.fate_unfilled, hno]
    have hlocs : locIds.countP (fun k => ((b₁.cancelMocUnfilled V mocIds).core.find k).isSome) =
        locIds.countP fun k => (b₁.core.find k).isSome := by
      refine countP_congr fun k hk => ?_
      rw [hlocfind k hk]
    unfold Closing.settled
    rw [hcountMoc, hcountLoc, hb', ((Adds.walk V).processOcoPending _).closing, cancelLocUnfilled_closing, cancelMocUnfilled_closing, hloc, hmoc,
      hlocs, h.closing]
    simp

end

end HftLab.OrderBook
