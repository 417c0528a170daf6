/-
  HftLab.OrderBook.PriceTime — `submit` has price-time priority.

  `Follows V b x`: the book `b` and the reference book `x` have the same orders in the same order, the same
  trades and the same fates. `submit` keeps it so (`submit_agrees`), as long as the preview of a FOK order
  does not leave 32 bits. HftLab.OrderBook.Priority does the other calls and the runs.
-/

import HftLab.OrderBook.FillEvents
import HftLab.OrderBook.IdIndex
import HftLab.OrderBook.Previews

namespace HftLab.OrderBook

open Lib Function List

/-- LIMIT, IOC, FOK and POST_ONLY orders for the day. -/
def plainKind (k : OrderType × TimeInForce) : Prop :=
  (k.1 = .limit ∨ k.1 = .ioc ∨ k.1 = .fok ∨ k.1 = .postOnly) ∧ k.2 = .day

instance (k : OrderType × TimeInForce) : Decidable (plainKind k) := inferInstanceAs (Decidable (_ ∧ _))

/-- The orders the reference book takes: the plain ones, and an IOC order that says so twice. -/
def takenKind (k : OrderType × TimeInForce) : Prop := plainKind k ∨ k = (.ioc, .ioc)

/-- The same orders, each side best first, the same next id, the same executions and fates. -/
structure Agrees (V : Env) (b : Book) (x : RefBook) : Prop where
  orders : ∀ s, b.ranked V s = x.orders s
  nextId : b.core.nextOrderId = x.nextId
  trades : b.log.reverse.filterMap Report.print = x.trades
  fates : b.log.reverse.flatMap Report.fates = x.fates

/-- Ids are handed out once, and no FOK order rests. -/
def RefBook.Tidy (x : RefBook) : Prop := ∀ s, ∀ m ∈ x.orders s, m.id < x.nextId ∧ m.type ≠ .fok

/-- The log of a run without self-trade prevention. -/
def Book.Quiet (V : Env) (b : Book) : Prop := ∀ e ∈ b.log, e.isAbort = false ∧ e.strands V = false

/-- The book `b` and the reference book `x` go together. -/
structure Follows (V : Env) (b : Book) (x : RefBook) : Prop where
  orderly : Orderly V b
  uncrossed : b.core.Uncrossed V
  stp : b.gates.stpPolicy = .none
  typed : b.Typed V plainKind
  quiet : b.Quiet V
  agrees : Agrees V b x

/-- They do, and ids are in order, so that the two find the same order by its id. -/
structure Sim (V : Env) (b : Book) (x : RefBook) : Prop extends Follows V b x where
  settling : Settling V b
  tidy : x.Tidy

section

variable {V : Env} {b b' : Book} {x : RefBook} {p q : Int} {t ts i n : Nat} {s : Side} {r : Request}
    {k : OrderType × TimeInForce} {l : List Ticket} {fs : List (Ticket × Int)} {id : Nat} {ok : Ticket → Bool} {m : Ticket}

theorem plainKind.not_iceberg (h : plainKind k) : k.1 ≠ .iceberg := by
  rcases h.1 with h | h | h | h <;> rw [h] <;> decide

theorem plainKind.not_hidden (h : plainKind k) : k.1 ≠ .hidden := by
  rcases h.1 with h | h | h | h <;> rw [h] <;> decide

theorem plainKind.not_market (h : plainKind k) : k.1 ≠ .market := by
  rcases h.1 with h | h | h | h <;> rw [h] <;> decide

theorem takenKind.not_hidden (h : takenKind k) : k.1 ≠ .hidden := by
  rcases h with h | rfl
  · exact h.not_hidden
  · exact OrderType.noConfusion

theorem takenKind.not_market (h : takenKind k) : k.1 ≠ .market := by
  rcases h with h | rfl
  · exact h.not_market
  · exact OrderType.noConfusion

/-- The time in force adds nothing to what the type says. -/
theorem takenKind.tif (h : takenKind k) : k.2 ≠ .fok ∧ (k.2 = .ioc → k.1 = .ioc) := by
  rcases h with h | rfl
  · rw [h.2]
    exact ⟨TimeInForce.noConfusion, TimeInForce.noConfusion⟩
  · exact ⟨TimeInForce.noConfusion, fun _ => rfl⟩

theorem Book.Typed.noIceberg (h : b.Typed V plainKind) : b.NoIceberg V := fun p i hi => (h.queued p i hi).not_iceberg

/-! ## The checks -/

/-- The bounds of `fok_fillable` and of the calls it is made in. -/
def Book.fokFits (V : Env) (b : Book) (r : Request) : Bool :=
  r.type ≠ .fok || b.core.fokFits (Core.scanStep r.side) r.qty (b.core.scanLength V r.side r.priceTicks)
    (b.core.scanStart r.side) 0

theorem screen_eq (h : Follows V b x) (hk : takenKind r.kind) (hf : b.SumsFit V) (hfok : b.fokFits V r)
    (hid : r.orderId ≠ 0 → b.core.find r.orderId = none) : b.screen V r = x.refuses V r := by
  obtain ⟨s, hs⟩ : ∃ s : Side, r.side = s.other := ⟨r.side.other, (Side.other_other _).symm⟩
  have hn := h.typed.noIceberg
  have hdup : ¬ (r.orderId ≠ 0 ∧ (b.core.find r.orderId).isSome) := by
    rintro ⟨h0, h1⟩
    rw [hid h0] at h1
    cases h1
  have hother : r.side.other = s := by rw [hs, Side.other_other]
  have hmakers : x.orders r.side.other = b.ranked V s := by rw [hother, h.agrees.orders]
  have htif : ¬ r.tif = .fok := hk.tif.1
  have hty : r.type ≠ .hidden := hk.not_hidden
  have hmarket : r.type ≠ .market := hk.not_market
  have hauction := h.orderly.cont.gates.auction
  unfold Book.screen RefBook.refuses
  rw [hmakers]
  by_cases hq : r.qty ≤ 0
  · rw [if_pos hq, if_pos hq]
  · rw [if_neg hq, if_neg hq]
    by_cases hr : inRange V r.priceTicks
    · rw [if_neg (fun hc => hc.1 hr), if_neg (not_not.mpr hr), if_neg hdup]
      unfold Book.previewReject
      rw [hs, wouldCross_eq h.orderly.wf (h.orderly.best s), walkTheBook_eq h.orderly hn hf h.uncrossed (by omega), hauction]
      by_cases hp : r.type = .postOnly ∧ (b.ranked V s).any (Ticket.within s.other r.priceTicks)
      · rw [if_pos hp, if_pos hp]
      · rw [if_neg hp, if_neg hp]
        have hfokiff : ((r.type = .fok ∨ r.tif = .fok) ∧ b.core.fokFillable V s.other r.priceTicks r.qty = false) ↔
            (r.type = .fok ∧ reach s.other r.priceTicks (b.ranked V s) < r.qty) := by
          by_cases ht : r.type = .fok
          · have hfit : b.core.fokFits (Core.scanStep s.other) r.qty (b.core.scanLength V s.other r.priceTicks)
                (b.core.best s) 0 = true := by
              unfold Book.fokFits at hfok
              rw [hs, scanStart_best] at hfok
              simpa [ht] using hfok
            rw [fokFillable_eq h.orderly hn hf h.uncrossed hfit, decide_eq_false_iff_not]
            simp [ht]
          · simp [ht, htif]
        rw [if_congr hfokiff rfl rfl]
        refine if_congr Iff.rfl rfl (if_congr ?_ rfl rfl)
        simp [hty]
    · rw [if_pos ⟨hr, hmarket⟩, if_pos hr]

/-! ## Matching -/

/-- The order in slot `i`, accepted in `b₁`, met the other side `s`: `ms` are the makers left, `fs` the
    executions, and `q` is left of it. -/
structure Met (V : Env) (s : Side) (i : Nat) (b₁ b₂ : Book) (ms : List Ticket) (q : Int) (fs : List (Ticket × Int)) : Prop where
  wf : Wf V b₂
  flying : i ∈ b₂.inFlight
  body : b₂.core.body i = (b₁.core.body i).tookBy ((b₁.core.body i).remainingQty - q)
  makers : b₂.ranked V s = ms
  own : b₂.ranked V s.other = b₁.ranked V s.other
  next : b₂.core.nextOrderId = b₁.core.nextOrderId
  stp : b₂.gates.stpPolicy = .none
  log : ∃ l, b₂.log = l ++ b₁.log ∧ Executes (b₁.core.body i).id (b₁.core.body i).side l fs

theorem matchAgainst_met (hw : Wf V b) (hi : i ∈ b.inFlight) (hsw : Sweep V s b) (hp : b.gates.stpPolicy = .none)
    (hn : b.NoIceberg V) (hside : (b.core.body i).side = s.other) (hm : b.matchAgainst V n i = some b') :
    ∃ ms q fs, trade (Ticket.within s.other (b.core.body i).priceTicks) (b.ranked V s) (b.core.body i).remainingQty = (ms, q, fs) ∧
      Met V s i b b' ms q fs := by
  have hw' := hw.clock
  have hsw' : Sweep V s (b.monoNsNow V).2 := ⟨hsw.visible, hsw.summed, hsw.uncrossed, hsw.best, hsw.other, hsw.tells⟩
  have htk : Taking V (b.monoNsNow V).2 i (b.core.body i).remainingQty := ⟨hw', hi, le_rfl⟩
  have h0 : Trading V s i (Ticket.within s.other (b.core.body i).priceTicks) (b.monoNsNow V).2 (b.core.body i).remainingQty
      (b.monoNsNow V).2 := Trading.start htk hp hn
  have hside' : ((b.monoNsNow V).2.core.body i).side = s.other := hside
  obtain ⟨q, htr, -, hend⟩ := priceLoop_trades h0 hsw' hside' hm
  obtain ⟨l, fs, hl, hex, htrade⟩ := htr.traded
  obtain ⟨y, hy⟩ := htr.took
  rw [hend, append_nil] at htrade
  refine ⟨b'.ranked V s, q, fs, htrade, htr.taking.wf, htr.taking.flying, ?_, rfl, htr.other, htr.next, htr.stp, l, hl, hex⟩
  have hq := htr.left
  rw [hy, Order.tookBy_remaining] at hq
  rw [hy]
  have hq : q = (b.core.body i).remainingQty - y := hq
  rw [hq]
  congr 1
  omega

theorem Unmoved.tickets (h : Unmoved V b b') : b'.tickets V = b.tickets V := by
  funext r
  unfold Book.tickets
  rw [h.queue]
  exact map_congr_left fun j hj => by rw [h.body r j hj]

theorem Unmoved.ranked (h : Unmoved V b b') (s : Side) : b'.ranked V s = b.ranked V s := by
  unfold Book.ranked
  rw [h.tickets]

/-- Nothing at rest changes, and `l` is reported. -/
theorem Agrees.unmoved {y : RefBook} {l : List Report} (h : Agrees V b x) (hu : Unmoved V b b') (hl : b'.log = l ++ b.log)
    (hn : b'.core.nextOrderId = y.nextId) (ho : y.orders = x.orders)
    (ht : y.trades = x.trades ++ l.reverse.filterMap Report.print) (hf : y.fates = x.fates ++ l.reverse.flatMap Report.fates) :
    Agrees V b' y := by
  refine ⟨fun s => ?_, hn, ?_, ?_⟩
  · rw [hu.ranked, h.orders, ho]
  · rw [hl, reverse_append, filterMap_append, h.trades, ht]
  · rw [hl, reverse_append, flatMap_append, h.fates, hf]

theorem Agrees.accept (h : Agrees V b x) (hw : Wf V b) (ha : b.accept V r = some (i, b')) :
    Agrees V b' { x with nextId := if r.orderId = 0 then x.nextId + 1 else x.nextId } := by
  refine h.unmoved (accept_unmoved hw ha) (l := [_]) (Book.accept_rest ha).1 ?_ rfl (append_nil _).symm
    (append_nil _).symm
  rw [accept_next ha, h.nextId]

theorem Agrees.meet {ms : List Ticket} (h : Agrees V b x) (hm : Met V r.side.other i b b' ms q fs) (hid : (b.core.body i).id = id)
    (hs : (b.core.body i).side = r.side)
    (ht : trade (Ticket.within r.side r.priceTicks) (x.orders r.side.other) r.qty = (ms, q, fs)) :
    Agrees V b' (x.meet r id).2 ∧ (x.meet r id).1 = q := by
  unfold RefBook.meet
  rw [ht]
  obtain ⟨l, hl, hex⟩ := hm.log
  rw [hid, hs] at hex
  refine ⟨⟨fun s => ?_, hm.next.trans h.nextId, ?_, ?_⟩, rfl⟩
  · show b'.ranked V s = update x.orders r.side.other ms s
    by_cases e : s = r.side.other
    · subst e
      rw [update_self]
      exact hm.makers
    · have e' : s = r.side.other.other := Side.eq_other_of_ne e
      rw [update_of_ne e, ← h.orders s, e']
      exact hm.own
  · rw [hl, reverse_append, filterMap_append, h.trades, hex.prints]
  · rw [hl, reverse_append, flatMap_append, h.fates, hex.fates]

theorem rest_tickets (hw : Wf V b) (hi : i ∈ b.inFlight) (hr : inRange V (b.order i).priceTicks) :
    (b.restOrder i).tickets V = update (b.tickets V) (b.core.body i).ticket.price
      (b.tickets V (b.core.body i).ticket.price ++ [(b.core.body i).ticket]) := by
  have hv := hw.restOrder_view hi hr
  have hP : (b.core.body i).atRest.priceTicks = (b.core.body i).ticket.price := Order.atRest_price _
  have hbody : ∀ r, ∀ j ∈ b.core.queue V r, ((b.restOrder i).core.body j).ticket = (b.core.body j).ticket := by
    intro r j hj
    rw [body_of_view hv]
    show (update b.core.body i _ j).ticket = _
    rw [update_of_ne (hw.flying_ne_queued hj hi)]
  have hself : ((b.restOrder i).core.body i).ticket = (b.core.body i).ticket := by
    rw [body_of_view hv]
    show (update b.core.body i (b.core.body i).atRest i).ticket = _
    rw [update_self]
    unfold Order.atRest
    split <;> rfl
  have hQ : (b.restOrder i).core.queue V = update (b.core.queue V) (b.core.body i).ticket.price
      (b.core.queue V (b.core.body i).ticket.price ++ [i]) := by
    rw [queue_of_view hv, ← hP]
    rfl
  funext r
  by_cases e : r = (b.core.body i).ticket.price
  · subst e
    rw [update_self]
    unfold Book.tickets
    rw [hQ, update_self, map_append, map_singleton, hself]
    exact congrArg (· ++ _) (map_congr_left fun j hj => hbody _ j hj)
  · rw [update_of_ne e]
    unfold Book.tickets
    rw [hQ, update_of_ne e]
    exact map_congr_left fun j hj => hbody _ j hj

theorem rest_nextOrderId : (b.restOrder i).core.nextOrderId = b.core.nextOrderId := by
  obtain ⟨y, z, hc⟩ := Book.restOrder_core
  rw [hc]
  rfl

/-- What is left of an order, `q`, after it met the other side. -/
theorem Agrees.finish (ts : Nat) (h : Agrees V b x) (hw : Wf V b) (hi : i ∈ b.inFlight) (hk : takenKind r.kind)
    (hb : b.core.body i = (r.order id ts).tookBy (r.qty - q)) (hf : b.finish V i = some b') : Agrees V b' (x.settle r id q) := by
  have htot : (b.order i).totalQty = r.qty := congrArg Order.totalQty hb
  have hfil : (b.order i).filledQty = r.qty - q := (congrArg Order.filledQty hb).trans (Int.zero_add _)
  have hid : (b.order i).id = id := congrArg Order.id hb
  have htype : (b.order i).type = r.type := congrArg Order.type hb
  have htif : (b.order i).tif = r.tif := congrArg Order.tif hb
  have hrem : (b.order i).remainingQty = q := by
    unfold Order.remainingQty
    omega
  unfold RefBook.settle
  unfold Book.finish at hf
  dsimp only at hf
  split at hf
  · cases hf
    rw [if_pos (by omega)]
    refine h.unmoved (drop_unmoved hw hi rfl rfl) (l := [.takerFilled (b.order i)]) rfl h.nextId rfl (append_nil _).symm ?_
    rw [← hid]
    rfl
  · rw [if_neg (by omega)]
    split at hf
    · rename_i hioc
      cases hf
      have hty : r.type = .ioc := by
        rcases hioc with hioc | hioc
        · exact htype.symm.trans hioc
        · exact hk.tif.2 (htif.symm.trans hioc)
      rw [if_pos hty]
      refine h.unmoved (drop_unmoved hw hi rfl rfl) (l := [.iocCancel (b.order i)]) rfl h.nextId rfl (append_nil _).symm ?_
      rw [← hid, ← hrem]
      rfl
    · rename_i hioc
      split at hf
      · rename_i hr
        cases hf
        rw [if_neg fun hc => hioc (.inl (htype.trans hc))]
        have hticket : (b.core.body i).ticket = ⟨id, r.side, r.priceTicks, r.qty, r.qty - q, r.type⟩ := by
          rw [hb]
          show (⟨id, r.side, r.priceTicks, r.qty, 0 + (r.qty - q), r.type⟩ : Ticket) = _
          rw [Int.zero_add]
        have hprice : (b.order i).priceTicks = r.priceTicks := congrArg Order.priceTicks hb
        have hrank := ranked_enter hw (by rw [hticket]; exact hprice ▸ hr) (rest_tickets hw hi hr)
        rw [hticket] at hrank
        refine ⟨fun s => ?_, rest_nextOrderId.trans h.nextId, ?_, ?_⟩
        · show _ = update x.orders r.side _ s
          by_cases e : s = r.side
          · subst e
            rw [update_self, ← h.orders]
            exact hrank.1
          · rw [update_of_ne e, ← h.orders, Side.eq_other_of_ne e]
            exact hrank.2
        · rw [Book.restOrder_log, reverse_cons, filterMap_append, h.trades]
          exact append_nil _
        · rw [Book.restOrder_log, reverse_cons, flatMap_append, h.fates]
          have hrest : (Report.rest (b.order i).atRest).fates = [(id, .resting q)] := by
            show [((b.order i).atRest.id, Fate.resting (b.order i).atRest.remainingQty)] = _
            have h1 : (b.order i).atRest.id = id ∧ (b.order i).atRest.remainingQty = q := by
              unfold Order.atRest
              split
              · exact ⟨hid, hrem⟩
              · exact ⟨hid, hrem⟩
            rw [h1.1, h1.2]
          rw [flatMap_singleton, hrest]
      · cases hf

/-! ## Submit -/

theorem trade_kept (h : m ∈ (trade ok l q).1) : ∃ k ∈ l, k.id = m.id ∧ k.type = m.type := by
  induction l generalizing q with
  | nil => cases h
  | cons k l ih =>
    rw [trade] at h
    split at h
    · exact ⟨m, h, rfl, rfl⟩
    · split at h
      · obtain ⟨j, hj, he⟩ := ih h
        exact ⟨j, mem_cons_of_mem _ hj, he⟩
      · rcases mem_cons.mp h with rfl | h
        · exact ⟨k, mem_cons_self, rfl, rfl⟩
        · exact ⟨m, mem_cons_of_mem _ h, rfl, rfl⟩

/-- What a trade leaves of the incoming quantity, if the makers it may meet stand in front. -/
theorem trade_left (hpos : ∀ m ∈ l, 0 < m.left) (hok : l.Pairwise fun m k => ok k = true → ok m) (hq : 0 ≤ q) :
    (trade ok l q).2.1 = max 0 (q - ((l.filter ok).map Ticket.left).sum) := by
  induction l generalizing q with
  | nil =>
    show q = max 0 (q - 0)
    omega
  | cons m l ih =>
    obtain ⟨hm, hok⟩ := pairwise_cons.mp hok
    have hposl : ∀ k ∈ l, 0 < k.left := fun k hk => hpos k (mem_cons_of_mem _ hk)
    have hmpos := hpos m mem_cons_self
    have hsum : 0 ≤ ((l.filter ok).map Ticket.left).sum := by
      refine sum_nonneg fun a ha => ?_
      obtain ⟨k, hk, rfl⟩ := mem_map.mp ha
      exact (hposl k (mem_filter.mp hk).1).le
    rw [trade]
    by_cases hmok : ok m
    · rw [filter_cons_of_pos hmok, map_cons, sum_cons]
      by_cases hq0 : q ≤ 0
      · rw [if_pos (.inl hq0)]
        show q = _
        omega
      · rw [if_neg (by simp [hmok]; omega)]
        by_cases hle : m.left ≤ q
        · rw [if_pos hle]
          rw [ih hposl hok (by omega)]
          omega
        · rw [if_neg hle]
          show 0 = _
          omega
    · have hnone : l.filter ok = [] := filter_eq_nil_iff.mpr fun k hk hc => hmok (hm k hk hc)
      rw [if_pos (.inr (by simpa using hmok)), filter_cons_of_neg hmok, hnone]
      show q = max 0 (q - 0)
      omega

theorem mem_enter {k : Ticket} (h : m ∈ enter k l) : m = k ∨ m ∈ l := by
  rcases mem_append.mp h with h | h
  · exact .inr ((takeWhile_sublist _).subset h)
  · rcases mem_cons.mp h with h | h
    · exact .inl h
    · exact .inr ((dropWhile_sublist _).subset h)

theorem RefBook.Tidy.settle (h : x.Tidy) (hid : id < x.nextId) (hq : 0 < q → r.type ≠ .fok) : (x.settle r id q).Tidy := by
  unfold RefBook.settle
  split
  · exact h
  · rename_i hpos
    split
    · exact h
    · intro s m hm
      have hm : m ∈ update x.orders r.side _ s := hm
      by_cases e : s = r.side
      · subst e
        rw [update_self] at hm
        rcases mem_enter hm with rfl | hm
        · exact ⟨hid, hq (by omega)⟩
        · exact h _ m hm
      · rw [update_of_ne e] at hm
        exact h s m hm

theorem RefBook.Tidy.meet (h : x.Tidy) (id : Nat) : (x.meet r id).2.Tidy := by
  intro s m hm
  have hm : m ∈ update x.orders r.side.other
    (trade (Ticket.within r.side r.priceTicks) (x.orders r.side.other) r.qty).1 s := hm
  by_cases e : s = r.side.other
  · subst e
    rw [update_self] at hm
    obtain ⟨k, hk, hid, hty⟩ := trade_kept hm
    rw [← hid, ← hty]
    exact h _ k hk
  · rw [update_of_ne e] at hm
    exact h s m hm

/-- Best price first, and no order without a rest. -/
structure Ranks (s : Side) (l : List Ticket) : Prop where
  sorted : l.Pairwise fun m k => s.rank m.price ≤ s.rank k.price
  pos : ∀ m ∈ l, 0 < m.left

theorem Ranks.trade_left (h : Ranks s.other l) (hq : 0 ≤ q) : (trade (Ticket.within s p) l q).2.1 = max 0 (q - reach s p l) := by
  refine OrderBook.trade_left h.pos (h.sorted.imp fun hmk hk => ?_) hq
  unfold Ticket.within at hk ⊢
  rw [decide_eq_true_eq] at hk ⊢
  omega

/-- A FOK order that is not refused is filled, so it never rests. -/
theorem RefBook.Tidy.submit (h : x.Tidy) (hid : r.orderId ≠ 0 → r.orderId < x.nextId)
    (hr : Ranks r.side.other (x.orders r.side.other)) : (x.submit V r).2.Tidy := by
  unfold RefBook.submit
  cases href : x.refuses V r with
  | some reason => exact h
  | none =>
    have h1 : RefBook.Tidy { x with nextId := if r.orderId = 0 then x.nextId + 1 else x.nextId } := by
      intro s m hm
      obtain ⟨hlt, hty⟩ := h s m hm
      refine ⟨?_, hty⟩
      show m.id < if r.orderId = 0 then x.nextId + 1 else x.nextId
      by_cases h0 : r.orderId = 0
      · rw [if_pos h0]
        omega
      · rw [if_neg h0]
        exact hlt
    have h2 : (if r.orderId = 0 then x.nextId else r.orderId) < if r.orderId = 0 then x.nextId + 1 else x.nextId := by
      split
      · omega
      · rename_i h0
        exact hid h0
    dsimp only
    by_cases hpo : r.type = .postOnly
    · rw [if_pos hpo]
      exact h1.settle h2 fun _ => by rw [hpo]; decide
    · rw [if_neg hpo]
      refine (h1.meet _).settle h2 fun hleft hfok => ?_
      have hpass : 0 < r.qty ∧ r.qty ≤ reach r.side r.priceTicks (x.orders r.side.other) := by
        unfold RefBook.refuses at href
        dsimp only at href
        split at href
        · cases href
        · rename_i hq
          split at href
          · cases href
          · split at href
            · cases href
            · split at href
              · cases href
              · rename_i hf
                simp only [hfok, true_and] at hf
                omega
      have hleft : 0 < (trade (Ticket.within r.side r.priceTicks) (x.orders r.side.other) r.qty).2.1 := hleft
      rw [hr.trade_left hpass.1.le] at hleft
      omega

theorem Book.Quiet.more {l : List Report} (h : b.Quiet V) (hl : b'.log = l ++ b.log)
    (hq : ∀ e ∈ l, e.isAbort = false ∧ e.strands V = false) : b'.Quiet V := by
  intro e he
  rw [hl] at he
  rcases mem_append.mp he with he | he
  · exact hq e he
  · exact h e he

theorem Executes.quiet {u : Side} {l : List Report} (h : Executes id u l fs) :
    ∀ e ∈ l, e.isAbort = false ∧ e.strands V = false := by
  intro e he
  obtain ⟨m, t, q, rfl⟩ := h.fills e he
  exact ⟨rfl, rfl⟩

theorem finish_quiet (h : b.Quiet V) (hf : b.finish V i = some b') : b'.Quiet V ∧ b'.gates = b.gates := by
  have one : ∀ {e : Report}, e.isAbort = false ∧ e.strands V = false → ∀ x ∈ [e], x.isAbort = false ∧ x.strands V = false := by
    intro e he x hx
    rw [mem_singleton.mp hx]
    exact he
  unfold Book.finish at hf
  dsimp only at hf
  split at hf
  · cases hf
    exact ⟨h.more rfl (one ⟨rfl, rfl⟩), rfl⟩
  · split at hf
    · cases hf
      exact ⟨h.more rfl (one ⟨rfl, rfl⟩), rfl⟩
    · split at hf
      · cases hf
        refine ⟨h.more Book.restOrder_log (one ⟨rfl, rfl⟩), ?_⟩
        unfold Book.restOrder
        dsimp only
        split <;> rfl
      · cases hf

/-- `submit` does what the reference book does. -/
theorem submit_agrees {y : Nat × RejectReason} (h : Follows V b x) (hk : takenKind r.kind) (hf : b.SumsFit V)
    (hfok : b.fokFits V r) (hid : r.orderId ≠ 0 → b.core.find r.orderId = none) (hfree : b.core.freeHead ≠ none)
    (hs : Book.submit V n r b = some (y, b')) :
    y = (x.submit V r).1 ∧ Agrees V b' (x.submit V r).2 ∧ b'.Quiet V ∧ b'.gates.stpPolicy = .none := by
  have hw := h.orderly.wf
  have hsc := screen_eq h hk hf hfok hid
  unfold RefBook.submit
  rw [← hsc]
  rcases submit_entered h.orderly.cont hs with ⟨reason, rfl, rfl, hscreen | ⟨-, ha⟩⟩ | ⟨m, i, b1, b2, rfl, hen⟩
  · rw [hscreen]
    exact ⟨rfl, ⟨h.agrees.orders, h.agrees.nextId, h.agrees.trades, h.agrees.fates⟩, h.quiet, h.stp⟩
  · exact absurd (accept_full ha) hfree
  · rw [hen.passed]
    dsimp only
    have ha := hen.accepted
    have hm := hen.matched
    have hfin := hen.finished
    have hact := hen.act
    have hw1 := hact.wf hw
    have hi := hen.flying
    have hbody := accept_body hw ha
    have hun := accept_unmoved hw ha
    have hagree := h.agrees.accept hw ha
    obtain ⟨hlog, -, -, hgates, -⟩ := Book.accept_rest ha
    have hstp : b1.gates.stpPolicy = .none := by rw [hgates]; exact h.stp
    have hquiet : b1.Quiet V := by
      refine Book.Quiet.more (l := [_]) h.quiet hlog fun e he => ?_
      rw [mem_singleton.mp he]
      exact ⟨rfl, rfl⟩
    have hnew : b.core.newId r.orderId = if r.orderId = 0 then x.nextId else r.orderId := by
      unfold Core.newId
      rw [h.agrees.nextId]
    have hid1 : (b1.core.body i).id = if r.orderId = 0 then x.nextId else r.orderId := by
      rw [hbody, ← hnew]
      rfl
    refine ⟨Prod.ext hid1 rfl, ?_⟩
    unfold Book.matchEntry at hm
    by_cases hpo : r.type = .postOnly
    · rw [if_neg fun hc => hc.1 hpo] at hm
      cases hm
      rw [if_pos hpo]
      obtain ⟨h1, h2⟩ := finish_quiet hquiet hfin
      refine ⟨hagree.finish (V.clock b.asked) hw1 hi hk ?_ hfin, h1, by rw [h2]; exact hstp⟩
      rw [hbody, hnew, Int.sub_self]
      unfold Order.tookBy
      rw [Int.add_zero]
    · rw [if_pos ⟨hpo, hk.not_hidden⟩] at hm
      rw [if_neg hpo]
      have hsw : Sweep V r.side.other b1 :=
        hun.sweep (h.orderly.sweep hf h.uncrossed r.side.other) (hact.summed trivial hw h.orderly.summed)
      have hn1 : b1.NoIceberg V := by
        intro p j hj
        rw [hun.queue] at hj
        rw [hun.body p j hj]
        exact h.typed.noIceberg p j hj
      have hside : (b1.core.body i).side = r.side.other.other := by
        rw [hbody, Side.other_other]
        rfl
      have hrem : (b1.core.body i).remainingQty = r.qty := by
        rw [hbody]
        show r.qty - 0 = r.qty
        omega
      have hprice : (b1.core.body i).priceTicks = r.priceTicks := by rw [hbody]; rfl
      obtain ⟨ms, q, fs, htrade, hmet⟩ := matchAgainst_met hw1 hi hsw hstp hn1 hside hm
      rw [hprice, hrem, Side.other_other, hun.ranked, h.agrees.orders] at htrade
      obtain ⟨hag, hqq⟩ := hagree.meet hmet hid1 (by rw [hside, Side.other_other]) htrade
      obtain ⟨l, hl, hex⟩ := hmet.log
      obtain ⟨h1, h2⟩ := finish_quiet (hquiet.more hl hex.quiet) hfin
      refine ⟨?_, h1, by rw [h2]; exact hmet.stp⟩
      rw [hqq]
      refine hag.finish (V.clock b.asked) hmet.wf hmet.flying hk ?_ hfin
      rw [hmet.body, hrem, hbody, hnew]

end

end HftLab.OrderBook
