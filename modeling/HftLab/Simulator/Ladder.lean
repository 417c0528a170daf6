/-
  HftLab.Simulator.Ladder — the ladder match is exact, whatever was matched before.

  The book between two calls is empty, so a call starts from the reference book without orders. `Laddered`: so many steps
  of the ladder stand, each a level with one order, the other side empty. The taker trades with them as `allot` hands a
  quantity out, and the fill events it causes are those trades. The cancels then take whatever is left.
-/

import HftLab.Lib.Allotment
import HftLab.OrderBook.KillSwitch
import HftLab.OrderBook.Tickets
import HftLab.Simulator.MatchEngine

namespace HftLab.Simulator

open Function List

open HftLab.Lib HftLab.OrderBook

variable {k liq : Int} {V : Env} {e : BookMatchEngine}

/-! ## Trades that nothing stops -/

section

variable {ok : Ticket → Bool} {l l' : List Ticket} {q liq p qty : Int} {side : Side} {start k n : Nat} {m : Ticket} {V : Env}
    {b b' : Book} {x x' : RefBook} {y : Nat × RejectReason} {c : Capture}

/-- A taker that may trade with every maker takes from them in turn. -/
theorem trade_allot (hok : ∀ m ∈ l, ok m) (q : Int) : (trade ok l q).2.2 = allot Ticket.left q l := by
  induction l generalizing q with
  | nil => rfl
  | cons m l ih =>
    have hm := hok m mem_cons_self
    have hl := fun q => ih (fun k hk => hok k (mem_cons_of_mem m hk)) q
    unfold trade
    rw [hm]
    by_cases hq : q ≤ 0
    · rw [if_pos (.inl hq), allot_nonpos hq]
    · rw [if_neg (by simpa using hq), allot_cons (by omega)]
      by_cases hle : m.left ≤ q
      · rw [if_pos hle, min_eq_left hle, ← hl]
      · rw [if_neg hle, min_eq_right (by omega), Int.sub_self, allot_nonpos le_rfl]

/-- A trade adds nothing to what a price offers. -/
theorem qtyAt_trade_le (hpos : ∀ m ∈ l, 0 < m.left) (p q : Int) : qtyAt p (trade ok l q).1 ≤ qtyAt p l := by
  induction l generalizing q with
  | nil => exact le_rfl
  | cons m l ih =>
    have hm := hpos m mem_cons_self
    have hl := fun q => ih (fun k hk => hpos k (mem_cons_of_mem m hk)) q
    unfold trade
    split
    · exact le_rfl
    · rename_i hq
      rw [not_or] at hq
      split
      · have := hl (q - m.left)
        rw [qtyAt_cons]
        dsimp only
        split <;> omega
      · rw [qtyAt_cons, qtyAt_cons]
        have hleft : ({ m with filled := m.filled + q } : Ticket).left = m.left - q := by
          show m.qty - (m.filled + q) = m.qty - m.filled - q
          omega
        rw [hleft]
        split <;> omega

/-! ## The ladder -/

theorem contra_eq (s : Side) : contra s = s.other := by cases s <;> rfl

theorem rung_rank (side : Side) (k : Int) : side.other.rank (rung side k) = side.other.rank MID_TICK + k := by
  cases side with
  | buy => rfl
  | sell =>
    show -(MID_TICK - k) = -MID_TICK + k
    omega

theorem rung_inj {j : Int} (h : rung side j = rung side k) : j = k := by
  cases side <;> simp only [rung] at h <;> omega

theorem rung_inRange (hV : DefaultBook V) (side : Side) (h0 : 0 ≤ k) (hk : k ≤ MAX_LADDER) : inRange V (rung side k) := by
  unfold inRange
  rw [hV.levels]
  unfold MAX_LADDER at hk
  cases side <;> simp only [rung, MID_TICK] <;> omega

/-- The order of the `k`-th step. -/
def rungTicket (side : Side) (liq : Int) (start k : Nat) : Ticket := ⟨start + k, contra side, rung side k, liq, 0, .limit⟩

def rungs (side : Side) (liq : Int) (start k : Nat) : List Ticket := (List.range k).map (rungTicket side liq start)

theorem rungs_succ : rungs side liq start (k + 1) = rungs side liq start k ++ [rungTicket side liq start k] := by
  unfold rungs
  rw [range_succ, map_append]
  rfl

theorem mem_rungs (h : m ∈ rungs side liq start k) : ∃ j < k, m = rungTicket side liq start j := by
  obtain ⟨j, hj, rfl⟩ := mem_map.mp h
  exact ⟨j, mem_range.mp hj, rfl⟩

theorem rungTicket_left (j : Nat) : (rungTicket side liq start j).left = liq := Int.sub_zero _

/-- Each step is a price of its own. -/
theorem qtyAt_rungs (hl : 0 < liq) (p : Int) : qtyAt p (rungs side liq start k) ≤ liq := by
  induction k with
  | zero => exact le_of_lt hl
  | succ k ih =>
    have happ : qtyAt p (rungs side liq start (k + 1)) =
        qtyAt p (rungs side liq start k) + qtyAt p [rungTicket side liq start k] := by
      rw [rungs_succ]
      unfold qtyAt
      rw [filter_append, map_append, sum_append]
    rw [happ, qtyAt_cons, rungTicket_left, show (rungTicket side liq start k).price = rung side k from rfl]
    by_cases hp : rung side k = p
    · have hnone : qtyAt p (rungs side liq start k) = 0 := by
        refine qtyAt_none fun m hm hmp => ?_
        obtain ⟨j, hj, rfl⟩ := mem_rungs hm
        have := rung_inj (hmp.trans hp.symm)
        omega
      rw [hnone, if_pos hp]
      exact le_of_eq (by simp [qtyAt])
    · rw [if_neg hp]
      simpa [qtyAt] using ih

/-- The next step is behind those that stand. -/
theorem enter_rungs : enter (rungTicket side liq start k) (rungs side liq start k) = rungs side liq start (k + 1) := by
  have hall : ∀ m ∈ rungs side liq start k, decide ((rungTicket side liq start k).side.rank m.price ≤
      (rungTicket side liq start k).side.rank (rungTicket side liq start k).price) = true := by
    intro m hm
    obtain ⟨j, hj, rfl⟩ := mem_rungs hm
    show decide ((contra side).rank (rung side j) ≤ (contra side).rank (rung side k)) = true
    rw [contra_eq, rung_rank, rung_rank, decide_eq_true_eq]
    omega
  unfold enter
  rw [takeWhile_eq_self_iff.mpr hall, dropWhile_eq_nil_iff.mpr hall, rungs_succ]

/-- What a taker of `q` executes on the ladder, price by price. -/
theorem allot_rungs (q : Int) : (allot Ticket.left q (rungs side liq start k)).map (fun x => (x.1.price, x.2)) =
    allot (fun _ => liq) q ((List.range k).map fun (j : Nat) => rung side j) := by
  unfold rungs
  generalize List.range k = l
  induction l generalizing q with
  | nil => rfl
  | cons j l ih =>
    rw [map_cons, map_cons]
    by_cases hq : 0 < q
    · rw [allot_cons hq, allot_cons hq, map_cons, rungTicket_left, ih]
      rfl
    · rw [allot_nonpos (by omega), allot_nonpos (by omega)]
      rfl

/-! ## The book that holds the ladder -/

/-- The orders of the book are `l`, all on the side opposite to `side`, and a level can carry what they show. -/
structure Stands (V : Env) (side : Side) (l : List Ticket) (b : Book) (x : RefBook) : Prop where
  tied : Tied V b x
  own : x.orders side = []
  ladder : x.orders side.other = l
  fits : ∀ p, qtyAt p l ≤ int32Max

theorem Stands.orders (h : Stands V side l b x) {s : Side} {m : Ticket} (hm : m ∈ x.orders s) : m ∈ l := by
  by_cases hs : s = side
  · rw [hs, h.own] at hm
    cases hm
  · rwa [Side.eq_other_of_ne hs, h.ladder] at hm

/-- An empty book stands on either side. -/
theorem Stands.turn {s : Side} (h : Stands V side [] b x) : Stands V s [] b x where
  tied := h.tied
  own := eq_nil_iff_forall_not_mem.mpr fun _ hm => not_mem_nil (h.orders hm)
  ladder := eq_nil_iff_forall_not_mem.mpr fun _ hm => not_mem_nil (h.orders hm)
  fits := h.fits

theorem Stands.sumsFit (h : Stands V side l b x) : b.SumsFit V := by
  intro p _
  rw [h.tied.shownSum]
  have hown : qtyAt p (x.orders side) = 0 := by
    rw [h.own]
    rfl
  have hother := h.ladder ▸ h.fits p
  cases side with
  | buy =>
    rw [hown, Int.zero_add]
    exact hother
  | sell =>
    rw [hown, Int.add_zero]
    exact hother

/-- An id that no order has is in no index. -/
theorem Stands.find (h : Stands V side l b x) (hk : ∀ m ∈ l, m.id ≠ k) : b.core.find k = none := by
  have hfind : x.find k = none := by
    refine List.find?_eq_none.mpr fun m hm => ?_
    have hml : m ∈ l := (mem_append.mp hm).elim h.orders h.orders
    simpa using hk m hml
  rw [h.tied.find, Option.map_eq_none_iff] at hfind
  exact hfind

/-- The pool has a slot as long as there are fewer orders than slots. -/
theorem Stands.room (h : Stands V side l b x) (hl : l.length < V.MAX_ORDERS) : b.core.freeHead ≠ none := by
  have hw := h.tied.orderly.wf
  intro hfree
  have hnil : b.core.freeList V = [] := List.head?_eq_none_iff.mp (hw.links.free.head.symm.trans hfree)
  have hlen := hw.partition.length_eq
  rw [hnil, h.tied.orderly.cont.stops, h.tied.orderly.idle, nil_append, append_nil, append_nil,
    length_range] at hlen
  have hnodup : ((b.core.restingSlots V).map fun i => (b.core.body i).ticket).Nodup := by
    refine hw.restingSlots_nodup.map_on fun i hi j hj hij => ?_
    obtain ⟨p, hp⟩ := hw.mem_restingSlots.mp hi
    exact ((h.tied.ticket_iff hp (hw.mem_restingSlots.mp hj)).mp (congrArg Ticket.id hij.symm)).symm
  have hsub : ((b.core.restingSlots V).map fun i => (b.core.body i).ticket) ⊆ l := by
    intro m hm
    obtain ⟨i, hi, rfl⟩ := mem_map.mp hm
    obtain ⟨p, hp⟩ := hw.mem_restingSlots.mp hi
    refine h.orders (s := (b.core.body i).side) ?_
    rw [← h.tied.agrees.orders]
    exact mem_ranked_of hw hp rfl
  have hle := (subperm_of_subset hnodup hsub).length_le
  rw [length_map] at hle
  omega

theorem qtyAt_filter_le (h : ∀ m ∈ l, 0 < m.left) (f : Ticket → Bool) (p : Int) : qtyAt p (l.filter f) ≤ qtyAt p l := by
  induction l with
  | nil => exact le_rfl
  | cons m l ih =>
    have hm := h m mem_cons_self
    have ih := ih fun k hk => h k (mem_cons_of_mem m hk)
    rw [filter_cons]
    split
    · rw [qtyAt_cons, qtyAt_cons]
      omega
    · rw [qtyAt_cons]
      split
      · omega
      · omega

/-- `cancel` takes the order out, if it is there. -/
theorem Stands.cancel (h : Stands V side l b x) (k : Nat) :
    Stands V side (l.filter (·.id ≠ k)) (b.cancel V k).2 (x.cancel k).2 := by
  have hpos : ∀ m ∈ l, 0 < m.left := h.ladder ▸ (h.tied.ranks side.other).pos
  have horders : ∀ s, (x.cancel k).2.orders s = (x.orders s).filter (·.id ≠ k) := by
    intro s
    unfold RefBook.cancel
    cases hf : x.find k with
    | some t => rfl
    | none =>
      refine (filter_eq_self.mpr fun m hm => ?_).symm
      have hmem : m ∈ x.orders .buy ++ x.orders .sell := by
        cases s with
        | buy => exact mem_append_left _ hm
        | sell => exact mem_append_right _ hm
      simpa using List.find?_eq_none.mp hf m hmem
  refine ⟨(cancel_tied h.tied h.sumsFit k).2, ?_, ?_, fun p => (qtyAt_filter_le hpos _ p).trans (h.fits p)⟩
  · rw [horders, h.own]
    rfl
  · rw [horders, h.ladder]

/-- The request of the `k`-th step. -/
def rungRequest (side : Side) (liq : Int) (start k : Nat) : Request :=
  { side := side.other, priceTicks := rung side k, qty := liq, orderId := start + k }

/-- The next step of the ladder rests behind the others. -/
theorem Stands.place (hV : DefaultBook V) (hl : 0 < liq) (hl' : liq ≤ int32Max) (hstart : 0 < start) (hk : (k : Int) < MAX_LADDER)
    (h : Stands V side (rungs side liq start k) b x) (hs : Book.submit V n (rungRequest side liq start k) b = some (y, b')) :
    ∃ x', Stands V side (rungs side liq start (k + 1)) b' x' := by
  have hplain : plainKind (rungRequest side liq start k).kind := ⟨.inl rfl, rfl⟩
  have hid : (rungRequest side liq start k).orderId ≠ 0 := by
    show start + k ≠ 0
    omega
  have hin : inRange V (rungRequest side liq start k).priceTicks := rung_inRange hV side (by omega) (by omega)
  have hfree : b.core.find (start + k) = none := by
    refine h.find fun m hm => ?_
    obtain ⟨j, hj, rfl⟩ := mem_rungs hm
    show start + j ≠ start + k
    omega
  have hroom : b.core.freeHead ≠ none := by
    refine h.room ?_
    unfold rungs
    rw [length_map, length_range, hV.orders]
    unfold MAX_LADDER at hk
    omega
  have hfollows := submit_follows h.tied.toFollows hplain h.sumsFit rfl (fun _ => hfree) hroom hs
  have hsettling := h.tied.settling.submit (fun e => absurd e hid) hs
  obtain ⟨hother, hown⟩ := RefBook.submit_lists (x := x) rfl rfl hl hin hid
  have hnone : trade (Ticket.within side.other (rung side k)) (x.orders side.other.other) liq = ([], liq, []) := by
    rw [Side.other_other, h.own]
    rfl
  refine ⟨_, ⟨hfollows.2, hsettling⟩, ?_, ?_, fun p => (qtyAt_rungs hl p).trans hl'⟩
  · refine (congrArg _ (Side.other_other side).symm).trans (hother.trans ?_)
    show (trade (Ticket.within side.other (rung side k)) (x.orders side.other.other) liq).1 = []
    rw [hnone]
  · refine hown.trans ?_
    show (if (trade (Ticket.within side.other (rung side k)) (x.orders side.other.other) liq).2.1 ≤ 0 then _ else
      enter ⟨start + k, side.other, rung side k, liq,
        liq - (trade (Ticket.within side.other (rung side k)) (x.orders side.other.other) liq).2.1, .limit⟩
        (x.orders side.other)) = _
    rw [hnone, if_neg (not_le.mpr hl), Int.sub_self, h.ladder, ← contra_eq]
    exact enter_rungs

/-- The taker: an IOC order that reaches past the ladder. -/
def sweepRequest (side : Side) (start k : Nat) (qty : Int) : Request :=
  { side, priceTicks := rung side k, qty, type := .ioc, tif := .ioc, orderId := start + k }

/-- The taker trades with the ladder from the touch, and nothing of it rests. -/
theorem RefBook.submit_sweep (hp : inRange V (rung side k)) (hq : 0 < qty) (hid : start + k ≠ 0)
    (hladder : x.orders side.other = rungs side liq start k) :
    (x.submit V (sweepRequest side start k qty)).2.orders = update x.orders side.other
        (trade (Ticket.within side (rung side k)) (rungs side liq start k) qty).1 ∧
      (x.submit V (sweepRequest side start k qty)).2.trades =
        x.trades ++ RefBook.prints (start + k) side (allot Ticket.left qty (rungs side liq start k)) := by
  have hok : ∀ m ∈ rungs side liq start k, Ticket.within side (rung side k) m := by
    intro m hm
    obtain ⟨j, hj, rfl⟩ := mem_rungs hm
    show decide (side.other.rank (rung side j) ≤ side.other.rank (rung side k)) = true
    rw [rung_rank, rung_rank, decide_eq_true_eq]
    omega
  unfold RefBook.submit
  rw [refuses_none (.inr rfl) rfl hq hp]
  simp only [if_neg (show ¬ (sweepRequest side start k qty).orderId = 0 from hid)]
  rw [if_neg (show ¬ (sweepRequest side start k qty).type = .postOnly from fun e => nomatch e)]
  unfold RefBook.meet RefBook.settle
  dsimp only
  rw [show (sweepRequest side start k qty).side = side from rfl,
    show (sweepRequest side start k qty).priceTicks = rung side k from rfl,
    show (sweepRequest side start k qty).qty = qty from rfl, hladder, ← trade_allot hok]
  split
  · exact ⟨rfl, rfl⟩
  · rw [if_pos (show (sweepRequest side start k qty).type = .ioc from rfl)]
    exact ⟨rfl, rfl⟩

/-- What is left of the ladder after the taker. -/
theorem Stands.take (hV : DefaultBook V) (hl : 0 < liq) (hl' : liq ≤ int32Max) (hstart : 0 < start) (hk : (k : Int) ≤ MAX_LADDER)
    (hq : 0 < qty) (h : Stands V side (rungs side liq start k) b x)
    (hs : Book.submit V n (sweepRequest side start k qty) b = some (y, b')) :
    ∃ x' l, Stands V side l b' x' ∧ (∀ m ∈ l, ∃ j < k, m.id = start + j) ∧
      x'.trades = x.trades ++ RefBook.prints (start + k) side (allot Ticket.left qty (rungs side liq start k)) := by
  have hin : inRange V (rung side k) := rung_inRange hV side (by omega) hk
  have hid : start + k ≠ 0 := by omega
  have hpos : ∀ m ∈ rungs side liq start k, 0 < m.left := by
    intro m hm
    obtain ⟨j, -, rfl⟩ := mem_rungs hm
    rw [rungTicket_left]
    exact hl
  have hfree : b.core.find (start + k) = none := by
    refine h.find fun m hm => ?_
    obtain ⟨j, hj, rfl⟩ := mem_rungs hm
    show start + j ≠ start + k
    omega
  have hroom : b.core.freeHead ≠ none := by
    refine h.room ?_
    unfold rungs
    rw [length_map, length_range, hV.orders]
    unfold MAX_LADDER at hk
    omega
  obtain ⟨horders, htrades⟩ := RefBook.submit_sweep hin hq hid h.ladder
  have hleft : ∀ m ∈ (trade (Ticket.within side (rung side k)) (rungs side liq start k) qty).1,
      (∃ j < k, m.id = start + j) ∧ m.type = .limit := by
    intro m hm
    obtain ⟨m0, hm0, hid, hty⟩ := trade_kept hm
    obtain ⟨j, hj, rfl⟩ := mem_rungs hm0
    exact ⟨⟨j, hj, hid.symm⟩, hty.symm⟩
  have hrest : ∀ s, ∀ m ∈ (x.submit V (sweepRequest side start k qty)).2.orders s, m.type ≠ .ioc := by
    intro s m hm
    rw [horders] at hm
    by_cases e : s = side.other
    · rw [e, update_self] at hm
      rw [(hleft m hm).2]
      exact fun hc => nomatch hc
    · have hs : s = side := by
        rw [Side.eq_other_of_ne e, Side.other_other]
      rw [update_of_ne e, hs, h.own] at hm
      cases hm
  have hfollows := submit_follows_taken h.tied.toFollows (.inr rfl) h.sumsFit rfl (fun _ => hfree) hroom hrest hs
  have hsettling := h.tied.settling.submit (fun e => absurd e hid) hs
  refine ⟨_, _, ⟨⟨hfollows.2, hsettling⟩, ?_, ?_, fun p => ?_⟩, fun m hm => (hleft m hm).1, htrades⟩
  · rw [horders, update_of_ne (Side.other_ne side).symm, h.own]
  · rw [horders, update_self]
  · exact (qtyAt_trade_le hpos p qty).trans ((qtyAt_rungs hl p).trans hl')

/-! ## What the callback captures -/

/-- Price and quantity of what the events say was executed of the order with the number `k`. -/
def heard (k : Nat) (l : List Leg) : List (Int × Int) := (l.filter (·.orderId = k)).map fun x => (x.priceTicks, x.qty)

/-- The capture after the executions `l`. -/
def Capture.after (c : Capture) (l : List (Int × Int)) : Capture :=
  { c with qty := c.qty + (l.map Prod.snd).sum, notionalTicks := c.notionalTicks + (l.map fun x => x.1 * x.2).sum }

@[simp] theorem Capture.after_nil : c.after [] = c := by
  show { c with qty := c.qty + 0, notionalTicks := c.notionalTicks + 0 } = c
  rw [Int.add_zero, Int.add_zero]

theorem heard_cons (y : Leg) (l : List Leg) :
    heard k (y :: l) = if y.orderId = k then (y.priceTicks, y.qty) :: heard k l else heard k l := by
  unfold heard
  by_cases h : y.orderId = k
  · rw [if_pos h]
    simp [h]
  · rw [if_neg h]
    simp [h]

theorem heard_append (l l' : List Leg) : heard k (l ++ l') = heard k l ++ heard k l' := by
  unfold heard
  rw [filter_append, map_append]

/-- A callback that gets the events `es` captures what they say of the taker. -/
theorem foldl_onEvent (es : List BookEvent) : es.foldl Capture.onEvent c =
    c.after (heard c.takerId ((es.filter (·.type = .fill)).map BookEvent.leg)) := by
  induction es generalizing c with
  | nil => exact Capture.after_nil.symm
  | cons e es ih =>
    rw [foldl_cons, ih]
    unfold Capture.onEvent
    by_cases ht : e.type = .fill
    · have hcons : (e :: es).filter (fun e => decide (e.type = .fill)) = e :: es.filter fun e => decide (e.type = .fill) := by
        simp [ht]
      rw [hcons, map_cons, heard_cons]
      by_cases hid : e.orderId = c.takerId
      · rw [if_pos ⟨ht, hid⟩, if_pos (show e.leg.orderId = c.takerId from hid)]
        unfold Capture.after
        rw [map_cons, map_cons, sum_cons, sum_cons, ← Int.add_assoc, ← Int.add_assoc]
        rfl
      · rw [if_neg fun h => hid h.2, if_neg (show ¬ e.leg.orderId = c.takerId from hid)]
    · have hcons : (e :: es).filter (fun e => decide (e.type = .fill)) = es.filter fun e => decide (e.type = .fill) := by
        simp [ht]
      rw [if_neg fun h => ht h.1, hcons]

/-- The legs of the taker are the executions, if it was the taker of each and the maker of none. -/
theorem heard_told {rs : List Report} (h : ∀ t ∈ rs.filterMap Report.print, t.1 ≠ k ∧ t.2.1 = k) :
    heard k (rs.flatMap Report.told) = (rs.filterMap Report.print).map fun t => (t.2.2.1, t.2.2.2.1) := by
  induction rs with
  | nil => rfl
  | cons e rs ih =>
    rw [flatMap_cons, heard_append]
    cases e with
    | fill m t q =>
      have hprint : (Report.fill m t q :: rs).filterMap Report.print =
          (m.id, t.id, m.priceTicks, q, t.side) :: rs.filterMap Report.print := rfl
      rw [hprint] at h ⊢
      have hm : ¬ (makerLeg m t q).orderId = k := (h _ mem_cons_self).1
      have ht : (takerLeg m t q).orderId = k := (h _ mem_cons_self).2
      rw [ih fun t ht => h t (mem_cons_of_mem _ ht), map_cons]
      have hmaker : heard k (if m.totalQty ≤ m.filledQty + q then [makerLeg m t q] else []) = [] := by
        split
        · rw [heard_cons, if_neg hm]
          rfl
        · rfl
      have htaker : heard k (Report.fill m t q).told = [(m.priceTicks, q)] := by
        show heard k (takerLeg m t q :: if m.totalQty ≤ m.filledQty + q then [makerLeg m t q] else []) = _
        rw [heard_cons, if_pos ht, hmaker]
        rfl
      rw [htaker]
      rfl
    | _ => exact ih h

/-- Between two books that go with reference books, the events of the taker are the trades that came in between. -/
theorem heard_between {es : List BookEvent} {ts : List Print} (h : Agrees V b x) (h' : Agrees V b' x')
    (hn : ∃ rs, Narrates b b' rs) (hes : b'.tape.events = b.tape.events ++ es) (hts : x'.trades = x.trades ++ ts)
    (hk : ∀ t ∈ ts, t.1 ≠ k ∧ t.2.1 = k) :
    heard k ((es.filter (·.type = .fill)).map BookEvent.leg) = ts.map fun t => (t.2.2.1, t.2.2.2.1) := by
  obtain ⟨rs, hn⟩ := hn
  have htrades : rs.reverse.filterMap Report.print = ts := by
    have ht := h'.trades
    rw [hn.log, reverse_append, filterMap_append, h.trades, hts] at ht
    exact append_cancel_left ht
  have hlegs : (es.filter (·.type = .fill)).map BookEvent.leg = rs.reverse.flatMap Report.told := by
    have he := hn.events
    unfold Book.fillEvents at he
    rw [hes, filter_append, map_append] at he
    exact append_cancel_left he
  rw [hlegs, heard_told (by rwa [htrades]), htrades]

end

/-! ## A call -/

/-- Between two calls the book holds no order, and the ids from `nextId` on are new. -/
structure Idle (V : Env) (liq : Int) (e : BookMatchEngine) : Prop where
  stands : ∃ x, Stands V .buy [] e.book x
  liq : e.levelLiq = liq
  fresh : 0 < e.nextId

namespace BookMatchEngine

variable {V : Env} {liq qty : Int} {side : Side} {e e' : BookMatchEngine} {k n : Nat} {start L : Nat} {b : Book}

/-- `k` steps of the ladder stand, under the ids from `start` on. -/
structure Placed (V : Env) (liq : Int) (side : Side) (start k : Nat) (e : BookMatchEngine) : Prop where
  stands : ∃ x, Stands V side (rungs side liq start k) e.book x
  liq : e.levelLiq = liq
  next : e.nextId = start + k

theorem rungRequest_eq (h : Placed V liq side start k e) : e.rungRequest side k = Simulator.rungRequest side liq start k := by
  unfold rungRequest Simulator.rungRequest
  rw [h.liq, h.next, contra_eq]

/-- One step more. -/
theorem Placed.step {y : Nat × RejectReason} (hV : DefaultBook V) (hl : 0 < liq) (hl' : liq ≤ int32Max) (hstart : 0 < start)
    (hk : (k : Int) < MAX_LADDER) (h : Placed V liq side start k e)
    (hs : Book.submit V n (e.rungRequest side k) e.book = some (y, b)) :
    Placed V liq side start (k + 1) ({ e with nextId := e.nextId + 1 }.listen b) := by
  rw [rungRequest_eq h] at hs
  obtain ⟨x, hx⟩ := h.stands
  refine ⟨hx.place hV hl hl' hstart hk hs, h.liq, ?_⟩
  rw [h.next]
  rfl

/-- The steps from the `k`-th on are placed one after the other. -/
theorem placeLadder_placed {ids : List Nat} (hV : DefaultBook V) (hl : 0 < liq) (hl' : liq ≤ int32Max) (hstart : 0 < start)
    (hL : (L : Int) ≤ MAX_LADDER) (m : Nat) (hm : k + m = L) (h : Placed V liq side start k e)
    (hp : placeLadder V n side (List.range' k m) e = some (ids, e')) :
    Placed V liq side start L e' ∧ ids = List.range' (start + k) m := by
  induction m generalizing k e ids with
  | zero =>
    cases hp
    obtain rfl : k = L := hm
    exact ⟨h, rfl⟩
  | succ m ih =>
    rw [range'_succ] at hp
    unfold placeLadder at hp
    cases hs : Book.submit V n (e.rungRequest side k) e.book with
    | none =>
      rw [hs] at hp
      cases hp
    | some z =>
      obtain ⟨y, b⟩ := z
      rw [hs] at hp
      obtain ⟨⟨ids', e''⟩, hrest, he⟩ := Option.map_eq_some_iff.mp hp
      cases he
      obtain ⟨hend, hids⟩ := ih (by omega) (h.step hV hl hl' hstart (by omega) hs) hrest
      exact ⟨hend, by rw [h.next, hids, range'_succ]; rfl⟩

/-- With enough fuel each step is placed. -/
theorem placeLadder_returns (hV : DefaultBook V) (hl : 0 < liq) (hl' : liq ≤ int32Max) (hstart : 0 < start)
    (hL : (L : Int) ≤ MAX_LADDER) (m : Nat) (hm : k + m = L) (h : Placed V liq side start k e) :
    ∃ N z, ∀ n, N ≤ n → placeLadder V n side (List.range' k m) e = some z := by
  induction m generalizing k e with
  | zero => exact ⟨0, _, fun n _ => rfl⟩
  | succ m ih =>
    obtain ⟨x, hx⟩ := h.stands
    obtain ⟨n1, y, b, hs⟩ := submit_returns (r := e.rungRequest side k) hx.tied.toFollows hx.sumsFit
      (by rw [rungRequest_eq h]; exact .inl ⟨.inl rfl, rfl⟩)
    obtain ⟨n2, ⟨ids, e'⟩, hrest⟩ := ih (by omega) (h.step hV hl hl' hstart (by omega) hs)
    refine ⟨max n1 n2, (e.nextId :: ids, e'), fun n hn => ?_⟩
    rw [range'_succ]
    unfold placeLadder
    rw [submit_mono hx.tied.orderly.cont (by omega) hs]
    dsimp only
    rw [hrest n (by omega)]
    rfl

/-- A cancel emits no FILL event. -/
theorem cancel_events (hc : b.Continuous) (hw : Wf V b) (k : Nat) :
    ∃ es, (b.cancel V k).2.tape.events = b.tape.events ++ es ∧ ∀ e ∈ es, e.type ≠ .fill := by
  rw [cancel_eq hc hw]
  cases hf : b.core.find k with
  | none => exact ⟨[], (append_nil _).symm, fun e he => nomatch he⟩
  | some i =>
    obtain ⟨p, hi⟩ := hc.queued hw hf
    exact cancelInternal_events (hw.resting hi).active true

theorem listen_cap {es : List BookEvent} (hes : b.tape.events = e.book.tape.events ++ es) :
    (e.listen b).cap = e.cap.after (heard e.cap.takerId ((es.filter (·.type = .fill)).map BookEvent.leg)) := by
  unfold listen
  rw [hes, drop_left, foldl_onEvent]

/-- The cancels take out the orders with the ids of the ladder, and the callback hears no fill. -/
theorem cancelLadder_stands {l : List Ticket} {x : RefBook} (ids : List Nat) (h : Stands V side l e.book x) :
    (∃ x', Stands V side (l.filter (·.id ∉ ids)) (e.cancelLadder V ids).book x') ∧
      (e.cancelLadder V ids).cap = e.cap ∧ (e.cancelLadder V ids).nextId = e.nextId ∧
      (e.cancelLadder V ids).levelLiq = e.levelLiq := by
  induction ids generalizing e l x with
  | nil => exact ⟨⟨x, by simpa [cancelLadder] using h⟩, rfl, rfl, rfl⟩
  | cons k ids ih =>
    obtain ⟨es, hes, hfill⟩ := cancel_events h.tied.orderly.cont h.tied.orderly.wf k
    have hcap : (e.listen (e.book.cancel V k).2).cap = e.cap := by
      rw [listen_cap hes, filter_eq_nil_iff.mpr fun e he => by simpa using hfill e he]
      exact Capture.after_nil
    obtain ⟨⟨x', hx'⟩, hc, hn, hl⟩ := ih (e := e.listen (e.book.cancel V k).2) (h.cancel k)
    refine ⟨⟨x', ?_⟩, hc.trans hcap, hn, hl⟩
    have hfilter : l.filter (·.id ∉ k :: ids) = (l.filter (·.id ≠ k)).filter (·.id ∉ ids) := by
      rw [filter_filter]
      refine filter_congr fun m _ => ?_
      simp [Bool.and_comm]
    rw [hfilter]
    exact hx'

end BookMatchEngine

/-- `qty` shares taken greedily from the touch, `liq` at each price: the prices, and how much at each. -/
def greedy (side : Side) (liq qty : Int) : List (Int × Int) :=
  allot (fun _ => liq) qty ((List.range MAX_LADDER.toNat).map fun (k : Nat) => rung side k)

section

variable {liq qty : Int} {side : Side}

theorem sum_const (l : List Int) (c : Int) : (l.map fun _ => c).sum = l.length * c := by
  rw [map_const', sum_replicate, nsmul_eq_mul]

/-- The ladder is worth `250 * liq`. -/
theorem greedy_sum (hl : 0 < liq) (hq : 0 < qty) : ((greedy side liq qty).map Prod.snd).sum = min qty (250 * liq) := by
  unfold greedy
  rw [allot_sum (fun _ _ => hl) hq.le, sum_const, length_map, length_range]
  rfl

/-- A ladder that is worth more than `qty`, or has all its steps, is enough. -/
theorem greedy_steps (hl : 0 < liq) (hq : 0 < qty) {L : Nat} (hL : L ≤ MAX_LADDER.toNat)
    (h : L = MAX_LADDER.toNat ∨ qty ≤ L * liq) :
    allot (fun _ => liq) qty ((List.range L).map fun (k : Nat) => rung side k) = greedy side liq qty := by
  rcases h with rfl | h
  · rfl
  · obtain ⟨m, hm⟩ := Nat.exists_eq_add_of_le hL
    unfold greedy
    rw [hm, range_add, map_append, allot_append (fun _ _ => hl), allot_sum (fun _ _ => hl) hq.le, sum_const,
      length_map, length_range, min_eq_left h, Int.sub_self, allot_nonpos le_rfl, append_nil]

end

namespace BookMatchEngine

variable {V : Env} {liq qty : Int} {side : Side} {e e' : BookMatchEngine} {n : Nat} {refPrice : Rat}

theorem levels_eq (hl : 0 < liq) (he : e.levelLiq = liq) (hq : 0 < qty) (hq' : qty ≤ int32Max - 2) :
    e.levels qty = min MAX_LADDER (qty / liq + 2) := by
  have hle : qty / liq ≤ qty := Int.ediv_le_self _ hq.le
  have hnn : 0 ≤ qty / liq := Int.ediv_nonneg hq.le hl.le
  unfold levels
  rw [he, Int.tdiv_eq_ediv_of_nonneg hq.le, i32_eq]
  unfold IsInt32 int32Min int32Max
  unfold int32Max at hq'
  omega

theorem levels_enough (hl : 0 < liq) (he : e.levelLiq = liq) (hq : 0 < qty) (hq' : qty ≤ int32Max - 2) :
    0 ≤ e.levels qty ∧ e.levels qty ≤ MAX_LADDER ∧ (e.levels qty = MAX_LADDER ∨ qty ≤ e.levels qty * liq) := by
  have hnn : 0 ≤ qty / liq := Int.ediv_nonneg hq.le hl.le
  have hlt : qty < (qty / liq + 1) * liq := Int.lt_ediv_add_one_mul_self _ hl
  rw [levels_eq hl he hq hq']
  unfold MAX_LADDER
  refine ⟨by omega, min_le_left _ _, ?_⟩
  rcases le_total (250 : Int) (qty / liq + 2) with h | h
  · exact .inl (min_eq_left h)
  · refine .inr ?_
    rw [min_eq_right h]
    exact hlt.le.trans (Int.mul_le_mul_of_nonneg_right (by omega) hl.le)

/-- The order is accepted, the ladder placed and the IOC order answered: what the call went through. -/
theorem matchOrder_cases {r : Int × Rat} (hp : 0 < refPrice) (hq : 0 < qty)
    (hm : e.matchOrder V n side refPrice qty = some (r, e')) : ∃ ids e1 y b,
      placeLadder V n side (List.range (e.levels qty).toNat) e = some (ids, e1) ∧
      Book.submit V n ({ side, priceTicks := rung side (e.levels qty), qty, type := .ioc, tif := .ioc, orderId := e1.nextId })
        e1.book = some (y, b) ∧
      e' = ({ e1 with cap := { takerId := e1.nextId }, nextId := e1.nextId + 1 }.listen b).cancelLadder V ids ∧
      r = e'.result refPrice := by
  unfold matchOrder at hm
  rw [if_neg fun h => h.elim (not_le.mpr hq) (Rat.not_le.mpr hp)] at hm
  dsimp only at hm
  cases hl : placeLadder V n side (List.range (e.levels qty).toNat) e with
  | none =>
    rw [hl] at hm
    cases hm
  | some z =>
    obtain ⟨ids, e1⟩ := z
    rw [hl] at hm
    dsimp only at hm
    cases hs : Book.submit V n (takerRequest { e1 with cap := { takerId := e1.nextId }, nextId := e1.nextId + 1 } side
        (e.levels qty) qty) e1.book with
    | none =>
      rw [hs] at hm
      cases hm
    | some w =>
      obtain ⟨y, b⟩ := w
      rw [hs] at hm
      cases hm
      exact ⟨ids, e1, y, b, rfl, hs, rfl, rfl⟩

/-- The taker's trades as the callback heard them: the greedy fill. -/
theorem sweep_captured {start L : Nat} {y : Nat × RejectReason} {b : Book} {x : RefBook} (hV : DefaultBook V) (hl : 0 < liq)
    (hl' : liq ≤ int32Max) (hstart : 0 < start) (hL : (L : Int) ≤ MAX_LADDER) (hq : 0 < qty)
    (henough : L = MAX_LADDER.toNat ∨ qty ≤ L * liq) (hx : Stands V side (rungs side liq start L) e.book x)
    (hcap : e.cap = { takerId := start + L })
    (hs : Book.submit V n (sweepRequest side start L qty) e.book = some (y, b)) :
    (∃ x l, Stands V side l b x ∧ ∀ m ∈ l, ∃ j < L, m.id = start + j) ∧
      (e.listen b).cap = Capture.after { takerId := start + L } (greedy side liq qty) := by
  obtain ⟨x', l, hstands, hids, htrades⟩ := hx.take hV hl hl' hstart hL hq hs
  obtain ⟨hn, es, hes⟩ := (submit_flow (T := fun _ => True) hx.tied.orderly.wf hx.tied.orderly.cont trivial hs).narrates
    hx.tied.orderly.wf
  have hk : ∀ t ∈ RefBook.prints (start + L) side (allot Ticket.left qty (rungs side liq start L)),
      t.1 ≠ start + L ∧ t.2.1 = start + L := by
    intro t ht
    obtain ⟨⟨m, q⟩, hm, rfl⟩ := mem_map.mp ht
    obtain ⟨j, hj, hmj⟩ := mem_rungs (allot_fst_mem hm)
    refine ⟨?_, rfl⟩
    rw [show m = rungTicket side liq start j from hmj]
    show start + j ≠ start + L
    omega
  refine ⟨⟨x', l, hstands, hids⟩, ?_⟩
  rw [listen_cap hes.symm, hcap, heard_between hx.tied.agrees hstands.tied.agrees hn hes.symm htrades hk]
  unfold RefBook.prints
  rw [map_map, ← greedy_steps hl hq (by unfold MAX_LADDER at hL ⊢; omega) henough, ← allot_rungs qty]
  rfl

/-- A call answers as the greedy fill says and leaves the engine idle. -/
theorem matchOrder_exact {r : Int × Rat} (hV : DefaultBook V) (hl : 0 < liq) (hl' : liq ≤ int32Max) (h : Idle V liq e)
    (hp : 0 < refPrice) (hq : 0 < qty) (hq' : qty ≤ int32Max - 2) (hm : e.matchOrder V n side refPrice qty = some (r, e')) :
    Idle V liq e' ∧ r.1 = min qty (250 * liq) ∧
      e'.cap.notionalTicks = ((greedy side liq qty).map fun x => x.1 * x.2).sum := by
  obtain ⟨ids, e1, y, b, hplace, hs, he', hr⟩ := matchOrder_cases hp hq hm
  obtain ⟨h0, hle, henough⟩ := levels_enough hl h.liq hq hq'
  obtain ⟨L, hL⟩ := Int.eq_ofNat_of_zero_le h0
  rw [hL] at hplace hs hle henough
  obtain ⟨x, hx⟩ := h.stands
  have hstart : Placed V liq side e.nextId 0 e := ⟨⟨x, hx.turn⟩, h.liq, rfl⟩
  rw [Int.toNat_natCast, range_eq_range'] at hplace
  obtain ⟨hplaced, rfl⟩ := placeLadder_placed hV hl hl' h.fresh hle L (Nat.zero_add L) hstart hplace
  rw [hplaced.next] at hs
  have hnum : L = MAX_LADDER.toNat ∨ qty ≤ L * liq := henough.imp (fun e => by rw [← e]; rfl) id
  obtain ⟨x1, hx1⟩ := hplaced.stands
  obtain ⟨⟨x2, l, hx2, hids⟩, hcap⟩ := sweep_captured
    (e := { e1 with cap := { takerId := e1.nextId }, nextId := e1.nextId + 1 }) hV hl hl' h.fresh hle hq hnum hx1
    (by rw [hplaced.next]) hs
  obtain ⟨⟨x3, hx3⟩, hcap', hnext, hliq⟩ := cancelLadder_stands
    (e := { e1 with cap := { takerId := e1.nextId }, nextId := e1.nextId + 1 }.listen b) (List.range' (e.nextId + 0) L) hx2
  rw [← he'] at hx3 hcap' hnext hliq
  rw [hcap] at hcap'
  have hnil : l.filter (·.id ∉ List.range' (e.nextId + 0) L) = [] := by
    refine filter_eq_nil_iff.mpr fun m hm => ?_
    obtain ⟨j, hj, hmj⟩ := hids m hm
    have hmem : m.id ∈ List.range' (e.nextId + 0) L := mem_range'_1.mpr (by omega)
    simpa using hmem
  rw [hnil] at hx3
  have hqty : e'.cap.qty = min qty (250 * liq) := by
    rw [hcap']
    show 0 + _ = _
    rw [Int.zero_add, greedy_sum hl hq]
  refine ⟨⟨⟨x3, hx3.turn⟩, hliq.trans hplaced.liq, ?_⟩, ?_, ?_⟩
  · rw [hnext]
    exact Nat.succ_pos _
  · have hmin : 0 < min qty (250 * liq) := lt_min hq (by omega)
    have hmin' : min qty (250 * liq) ≤ qty := min_le_left _ _
    rw [hr]
    unfold result
    rw [hqty, if_neg (not_le.mpr hmin)]
    refine i32_eq ?_
    unfold IsInt32 int32Min int32Max
    unfold int32Max at hq'
    omega
  · rw [hcap']
    exact Int.zero_add _

theorem matchOrder_returns (hV : DefaultBook V) (hl : 0 < liq) (hl' : liq ≤ int32Max) (h : Idle V liq e)
    (hp : 0 < refPrice) (hq : 0 < qty) (hq' : qty ≤ int32Max - 2) : ∃ n z, e.matchOrder V n side refPrice qty = some z := by
  obtain ⟨h0, hle, -⟩ := levels_enough hl h.liq hq hq'
  obtain ⟨L, hL⟩ := Int.eq_ofNat_of_zero_le h0
  rw [hL] at hle
  obtain ⟨x, hx⟩ := h.stands
  have hstart : Placed V liq side e.nextId 0 e := ⟨⟨x, hx.turn⟩, h.liq, rfl⟩
  obtain ⟨n1, ⟨ids, e1⟩, hplace⟩ := placeLadder_returns hV hl hl' h.fresh hle L (Nat.zero_add L) hstart
  obtain ⟨hplaced, -⟩ := placeLadder_placed hV hl hl' h.fresh hle L (Nat.zero_add L) hstart (hplace n1 le_rfl)
  obtain ⟨x1, hx1⟩ := hplaced.stands
  obtain ⟨n2, y, b, hs⟩ := submit_returns (r := takerRequest { e1 with cap := { takerId := e1.nextId }, nextId := e1.nextId + 1 }
    side (e.levels qty) qty) hx1.tied.toFollows hx1.sumsFit (.inr rfl)
  refine ⟨max n1 n2, Option.isSome_iff_exists.mp ?_⟩
  unfold matchOrder
  rw [if_neg fun h => h.elim (not_le.mpr hq) (Rat.not_le.mpr hp)]
  dsimp only
  rw [hL, Int.toNat_natCast, range_eq_range', hplace _ (le_max_left _ _)]
  dsimp only
  rw [hL] at hs
  rw [submit_mono hx1.tied.orderly.cont (le_max_right _ _) hs]
  rfl

end BookMatchEngine

theorem Idle.empty (h : Idle V liq e) :
    (∀ i, ¬ e.book.Live V i) ∧ e.book.core.bestBid = NO_BID_TICKS ∧ e.book.core.bestAsk = NO_ASK_TICKS := by
  obtain ⟨x, hx⟩ := h.stands
  have hw := hx.tied.orderly.wf
  have hqueue : ∀ i, ¬ e.book.core.Queued V i := by
    intro i hi
    obtain ⟨p, hp⟩ := hi
    have hmem := mem_ranked_of hw hp rfl
    rw [hx.tied.agrees.orders] at hmem
    exact not_mem_nil (hx.orders hmem)
  have hbest : ∀ s, e.book.core.best s = s.noBest := by
    intro s
    rcases hx.tied.orderly.best s with h | h
    · exact h.1
    · obtain ⟨i, hi, -⟩ := h.1
      exact absurd ⟨_, hi⟩ (hqueue i)
  refine ⟨fun i hi => hi.elim (hqueue i) fun hs => ?_, hbest .buy, hbest .sell⟩
  rw [hx.tied.orderly.cont.stops] at hs
  cases hs

/-- The engine after some calls of `match`. -/
inductive Engines (V : Env) (liq : Int) : BookMatchEngine → Prop
  | new : Engines V liq (.new V liq)
  | call {e e' : BookMatchEngine} {n : Nat} {side : Side} {refPrice : Rat} {qty : Int} {r : Int × Rat} : Engines V liq e →
      0 < refPrice → 0 < qty → qty ≤ int32Max - 2 → e.matchOrder V n side refPrice qty = some (r, e') → Engines V liq e'

theorem Engines.idle (hV : DefaultBook V) (hl : 0 < liq) (hl' : liq ≤ int32Max) (h : Engines V liq e) : Idle V liq e := by
  induction h with
  | new =>
    have hsim := fresh_sim V
    refine ⟨⟨{}, hsim.tied, rfl, rfl, fun _ => (by decide : (0 : Int) ≤ int32Max)⟩, if_pos hl, Nat.one_pos⟩
  | call _ hp hq hq' hm ih => exact (BookMatchEngine.matchOrder_exact hV hl hl' ih hp hq hq' hm).1

/-- However many orders came before, a call returns, fills what the ladder of `250 * liq` has, at the prices of the greedy
    fill, and leaves no order and no best price behind. -/
theorem ladder_match_exact {V : Env} {liq qty : Int} {e : BookMatchEngine} {side : Side} {refPrice : Rat}
    (hV : DefaultBook V) (hl : 0 < liq) (hl' : liq ≤ int32Max) (h : Engines V liq e) (hp : 0 < refPrice) (hq : 0 < qty)
    (hq' : qty ≤ int32Max - 2) : (∃ n z, e.matchOrder V n side refPrice qty = some z) ∧
      ∀ n r e', e.matchOrder V n side refPrice qty = some (r, e') → r.1 = min qty (250 * liq) ∧
        e'.cap.notionalTicks = ((greedy side liq qty).map fun x => x.1 * x.2).sum ∧
        (∀ i, ¬ e'.book.Live V i) ∧ e'.book.core.bestBid = NO_BID_TICKS ∧ e'.book.core.bestAsk = NO_ASK_TICKS := by
  have hidle := h.idle hV hl hl'
  refine ⟨BookMatchEngine.matchOrder_returns hV hl hl' hidle hp hq hq', fun n r e' hm => ?_⟩
  obtain ⟨hidle', hr, hn⟩ := BookMatchEngine.matchOrder_exact hV hl hl' hidle hp hq hq' hm
  exact ⟨hr, hn, hidle'.empty⟩

/-- The default book with a clock of its own. -/
def defaultEnv : Env :=
  { smallEnv with
    LEVELS := 16384
    MAX_ORDERS := 65536
    levels_pos := by decide
    levels_int32 := by decide
    max_orders_pos := by decide
    max_orders_int32 := by decide }

/-- A BUY order of 250 on a new engine takes two steps of the ladder whole and half of the third. -/
theorem ladder_match_exact_small : ∃ n r e', (BookMatchEngine.new defaultEnv 100).matchOrder defaultEnv n .buy 50 250 = some (r, e') ∧
    r.1 = 250 ∧ e'.cap.notionalTicks = 8192 * 100 + 8193 * 100 + 8194 * 50 ∧ e'.book.core.bestAsk = NO_ASK_TICKS := by
  have hnew : Engines defaultEnv 100 (.new defaultEnv 100) := .new
  obtain ⟨⟨n, ⟨r, e'⟩, hm⟩, hall⟩ :=
    @ladder_match_exact defaultEnv 100 250 _ .buy 50 ⟨rfl, rfl⟩ (by decide) (by decide) hnew (by decide) (by decide) (by decide)
  obtain ⟨hr, hn, -, -, hask⟩ := hall n r e' hm
  exact ⟨n, r, e', hm, hr, hn.trans (by decide), hask⟩

end HftLab.Simulator
