/-
  HftLab.OrderBook.FillEvents — what the FILL events and the drop copy say of the executions.

  `match_at_level` tells the taker of every execution, but the maker only of the one that completes it
  (`Report.told`); the auction tells each side of each of its fills. The events of a run of order entry
  are what its executions told (`Reach.told`), so they add up to what was executed if and only if every
  execution took all that was left of its maker (`fills_reported_iff`).
-/

import HftLab.OrderBook.SelfTrade
import HftLab.OrderBook.Steady
import Mathlib.Algebra.Order.BigOperators.Group.List
import Mathlib.Algebra.Order.Group.Int

namespace HftLab.OrderBook

open Lib Function List

/-- One side of an execution. -/
structure Leg where
  orderId : Nat
  makerId : Nat
  priceTicks : Int
  qty : Int
  clientId : Nat
  deriving DecidableEq

def BookEvent.leg (e : BookEvent) : Leg := ⟨e.orderId, e.makerId, e.priceTicks, e.qty, e.clientId⟩

def takerLeg (m t : Order) (q : Int) : Leg := ⟨t.id, m.id, m.priceTicks, q, t.clientId⟩

def makerLeg (m t : Order) (q : Int) : Leg := ⟨m.id, t.id, m.priceTicks, q, m.clientId⟩

/-- The two sides of an execution. -/
def Report.legs : Report → List Leg
  | .fill m t q => [takerLeg m t q, makerLeg m t q]
  | _ => []

/-- The sides that are told of it. -/
def Report.told : Report → List Leg
  | .fill m t q => takerLeg m t q :: if m.totalQty ≤ m.filledQty + q then [makerLeg m t q] else []
  | _ => []

/-- An execution of all that was left of the maker, or of nothing. -/
def Report.whole : Report → Bool
  | .fill m _ q => q ≤ 0 || m.totalQty ≤ m.filledQty + q
  | _ => true

def Book.fillEvents (b : Book) : List BookEvent := b.tape.events.filter (·.type = .fill)

/-- What `drop_copy_cb_` is called with when client `c` is monitored. -/
def Book.dropCopy (b : Book) (c : Nat) : List BookEvent := b.tape.events.filter fun e => e.clientId ≠ 0 && e.clientId = c

def Book.legs (b : Book) : List Leg := b.log.reverse.flatMap Report.legs

def qtyWhere (P : Leg → Bool) (l : List Leg) : Int := ((l.filter P).map Leg.qty).sum

/-- The quantity of the orders with id `x` that the tape says was executed. -/
def Book.executedQty (b : Book) (x : Nat) : Int :=
  (b.tape.trades.map fun t => (if t.takerOrderId = x then t.qty else 0) + (if t.makerOrderId = x then t.qty else 0)).sum

/-- The FILL events say of each order how much of it was executed, and the drop copy of a client has all
    the client's executions. -/
structure FillsReported (b : Book) : Prop where
  order : ∀ x, qtyWhere (·.orderId = x) (b.fillEvents.map BookEvent.leg) = b.executedQty x
  legs : ∀ c, c ≠ 0 → (((b.dropCopy c).filter (·.type = .fill)).map BookEvent.leg).filter (0 < ·.qty) =
    b.legs.filter fun x => x.clientId = c && 0 < x.qty
  client : ∀ c, c ≠ 0 → qtyWhere (fun _ => true) (((b.dropCopy c).filter (·.type = .fill)).map BookEvent.leg) =
    qtyWhere (·.clientId = c) b.legs

/-! ## What a move tells -/

/-- A move that reports `l` emits what `l` tells and prints its executions. -/
structure Narrates (b b' : Book) (l : List Report) : Prop where
  log : b'.log = l ++ b.log
  events : b'.fillEvents.map BookEvent.leg = b.fillEvents.map BookEvent.leg ++ l.reverse.flatMap Report.told
  trades : b'.tape.trades.map Trade.print = b.tape.trades.map Trade.print ++ l.reverse.filterMap Report.print
  pos : ∀ e ∈ l, ∀ x ∈ e.legs, 0 ≤ x.qty

section

variable {V : Env} {T : OrderType × TimeInForce → Prop} {b b' b'' : Book} {p q : Int} {t ts i : Nat} {r : Request}
    {P : Leg → Bool} {l : List Report} {e : Report} {x : List Leg}

/-- Events of other types, and no trade. -/
theorem Narrates.quiet {es : List BookEvent} (hl : b'.log = l ++ b.log) (he : b'.tape.events = b.tape.events ++ es)
    (hf : ∀ e ∈ es, e.type ≠ .fill) (ht : b'.tape.trades = b.tape.trades) (hn : ∀ e ∈ l, e.print = none) : Narrates b b' l := by
  have hlegs : ∀ e ∈ l, e.legs = [] ∧ e.told = [] := by
    intro e h
    have h1 := hn e h
    cases e with
    | fill m t q => cases h1
    | _ => exact ⟨rfl, rfl⟩
  have hes : es.filter (·.type = .fill) = [] := by
    rw [filter_eq_nil_iff]
    intro e h
    simpa using hf e h
  have htold : l.reverse.flatMap Report.told = [] := by
    rw [flatMap_eq_nil_iff]
    intro e h
    exact (hlegs e (mem_reverse.mp h)).2
  have hprint : l.reverse.filterMap Report.print = [] := by
    rw [filterMap_eq_nil_iff]
    intro e h
    exact hn e (mem_reverse.mp h)
  refine ⟨hl, ?_, ?_, fun e h x hx => ?_⟩
  · unfold Book.fillEvents
    rw [he, filter_append, hes, htold, append_nil, append_nil]
  · rw [ht, hprint, append_nil]
  · rw [(hlegs e h).1] at hx
    cases hx

theorem one_event {e : BookEvent} (h : e.type ≠ .fill) : ∀ x ∈ [e], x.type ≠ .fill := by
  intro x hx
  rw [mem_singleton.mp hx]
  exact h

theorem pushDelta_events (type : DeltaType) (side : Side) (price newQty : Int) :
    (b.pushDelta type side price newQty).tape.events = b.tape.events := by
  unfold Book.pushDelta
  split <;> rfl

theorem cancelInternal_events (ha : (b.order i).isActive) (e : Bool) :
    ∃ es, (b.cancelInternal V i e).tape.events = b.tape.events ++ es ∧ ∀ e ∈ es, e.type ≠ .fill := by
  unfold Book.cancelInternal
  simp only [ha, Bool.not_true, Bool.false_eq_true, if_false]
  cases e with
  | true => exact ⟨[_], pushDelta_events .., one_event (by simp)⟩
  | false => exact ⟨[], (pushDelta_events ..).trans (append_nil _).symm, fun e he => (by cases he)⟩

theorem cancel_narrates (ha : (b.order i).isActive) (e : Bool) :
    Narrates b (b.cancelInternal V i e) [if e then .cancel (b.order i) else .replace (b.order i)] := by
  obtain ⟨hl, -, -, -, ht⟩ := Book.cancelInternal_rest e ha
  obtain ⟨es, he, hf⟩ := cancelInternal_events ha e
  refine Narrates.quiet hl he hf ht fun x hx => ?_
  rw [mem_singleton.mp hx]
  cases e <;> rfl

theorem accept_events (ha : b.accept V r = some (i, b')) : ∃ e, b'.tape.events = b.tape.events ++ [e] ∧ e.type = .accept := by
  unfold Book.accept at ha
  dsimp only at ha
  split at ha
  · cases ha
  · cases ha
    exact ⟨_, rfl, rfl⟩

theorem accept_narrates (ha : b.accept V r = some (i, b')) : Narrates b b' [.accept (b'.order i)] := by
  obtain ⟨hl, -, -, -, ht⟩ := Book.accept_rest ha
  obtain ⟨e, he, hty⟩ := accept_events ha
  refine Narrates.quiet hl he (one_event (by simp [hty])) ht fun x hx => ?_
  rw [mem_singleton.mp hx]
  rfl

theorem restOrder_events : (b.restOrder i).tape.events = b.tape.events := by
  unfold Book.restOrder
  dsimp only
  split
  · rfl
  · exact pushDelta_events ..

theorem rest_narrates : Narrates b (b.restOrder i) [.rest (b.order i).atRest] := by
  have hp := restOrder_prints (b := b) (i := i)
  have he : (b.restOrder i).tape.events = b.tape.events ++ [] := restOrder_events.trans (append_nil _).symm
  have ht : (b.restOrder i).tape.trades = b.tape.trades := by
    unfold Book.restOrder
    dsimp only
    split
    · rfl
    · exact Book.pushDelta_trades ..
  refine Narrates.quiet hp.log he (fun e h => (by cases h)) ht fun x hx => ?_
  rw [mem_singleton.mp hx]
  rfl

/-- The event of a completed maker comes after the one of the taker. -/
theorem executed_events (hne : i ≠ t) : (b.executed V p t ts i q).fillEvents.map BookEvent.leg =
    b.fillEvents.map BookEvent.leg ++ (Report.fill (b.order i) (b.order t) q).told := by
  have hf : (b.fillMaker V p t i q ts).fillEvents.map BookEvent.leg =
      b.fillEvents.map BookEvent.leg ++ [takerLeg (b.order i) (b.order t) q] := by
    obtain ⟨e, he, hleg⟩ : ∃ e, (b.fillMaker V p t i q ts).fillEvents = b.fillEvents ++ [e] ∧
        e.leg = takerLeg (b.order i) (b.order t) q := ⟨_, filter_append .., rfl⟩
    rw [he, map_append, ← hleg]
    rfl
  have hm : (b.fillMaker V p t i q ts).order i = (b.order i).filledBy q := by
    show (b.fillMaker V p t i q ts).core.pool i = _
    rw [Book.fillMaker_core, Core.fill_pool hne, update_self]
    rfl
  have hk : ((b.fillMaker V p t i q ts).order t).id = (b.order t).id := by
    show ((b.fillMaker V p t i q ts).core.pool t).id = _
    rw [Book.fillMaker_core, Core.fill_pool hne, update_of_ne hne.symm, update_self]
    rfl
  unfold Book.executed Book.settleMaker Report.told
  dsimp only
  rw [hm]
  split
  · rename_i hc
    have hlt : 0 < (b.order i).totalQty - ((b.order i).filledQty + q) := hc.2.1
    rw [if_neg (by omega)]
    exact hf
  · split
    · rename_i hd
      have hd : (b.order i).totalQty ≤ (b.order i).filledQty + q := hd
      rw [if_pos hd]
      have he : ((b.fillMaker V p t i q ts).completeMaker p t i q).fillEvents.map BookEvent.leg =
          (b.fillMaker V p t i q ts).fillEvents.map BookEvent.leg ++ [makerLeg (b.order i) (b.order t) q] := by
        unfold Book.fillEvents
        have hev : ((b.fillMaker V p t i q ts).completeMaker p t i q).tape.events =
            (b.fillMaker V p t i q ts).tape.events ++ [⟨.fill, ((b.fillMaker V p t i q ts).order i).id,
              (((b.fillMaker V p t i q ts).mapCore (·.setStatus i .filled)).order t).id,
              ((b.fillMaker V p t i q ts).order i).priceTicks, q, .filled, .none,
              (b.fillMaker V p t i q ts).tape.nextEventSeq + 1, ((b.fillMaker V p t i q ts).order i).clientId⟩] := rfl
        have ht : (((b.fillMaker V p t i q ts).mapCore (·.setStatus i .filled)).order t).id = (b.order t).id := by
          rw [← hk]
          show (update (b.fillMaker V p t i q ts).core.pool i _ t).id = _
          rw [update_of_ne hne.symm]
          rfl
        rw [hev, ht, hm, filter_append, map_append]
        rfl
      rw [he, hf, append_assoc]
      rfl
    · rename_i hd
      have hd : ¬ (b.order i).totalQty ≤ (b.order i).filledQty + q := hd
      rw [if_neg hd]
      exact hf

theorem executed_narrates (hne : i ≠ t) (hq : 0 ≤ q) :
    Narrates b (b.executed V p t ts i q) [.fill (b.order i) (b.order t) q] := by
  refine ⟨Book.executed_log, ?_, executed_prints.trades, fun e he x hx => ?_⟩
  · rw [executed_events hne]
    simp
  · rw [mem_singleton.mp he] at hx
    rcases mem_cons.mp hx with rfl | hx
    · exact hq
    · rw [mem_singleton.mp hx]
      exact hq

theorem Move.narrates (h : Move V T b b') (hw : Wf V b) : ∃ l, Narrates b b' l := by
  have one : ∀ {e : Report}, e.print = none → ∀ x ∈ [e], x.print = none := by
    intro e he x hx
    rw [mem_singleton.mp hx]
    exact he
  have none_fill : ∀ e ∈ ([] : List BookEvent), e.type ≠ .fill := fun e he => (by cases he)
  have same : b.tape.events = b.tape.events ++ [] := (append_nil _).symm
  cases h with
  | stpAbort taker maker => exact ⟨[_], Narrates.quiet rfl same none_fill rfl (one rfl)⟩
  | stpCancel taker maker => exact ⟨[_], Narrates.quiet rfl same none_fill rfl (one rfl)⟩
  | gates g a => exact ⟨[], Narrates.quiet rfl same none_fill rfl (by simp)⟩
  | best x y => exact ⟨[], Narrates.quiet rfl same none_fill rfl (by simp)⟩
  | reject r reason =>
    exact ⟨[], Narrates.quiet rfl rfl (one_event (by simp)) rfl (by simp)⟩
  | accept r i _ _ _ ha => exact ⟨_, accept_narrates ha⟩
  | exec p t ts i qty hm =>
    have hs := (hw.resting hm.queued).shown
    have hpos := hm.pos
    exact ⟨_, executed_narrates (hw.flying_ne_queued hm.queued hm.flying) (by omega)⟩
  | cancel p i e hi => exact ⟨_, cancel_narrates (hw.resting hi).active e⟩
  | finishFilled i _ _ => exact ⟨[_], Narrates.quiet rfl same none_fill rfl (one rfl)⟩
  | finishIoc i _ _ =>
    exact ⟨[_], Narrates.quiet rfl rfl (one_event (by simp)) rfl (one rfl)⟩
  | rest i _ _ _ => exact ⟨_, rest_narrates⟩
  | reduce p id i q _ _ _ _ =>
    exact ⟨[_], Narrates.quiet rfl rfl (one_event (by simp)) rfl (one rfl)⟩

/-- Events are only ever added. -/
theorem Move.appends (h : Move V T b b') (hw : Wf V b) : b.tape.events <+: b'.tape.events := by
  cases h with
  | stpAbort | stpCancel | gates | best | finishFilled => exact prefix_rfl
  | reject | finishIoc | reduce => exact prefix_append ..
  | accept r i _ _ _ ha =>
    obtain ⟨e, he, -⟩ := accept_events ha
    exact he ▸ prefix_append ..
  | exec p t ts i qty hm =>
    have hf : b.tape.events <+: (b.fillMaker V p t i (min qty (b.core.body i).displayedQty) ts).tape.events :=
      prefix_append ..
    unfold Book.executed Book.settleMaker
    dsimp only
    split
    · exact hf
    · split
      · exact hf.trans (prefix_append ..)
      · exact hf
  | cancel p i e hi =>
    obtain ⟨es, he, -⟩ := cancelInternal_events (hw.resting hi).active e
    exact he ▸ prefix_append ..
  | rest i _ _ _ =>
    rw [restOrder_events]

theorem Narrates.trans {l' : List Report} (h : Narrates b b' l) (h' : Narrates b' b'' l') : Narrates b b'' (l' ++ l) := by
  refine ⟨?_, ?_, ?_, fun e he => ?_⟩
  · rw [h'.log, h.log, append_assoc]
  · rw [h'.events, h.events, reverse_append, flatMap_append, append_assoc]
  · rw [h'.trades, h.trades, reverse_append, filterMap_append, append_assoc]
  · exact (mem_append.mp he).elim (h'.pos e) (h.pos e)

theorem Flow.narrates (h : Flow V T b b') (hw : Wf V b) : (∃ l, Narrates b b' l) ∧ b.tape.events <+: b'.tape.events := by
  have start : Narrates b b [] := Narrates.quiet rfl (append_nil _).symm (fun _ he => (by cases he)) rfl fun _ he => (by cases he)
  refine h.keeps (I := fun c => (∃ l, Narrates b c l) ∧ b.tape.events <+: c.tape.events) hw ⟨⟨[], start⟩, prefix_rfl⟩ ?_
  intro c c' hc hm hI
  obtain ⟨⟨l, hl⟩, hp⟩ := hI
  obtain ⟨l', hl'⟩ := hm.narrates hc
  exact ⟨⟨_, hl.trans hl'⟩, hp.trans (hm.appends hc)⟩

/-! ## Runs -/

/-- The FILL events of the run so far are what its executions told, and the tape has its executions. -/
structure Told (b : Book) : Prop where
  events : b.fillEvents.map BookEvent.leg = b.log.reverse.flatMap Report.told
  trades : b.tape.trades.map Trade.print = b.log.reverse.filterMap Report.print
  pos : ∀ e ∈ b.log, ∀ x ∈ e.legs, 0 ≤ x.qty

theorem Told.step (h : Told b) (hn : Narrates b b' l) : Told b' := by
  refine ⟨?_, ?_, fun e he => ?_⟩
  · rw [hn.events, h.events, hn.log, reverse_append, flatMap_append]
  · rw [hn.trades, h.trades, hn.log, reverse_append, filterMap_append]
  · rw [hn.log] at he
    rcases mem_append.mp he with he | he
    · exact hn.pos e he
    · exact h.pos e he

theorem Reach.told (h : Book.Reach V (fun _ op _ => op.entry = true) b) : Told b := by
  have h' : Book.Reach V (fun _ op _ => op.Enters fun _ => True) b := by
    refine Reach.mono (fun _ op _ hop => ?_) h
    cases op with
    | submit r => trivial
    | _ => exact hop
  refine (Reach.moved h' ⟨rfl, rfl, fun e he => (by cases he)⟩ fun hw _ hm hb => ?_).2
  obtain ⟨l, hl⟩ := hm.narrates hw
  exact hb.step hl

/-! ## Sums over the legs -/

theorem qtyWhere_append (x y : List Leg) : qtyWhere P (x ++ y) = qtyWhere P x + qtyWhere P y := by
  unfold qtyWhere
  rw [filter_append, map_append, sum_append]

theorem qtyWhere_cons (x : Leg) (y : List Leg) : qtyWhere P (x :: y) = (if P x then x.qty else 0) + qtyWhere P y := by
  unfold qtyWhere
  by_cases h : P x
  · rw [filter_cons_of_pos h, map_cons, sum_cons, if_pos h]
  · rw [filter_cons_of_neg h, if_neg h, Int.zero_add]

theorem qtyWhere_nonneg (h : ∀ y ∈ x, 0 ≤ y.qty) : 0 ≤ qtyWhere P x := by
  refine sum_nonneg fun z hz => ?_
  obtain ⟨y, hy, rfl⟩ := mem_map.mp hz
  exact h y (mem_of_mem_filter hy)

theorem qtyWhere_flatMap (f : Report → List Leg) (l : List Report) :
    qtyWhere P (l.flatMap f) = (l.map fun e => qtyWhere P (f e)).sum := by
  induction l with
  | nil => rfl
  | cons e l ih => rw [flatMap_cons, qtyWhere_append, ih, map_cons, sum_cons]

/-- Legs of no quantity do not count. -/
theorem qtyWhere_pos (h : ∀ y ∈ x, 0 ≤ y.qty) : qtyWhere P x = qtyWhere P (x.filter (0 < ·.qty)) := by
  induction x with
  | nil => rfl
  | cons y x ih =>
    have hx := ih fun z hz => h z (mem_cons_of_mem _ hz)
    have hy := h y mem_cons_self
    rw [qtyWhere_cons, hx]
    by_cases hpos : 0 < y.qty
    · rw [filter_cons_of_pos (by simpa using hpos), qtyWhere_cons]
    · rw [filter_cons_of_neg (by simpa using hpos)]
      have h0 : y.qty = 0 := by omega
      rw [h0]
      simp

/-- What was not told of an execution: the maker's side, unless it was completed. -/
theorem Report.told_short (e : Report) : qtyWhere P e.legs = qtyWhere P e.told +
    (match e with | .fill m t q => if m.totalQty ≤ m.filledQty + q then 0 else qtyWhere P [makerLeg m t q] | _ => 0) := by
  cases e with
  | fill m t q =>
    by_cases hd : m.totalQty ≤ m.filledQty + q
    · simp only [Report.legs, Report.told, if_pos hd, Int.add_zero]
    · simp only [Report.legs, Report.told, if_neg hd]
      exact qtyWhere_append [takerLeg m t q] [makerLeg m t q]
  | _ => rfl

theorem Report.told_le (h : ∀ x ∈ e.legs, 0 ≤ x.qty) : qtyWhere P e.told ≤ qtyWhere P e.legs := by
  rw [e.told_short]
  cases e with
  | fill m t q =>
    dsimp only
    split
    · omega
    · have : 0 ≤ qtyWhere P [makerLeg m t q] := by
        refine qtyWhere_nonneg fun y hy => h y ?_
        exact mem_cons_of_mem _ hy
      omega
  | _ => exact le_rfl

theorem Report.told_whole (hw : e.whole) : e.told.filter (0 < ·.qty) = e.legs.filter (0 < ·.qty) := by
  cases e with
  | fill m t q =>
    unfold Report.legs Report.told
    dsimp only
    split
    · rfl
    · rename_i hn
      unfold Report.whole at hw
      simp only [Bool.or_eq_true, decide_eq_true_eq] at hw
      have hq : ¬ 0 < q := by omega
      simp [takerLeg, makerLeg, hq]
  | _ => rfl

theorem told_filter (h : ∀ e ∈ l, e.whole) :
    (l.flatMap Report.told).filter (0 < ·.qty) = (l.flatMap Report.legs).filter (0 < ·.qty) := by
  induction l with
  | nil => rfl
  | cons e l ih =>
    rw [flatMap_cons, flatMap_cons, filter_append, filter_append,
      Report.told_whole (h e mem_cons_self), ih fun x hx => h x (mem_cons_of_mem _ hx)]

theorem Told.executedQty (h : Told b) (x : Nat) : b.executedQty x = qtyWhere (·.orderId = x) b.legs := by
  have hprint : b.executedQty x = ((b.tape.trades.map Trade.print).map fun y =>
      (if y.2.1 = x then y.2.2.2.1 else 0) + (if y.1 = x then y.2.2.2.1 else 0)).sum := by
    rw [map_map]
    rfl
  unfold Book.legs
  rw [hprint, h.trades, qtyWhere_flatMap, sum_filterMap]
  refine congrArg List.sum (map_congr_left fun e _ => ?_)
  cases e with
  | fill m t q =>
    show _ + _ = qtyWhere _ (takerLeg m t q :: makerLeg m t q :: [])
    rw [qtyWhere_cons, qtyWhere_cons]
    by_cases ht : t.id = x <;> by_cases hm : m.id = x <;> simp [takerLeg, makerLeg, qtyWhere, ht, hm]
  | _ => rfl

theorem Told.dropCopy (h : Told b) {c : Nat} (hc : c ≠ 0) :
    ((b.dropCopy c).filter (·.type = .fill)).map BookEvent.leg = (b.log.reverse.flatMap Report.told).filter (·.clientId = c) := by
  rw [← h.events]
  unfold Book.dropCopy Book.fillEvents
  rw [filter_map, filter_filter, filter_filter]
  refine congrArg (List.map BookEvent.leg) (filter_congr fun e _ => ?_)
  by_cases he : e.clientId = c
  · simp [BookEvent.leg, he, hc]
  · simp [BookEvent.leg, he]

theorem Told.legs_pos (h : Told b) : ∀ x ∈ b.legs, 0 ≤ x.qty := by
  intro x hx
  obtain ⟨e, he, hx⟩ := mem_flatMap.mp hx
  exact h.pos e (mem_reverse.mp he) x hx

theorem Told.told_pos (h : Told b) : ∀ x ∈ b.log.reverse.flatMap Report.told, 0 ≤ x.qty := by
  intro x hx
  obtain ⟨e, he, hx⟩ := mem_flatMap.mp hx
  refine h.pos e (mem_reverse.mp he) x ?_
  cases e with
  | fill m t q =>
    rcases mem_cons.mp hx with rfl | hx
    · exact mem_cons_self
    · split at hx
      · exact mem_cons_of_mem _ hx
      · cases hx
  | _ => cases hx

/-- After order entry in continuous trading, the FILL events account for what was executed if and only if
    every execution took all that was left of its maker. -/
theorem fills_reported_iff (h : Book.Reach V (fun _ op _ => op.entry = true) b) :
    FillsReported b ↔ ∀ e ∈ b.log, e.whole = true := by
  have ht := Reach.told h
  have hsum : ∀ x, qtyWhere (·.orderId = x) (b.fillEvents.map BookEvent.leg) =
      (b.log.reverse.map fun e => qtyWhere (·.orderId = x) e.told).sum := by
    intro x
    rw [ht.events, qtyWhere_flatMap]
  have hexec : ∀ x, b.executedQty x = (b.log.reverse.map fun e => qtyWhere (·.orderId = x) e.legs).sum := by
    intro x
    rw [ht.executedQty, Book.legs, qtyWhere_flatMap]
  constructor
  · intro hr e he
    by_contra hn
    cases e with
    | fill m t q =>
      simp only [Report.whole, Bool.or_eq_true, decide_eq_true_eq, not_or] at hn
      -- the sums over the orders with the maker's id differ at least by this execution
      refine absurd (hr.order m.id) (ne_of_lt ?_)
      rw [hsum, hexec]
      refine List.sum_lt_sum _ _ (fun e he => Report.told_le (ht.pos e (List.mem_reverse.mp he)))
        ⟨.fill m t q, List.mem_reverse.mpr he, ?_⟩
      rw [(Report.fill m t q).told_short]
      dsimp only
      rw [if_neg hn.2, qtyWhere_cons]
      simp only [makerLeg, decide_true, if_true]
      show _ < _ + (q + 0)
      omega
    | _ => exact hn rfl
  · intro hall
    have hf := told_filter fun e he => hall e (List.mem_reverse.mp he)
    have hq : ∀ P, qtyWhere P (b.log.reverse.flatMap Report.told) = qtyWhere P b.legs := by
      intro P
      rw [qtyWhere_pos ht.told_pos, hf, qtyWhere_pos ht.legs_pos]
      rfl
    refine ⟨fun x => ?_, fun c hc => ?_, fun c hc => ?_⟩
    · rw [ht.events, hq, ht.executedQty]
    · rw [ht.dropCopy hc, List.filter_comm, hf, List.filter_filter]
      rfl
    · rw [ht.dropCopy hc, ← hq]
      unfold qtyWhere
      rw [List.filter_filter]
      simp

end

/-- Two makers filled one after the other by an order that rests with what is left. -/
theorem fills_reported_small : ∃ b, Book.runIf smallEnv 20 (fun _ op _ => op.entry)
      [.submit { side := .sell, priceTicks := 3, qty := 5, clientId := 1 },
       .submit { side := .sell, priceTicks := 3, qty := 2, clientId := 2 },
       .submit { side := .buy, priceTicks := 3, qty := 8, clientId := 3 }] (fresh smallEnv) = some b ∧
    b.executedQty 3 = 7 ∧ FillsReported b := by
  have hrun : (Book.runIf smallEnv 20 (fun _ op _ => op.entry)
      [.submit { side := .sell, priceTicks := 3, qty := 5, clientId := 1 },
       .submit { side := .sell, priceTicks := 3, qty := 2, clientId := 2 },
       .submit { side := .buy, priceTicks := 3, qty := 8, clientId := 3 }] (fresh smallEnv)).any
      (fun b => b.executedQty 3 = 7 && b.log.all Report.whole) = true := by decide +kernel
  obtain ⟨b, hb, hr, h⟩ := Reach.ofRun hrun fun _ _ _ h => h
  simp only [Bool.and_eq_true, decide_eq_true_eq, List.all_eq_true] at h
  exact ⟨b, hb, h.1, (fills_reported_iff hr).mpr h.2⟩

/-- Of a SELL order of 5, 2 are executed: no event says so to the maker. -/
theorem partial_fill_untold : ∃ b, Book.runIf smallEnv 20 (fun _ op _ => op.entry)
      [.submit { side := .sell, priceTicks := 3, qty := 5, clientId := 1 },
       .submit { side := .buy, priceTicks := 3, qty := 2, clientId := 2 }] (fresh smallEnv) = some b ∧
    b.executedQty 1 = 2 ∧ (b.dropCopy 1).filter (·.type = .fill) = [] ∧ ¬ FillsReported b := by
  have hrun : (Book.runIf smallEnv 20 (fun _ op _ => op.entry)
      [.submit { side := .sell, priceTicks := 3, qty := 5, clientId := 1 },
       .submit { side := .buy, priceTicks := 3, qty := 2, clientId := 2 }] (fresh smallEnv)).any
      (fun b => b.executedQty 1 = 2 && (b.dropCopy 1).filter (·.type = .fill) = [] &&
        qtyWhere (·.orderId = 1) (b.fillEvents.map BookEvent.leg) = 0) = true := by decide +kernel
  obtain ⟨b, hb, h⟩ := (Option.any_eq_true _ _).mp hrun
  simp only [Bool.and_eq_true, decide_eq_true_eq] at h
  obtain ⟨⟨h1, h2⟩, h3⟩ := h
  refine ⟨b, hb, h1, h2, fun hr => ?_⟩
  have := hr.order 1
  omega

end HftLab.OrderBook
