/-
  HftLab.OrderBook.Stops — the waiting stops in the course of a call.

  Most acts leave the waiting stops alone: one of them cancels a stop and reports it, one lets a plain stop in. `StopsSpared` says
  this of a sequence of acts. The others are the writes to a stop: its trail and trigger, the decrease in place, its release by
  `check_stop_triggers`, and `clear`.
-/

import HftLab.OrderBook.Deferred

namespace HftLab.OrderBook

open Lib Function List

/-- The acts that write to no waiting stop and trigger none. -/
def sparesStops : Kind → Prop
  | .touch | .reduceStop | .release | .clear => False
  | _ => True

/-- The waiting stops, in the order of `stop_orders_`. -/
def Core.waitingStops (c : Core) : List Order := c.stopOrders.map c.body

/-- The stops that waited and those let in are those of `after` and those cancelled, one for one; a stop let in has no trail,
and a cancel is reported. Orders are looked at through `f`. -/
def StopTally (f : Order → Order) (before after : List Order) (l : List Report) : Prop :=
  ∃ armed cancelled, (before ++ armed).Perm (after ++ cancelled) ∧ (∀ o ∈ armed, o.pegOffsetTicks = 0) ∧
    ∀ o ∈ cancelled, ∃ x, .cancel x ∈ l ∧ f x = o

/-- A stop that waited still does and is the same, or its cancel is reported; a stop that waits now did so before, or has no
trail. Nothing is reported as triggered. -/
structure StopsSpared (V : Env) (b b' : Book) (l : List Report) : Prop where
  log : b'.log = l ++ b.log
  quiet : ∀ o, .trigger o ∉ l
  kept : ∀ i ∈ b.core.stopOrders, i ∈ b'.core.stopOrders ∧ b'.core.body i = b.core.body i ∨
    ∃ o, .cancel o ∈ l ∧ o.strip = b.core.body i
  new : ∀ i ∈ b'.core.stopOrders, i ∈ b.core.stopOrders ∧ b'.core.body i = b.core.body i ∨
    (b'.core.body i).pegOffsetTicks = 0
  tally : StopTally Order.strip b.core.waitingStops b'.core.waitingStops l

/-- Besides, no stop is let in. -/
structure StopsHeld (V : Env) (b b' : Book) (l : List Report) : Prop extends StopsSpared V b b' l where
  old : ∀ i ∈ b'.core.stopOrders, i ∈ b.core.stopOrders ∧ b'.core.body i = b.core.body i

section

variable {V : Env} {b b' b'' : Book} {K : Kind → Prop} {k : Kind} {i : Nat} {l l' : List Report}

theorem StopTally.refl (f : Order → Order) (s : List Order) (l : List Report) : StopTally f s s l :=
  ⟨[], [], List.Perm.refl _, fun _ h => absurd h not_mem_nil, fun _ h => absurd h not_mem_nil⟩

theorem StopTally.trans {f : Order → Order} {s s' s'' : List Order} (h : StopTally f s s' l) (h' : StopTally f s' s'' l') :
    StopTally f s s'' (l' ++ l) := by
  obtain ⟨a, c, hp, ha, hc⟩ := h
  obtain ⟨a', c', hp', ha', hc'⟩ := h'
  refine ⟨a ++ a', c' ++ c, ?_, fun o ho => ?_, fun o ho => ?_⟩
  · calc s ++ (a ++ a')
      _ = s ++ a ++ a' := (append_assoc ..).symm
      List.Perm _ (s' ++ c ++ a') := hp.append_right a'
      List.Perm _ (s' ++ a' ++ c) := by
        rw [append_assoc, append_assoc]
        exact perm_append_comm.append_left s'
      List.Perm _ (s'' ++ c' ++ c) := hp'.append_right c
      _ = s'' ++ (c' ++ c) := append_assoc ..
  · rcases mem_append.mp ho with ho | ho
    · exact ha o ho
    · exact ha' o ho
  · rcases mem_append.mp ho with ho | ho
    · obtain ⟨x, hx, hs⟩ := hc' o ho
      exact ⟨x, mem_append_left _ hx, hs⟩
    · obtain ⟨x, hx, hs⟩ := hc o ho
      exact ⟨x, mem_append_right _ hx, hs⟩

theorem StopsSpared.refl (b : Book) : StopsSpared V b b [] :=
  ⟨rfl, fun _ => not_mem_nil, fun _ hi => .inl ⟨hi, rfl⟩, fun _ hi => .inl ⟨hi, rfl⟩, .refl ..⟩

theorem StopsSpared.trans (h : StopsSpared V b b' l) (h' : StopsSpared V b' b'' l') : StopsSpared V b b'' (l' ++ l) := by
  refine ⟨?_, fun o ho => ?_, fun i hi => ?_, fun i hi => ?_, h.tally.trans h'.tally⟩
  · rw [h'.log, h.log, append_assoc]
  · rcases mem_append.mp ho with ho | ho
    · exact h'.quiet o ho
    · exact h.quiet o ho
  · rcases h.kept i hi with ⟨hi', hb⟩ | ⟨o, ho, hs⟩
    · rcases h'.kept i hi' with ⟨hi'', hb'⟩ | ⟨o, ho, hs⟩
      · exact .inl ⟨hi'', hb'.trans hb⟩
      · exact .inr ⟨o, mem_append_left _ ho, hs.trans hb⟩
    · exact .inr ⟨o, mem_append_right _ ho, hs⟩
  · rcases h'.new i hi with ⟨hi', hb'⟩ | h0
    · rcases h.new i hi' with ⟨hi, hb⟩ | h0
      · exact .inl ⟨hi, hb'.trans hb⟩
      · exact .inr (by rw [hb']; exact h0)
    · exact .inr h0

theorem StopsHeld.trans (h : StopsHeld V b b' l) (h' : StopsHeld V b' b'' l') : StopsHeld V b b'' (l' ++ l) := by
  refine ⟨h.toStopsSpared.trans h'.toStopsSpared, fun i hi => ?_⟩
  obtain ⟨hi', hb'⟩ := h'.old i hi
  obtain ⟨hi, hb⟩ := h.old i hi'
  exact ⟨hi, hb'.trans hb⟩

/-- A step that leaves the stops and their orders alone. -/
theorem StopsHeld.same (hl : b'.log = l ++ b.log) (hq : ∀ o, .trigger o ∉ l) (hs : b'.core.stopOrders = b.core.stopOrders)
    (hb : ∀ i ∈ b.core.stopOrders, b'.core.body i = b.core.body i) : StopsHeld V b b' l := by
  have hst : b'.core.waitingStops = b.core.waitingStops := by
    unfold Core.waitingStops
    rw [hs]
    exact map_congr_left hb
  have hold : ∀ i ∈ b'.core.stopOrders, i ∈ b.core.stopOrders ∧ b'.core.body i = b.core.body i := fun i hi =>
    ⟨hs ▸ hi, hb i (hs ▸ hi)⟩
  refine ⟨⟨hl, hq, fun i hi => .inl ⟨hs ▸ hi, hb i hi⟩, fun i hi => .inl (hold i hi), ?_⟩, hold⟩
  rw [hst]
  exact .refl ..

theorem stops_of_view {v : View} (h : b'.view V = v) : b'.core.stopOrders = v.stops := congrArg View.stops h

theorem Wf.stop_ne_queued (hw : Wf V b) {p : Int} {j : Nat} (hi : i ∈ b.core.stopOrders) (hj : j ∈ b.core.queue V p) : i ≠ j := by
  rintro rfl
  exact hw.links.apart p i hj (mem_append_left _ (mem_append_right _ hi))

theorem Wf.stops_nodup (hw : Wf V b) : b.core.stopOrders.Nodup :=
  (nodup_append.mp (nodup_append.mp hw.links.nodup).1).2.1

theorem Allocated.stop_ne {c : Core} {o : Order} {j : Nat} (h : Allocated V b.inFlight j o b.core c) (hw : Wf V b)
    (hi : i ∈ b.core.stopOrders) : i ≠ j := by
  obtain ⟨G, hF, -⟩ := h.layout
  have hl : Layout V b.core (j :: G) (b.core.queue V) b.inFlight := hF ▸ hw.links
  rintro rfl
  exact hl.apart_of_free.2.1 hi

/-- The order at rest in slot `j` is rewritten or leaves. -/
theorem StopsHeld.at_queued (hw : Wf V b) {p : Int} {j : Nat} {e : Report} {o : Order} (hj : j ∈ b.core.queue V p)
    (hl : b'.log = e :: b.log) (he : ∀ o, .trigger o ≠ e) (hs : b'.core.stopOrders = b.core.stopOrders)
    (hb : b'.core.body = update b.core.body j o) : StopsHeld V b b' [e] := by
  refine .same hl (fun o ho => he o (mem_singleton.mp ho)) hs fun i hi => ?_
  rw [hb, update_of_ne (hw.stop_ne_queued hi hj)]

/-- What the acts do to the stops that let none in. -/
theorem Act.stopsHeld (h : Act V k b b') (hk : sparesStops k) (hne : k ≠ .wait) (hw : Wf V b) : ∃ l, StopsHeld V b b' l := by
  have hflying : ∀ {j : Nat} {e : Report} {o : Order}, j ∈ b.inFlight → b'.log = e :: b.log → (∀ o, .trigger o ≠ e) →
      b'.core.stopOrders = b.core.stopOrders → b'.core.body = update b.core.body j o → ∃ l, StopsHeld V b b' l := by
    intro j e o hj hl he hs hb
    refine ⟨[e], .same hl (fun o ho => he o (mem_singleton.mp ho)) hs fun i hi => ?_⟩
    rw [hb, update_of_ne (hw.flying_ne_stop hi hj).symm]
  cases h with
  | aux hs hf _ _ => exact ⟨[], .same hf.log (fun _ => not_mem_nil) hs.stopOrders fun i _ => by rw [hs.body]⟩
  | config hs _ _ hl _ _ => exact ⟨[], .same hl (fun _ => not_mem_nil) hs.stopOrders fun i _ => by rw [hs.body]⟩
  | stpAbort taker maker =>
    exact ⟨[.stpAbort taker maker], .same rfl (fun o ho => by cases mem_singleton.mp ho) rfl fun _ _ => rfl⟩
  | stpCancel taker maker =>
    exact ⟨[.stpCancel taker maker b.core], .same rfl (fun o ho => by cases mem_singleton.mp ho) rfl fun _ _ => rfl⟩
  | accept r j _ _ ha =>
    obtain ⟨hal, -⟩ := Book.accept_eq hw.links ha
    refine ⟨[_], .same (Book.accept_rest ha).1 (fun o ho => by cases mem_singleton.mp ho)
      (stops_of_view (hw.accept_view ha)) fun i hi => ?_⟩
    rw [hal.body, update_of_ne (hal.stop_ne hw hi)]
  | peg oid j f c h =>
    obtain ⟨x, y, hc⟩ := h.core
    have hv := hw.peg_view h.alloc h.grid hc h.inFlight
    refine ⟨[], .same h.frozen.log (fun _ => not_mem_nil) (stops_of_view hv) fun i hi => ?_⟩
    rw [body_of_view hv]
    exact update_of_ne ((hw.links.allocAs h.alloc).stop_ne hw hi) _ _
  | exec p t ts j qty hm =>
    have hv := hw.executed_view hm.queued hm.flying ts (min qty (b.core.body j).displayedQty)
    obtain ⟨o, q, -, -, hb⟩ := hw.executed_cases hm.queued hm.flying ts (min qty (b.core.body j).displayedQty)
    have hs : (b.executed V p t ts j (min qty (b.core.body j).displayedQty)).core.stopOrders = b.core.stopOrders := by
      cases hv with
      | refresh shown _ _ _ _ hv => exact stops_of_view hv
      | complete _ hv => exact stops_of_view hv
      | partial_ _ _ hv => exact stops_of_view hv
    refine ⟨[_], .same Book.executed_log (fun o ho => by cases mem_singleton.mp ho) hs fun i hi => ?_⟩
    rw [hb, update_of_ne (hw.stop_ne_queued hi hm.queued), update_of_ne (hw.flying_ne_stop hi hm.flying).symm]
  | cancel p j hj =>
    have hv := hw.cancelInternal_view hj true
    exact ⟨_, .at_queued hw hj (Book.cancelInternal_rest true (hw.resting hj).active).1 (by rintro o ⟨⟩) (stops_of_view hv)
      (body_of_view hv)⟩
  | replace p j hj =>
    have hv := hw.cancelInternal_view hj false
    exact ⟨_, .at_queued hw hj (Book.cancelInternal_rest false (hw.resting hj).active).1 (by rintro o ⟨⟩) (stops_of_view hv)
      (body_of_view hv)⟩
  | unwait j hj =>
    obtain ⟨m, hm, hv⟩ := hw.cancelPendingStop_view hj
    have hperm := swapErase_perm hm
    have hlog : (b.cancelPendingStop j).2.log = .cancel (b.order j) :: b.log := by
      unfold Book.cancelPendingStop
      split
      · rename_i hn
        exact absurd hj (by simpa using hn)
      · rfl
    have hold : ∀ i, i ≠ j → (b.cancelPendingStop j).2.core.body i = b.core.body i := by
      intro i hne
      rw [body_of_view hv]
      exact update_of_ne hne _ _
    have hgone : j ∉ (b.cancelPendingStop j).2.core.stopOrders := by
      rw [stops_of_view hv]
      exact (nodup_cons.mp (hperm.nodup_iff.mp hw.stops_nodup)).1
    have hleft : ∀ i ∈ (b.cancelPendingStop j).2.core.stopOrders,
        i ∈ b.core.stopOrders ∧ (b.cancelPendingStop j).2.core.body i = b.core.body i := by
      intro i hi
      have hne : i ≠ j := fun e => hgone (e ▸ hi)
      rw [stops_of_view hv] at hi
      exact ⟨hperm.mem_iff.mpr (mem_cons_of_mem _ hi), hold i hne⟩
    refine ⟨[_], ⟨hlog, (fun o ho => by cases mem_singleton.mp ho), fun i hi => ?_, fun i hi => .inl (hleft i hi), [],
      [b.core.body j], ?_, fun _ ho => absurd ho not_mem_nil,
      fun o ho => ⟨_, mem_singleton.mpr rfl, (mem_singleton.mp ho).symm⟩⟩, hleft⟩
    · by_cases e : i = j
      · exact .inr ⟨_, mem_singleton.mpr rfl, e ▸ rfl⟩
      · refine .inl ⟨?_, hold i e⟩
        rw [stops_of_view hv]
        exact (mem_cons.mp (hperm.mem_iff.mp hi)).resolve_left e
    · have hkept : (b.cancelPendingStop j).2.core.waitingStops = (swapErase b.core.stopOrders m).map b.core.body := by
        have hstops : (b.cancelPendingStop j).2.core.stopOrders = swapErase b.core.stopOrders m := stops_of_view hv
        rw [← hstops]
        exact map_congr_left fun i hi => hold i fun e => hgone (e ▸ hi)
      rw [hkept, append_nil]
      exact (hperm.map b.core.body).trans (perm_append_singleton _ _).symm
  | finishFilled j hj _ =>
    have hv : (b.finishFilled j).view V = { (b.view V).setBody j { b.core.body j with status := .filled } with
        flight := b.inFlight.erase j } := hw.drop_view hj rfl rfl
    exact hflying hj rfl (by rintro o ⟨⟩) (stops_of_view hv) (body_of_view hv)
  | finishIoc j hj _ =>
    have hv : (b.finishIoc j).view V = { (b.view V).setBody j { b.core.body j with status := .cancelled } with
        flight := b.inFlight.erase j } := hw.drop_view hj rfl rfl
    exact hflying hj rfl (by rintro o ⟨⟩) (stops_of_view hv) (body_of_view hv)
  | rest j hj hlt hr =>
    have hv := hw.restOrder_view hj hr
    exact hflying hj Book.restOrder_log (by rintro o ⟨⟩) (stops_of_view hv) (body_of_view hv)
  | reduce p id j q hj hf _ hq =>
    have hv := hw.reduceInPlace_view (i := j) id q
    exact ⟨_, .at_queued hw hj rfl (by rintro o ⟨⟩) (stops_of_view hv) (body_of_view hv)⟩
  | reprice p j q x y hj hr =>
    have hv : ({ b with core := { b.core.reprice V j q with bestBid := x, bestAsk := y } } : Book).view V =
        (b.view V).reprice p q j := hw.reprice_view hj hr rfl rfl
    refine ⟨[], .same rfl (fun _ => not_mem_nil) (stops_of_view hv) fun i hi => ?_⟩
    rw [body_of_view hv]
    exact update_of_ne (hw.stop_ne_queued hi hj) _ _
  | expire p j hj =>
    have hv := hw.expireOrder_view hj
    exact ⟨_, .at_queued hw hj rfl (by rintro o ⟨⟩) (stops_of_view hv) (body_of_view hv)⟩
  | auction p clearing j take ts hj _ _ =>
    have hs : (b.auctionTake p clearing j take ts).core.stopOrders = b.core.stopOrders ∧
        ∃ o, (b.auctionTake p clearing j take ts).core.body = update b.core.body j o := by
      cases hw.auctionTake_view hj clearing take ts with
      | complete _ hv =>
        refine ⟨stops_of_view hv, { (b.core.body j).auctioned take with status := .filled }, (body_of_view hv).trans ?_⟩
        simp [View.leave, View.setBody, Book.view]
      | partial_ _ hv => exact ⟨stops_of_view hv, _, body_of_view hv⟩
    obtain ⟨hs, o, hb⟩ := hs
    exact ⟨_, .at_queued hw hj (Book.auctionTake_log ..) (by rintro o ⟨⟩) hs hb⟩
  | oco => exact ⟨[], .same rfl (fun _ => not_mem_nil) rfl fun _ _ => rfl⟩
  | bracket => exact ⟨[], .same rfl (fun _ => not_mem_nil) rfl fun _ _ => rfl⟩
  | wait => exact absurd rfl hne
  | touch | reduceStop | release | clear => cases hk

/-- A plain stop is let in. -/
theorem Waits.stopsSpared {oid j : Nat} {f : Order → Order} {c : Core} (h : Waits oid j f c b b') (hw : Wf V b) :
    StopsSpared V b b' [] := by
  have hal := hw.links.allocAs h.alloc
  have hv := hw.wait_view h.alloc h.core h.inFlight
  have hold : ∀ i ∈ b.core.stopOrders, b'.core.body i = b.core.body i := by
    intro i hi
    rw [body_of_view hv]
    exact update_of_ne (hal.stop_ne hw hi) _ _
  have hnew : b'.core.body j = (f { id := b.core.newId oid }).strip := by
    rw [body_of_view hv]
    exact update_self ..
  refine ⟨h.frozen.log, fun _ => not_mem_nil, fun i hi => .inl ⟨?_, hold i hi⟩, fun i hi => ?_, [b'.core.body j], [], ?_,
    fun o ho => ?_, fun _ ho => absurd ho not_mem_nil⟩
  · rw [stops_of_view hv]
    exact mem_append_left _ hi
  · rw [stops_of_view hv] at hi
    rcases mem_append.mp hi with hi | hi
    · exact .inl ⟨hi, hold i hi⟩
    · rw [mem_singleton.mp hi, hnew]
      exact .inr h.plain
  · unfold Core.waitingStops
    rw [stops_of_view hv, append_nil]
    refine List.Perm.of_eq ?_
    show _ = (b.core.stopOrders ++ [j]).map b'.core.body
    rw [map_append, map_congr_left hold, map_singleton]
  · rw [mem_singleton.mp ho, hnew]
    exact h.plain

/-- What each of these acts does to the stops. -/
theorem Act.stopsSpared (h : Act V k b b') (hk : sparesStops k) (hw : Wf V b) : ∃ l, StopsSpared V b b' l := by
  by_cases hne : k = .wait
  · subst hne
    cases h with
    | wait oid j f c hwt => exact ⟨[], hwt.stopsSpared hw⟩
  · exact (h.stopsHeld hk hne hw).imp fun _ hl => hl.toStopsSpared

theorem Acts.stopsSpared (h : Acts V K b b') (hK : ∀ k, K k → sparesStops k) (hw : Wf V b) : ∃ l, StopsSpared V b b' l := by
  have hboth : Wf V b' ∧ ∃ l, StopsSpared V b b' l := by
    apply h.keeps (I := fun c => Wf V c ∧ ∃ l, StopsSpared V b c l)
    · exact ⟨hw, [], StopsSpared.refl b⟩
    · intro k c c' hk ha hc
      obtain ⟨hwc, l, hl⟩ := hc
      obtain ⟨l', hl'⟩ := ha.stopsSpared (hK k hk) hwc
      exact ⟨ha.wf hwc, l' ++ l, hl.trans hl'⟩
  exact hboth.2

theorem Acts.stopsHeld (h : Acts V K b b') (hK : ∀ k, K k → sparesStops k ∧ k ≠ .wait) (hw : Wf V b) : ∃ l, StopsHeld V b b' l := by
  have hboth : Wf V b' ∧ ∃ l, StopsHeld V b b' l := by
    apply h.keeps (I := fun c => Wf V c ∧ ∃ l, StopsHeld V b c l)
    · exact ⟨hw, [], .same rfl (fun _ => not_mem_nil) rfl fun _ _ => rfl⟩
    · intro k c c' hk ha hc
      obtain ⟨hwc, l, hl⟩ := hc
      obtain ⟨l', hl'⟩ := ha.stopsHeld (hK k hk).1 (hK k hk).2 hwc
      exact ⟨ha.wf hwc, l' ++ l, hl.trans hl'⟩
  exact hboth.2

end

end HftLab.OrderBook
