/-
  HftLab.OrderBook.StopCascade — one pass of `check_stop_triggers`.

  The loop visits `stop_orders_` from the front, and a triggered stop is resubmitted from inside the loop. The index never goes
  back: when the trades of a resubmission move the last trade price across the trigger of a plain stop that the index has passed,
  that stop is left waiting. Whether a cascade closes is decided by the last resubmission, and the book before it tells where
  the price may stand then (`Book.leavesQuiet`).
-/

import HftLab.OrderBook.LastTrade

namespace HftLab.OrderBook

open Lib Function List

/-! ## The visits -/

/-- A visit of the loop: the stop as the loop finds it at position `pos`, the reference it is compared with, what it is
resubmitted as when it triggers, and the book before that. -/
structure StopVisit where
  pos : Nat
  slot : Nat
  order : Order
  ref : Int
  request : Option Request
  before : Book

namespace Book

variable (V : Env) (b : Book)

/-- `stopLoop` with its visits written down. -/
def stopVisits (sub : Submitter) : Nat → Nat → Book → Option (List StopVisit × Book)
  | 0, _, _ => none
  | n + 1, k, b =>
    match b.core.stopOrders[k]? with
    | none => some ([], b)
    | some i =>
      let o := b.order i
      let ref := b.stopReference o
      let b := b.ratchetStop V i
      if triggered (b.order i) ref then
        let c := (b.releaseStop k i).setInternal true
        match sub (stopRequest V (b.order i)) c with
        | none => none
        | some (_, d) =>
          (stopVisits sub n k (d.setInternal false)).map fun x =>
            (⟨k, i, o, ref, some (stopRequest V (b.order i)), c⟩ :: x.1, x.2)
      else (stopVisits sub n (k + 1) b).map fun x => (⟨k, i, o, ref, none, b⟩ :: x.1, x.2)

def checkStopVisits (n : Nat) : Option (List StopVisit × Book) :=
  if b.tape.lastTradeTicks < 0 ∨ b.core.stopOrders = [] then some ([], b) else stopVisits V (submit V n) n 0 b

end Book

section

variable {V : Env} {b b' : Book} {sub : Book.Submitter} {n k i : Nat} {vs : List StopVisit}
    {f : Order → Order} {s s' : List Order} {l : List Report}

theorem stopVisits_loop : (Book.stopVisits V sub n k b).map Prod.snd = Book.stopLoop V sub n k b := by
  induction n generalizing k b with
  | zero => rfl
  | succ n ih =>
    unfold Book.stopVisits Book.stopLoop
    cases hk : b.core.stopOrders[k]? with
    | none => rfl
    | some i =>
      dsimp only
      split
      · cases hs : sub (Book.stopRequest V ((b.ratchetStop V i).order i))
            (((b.ratchetStop V i).releaseStop k i).setInternal true) with
        | none => rfl
        | some x =>
          dsimp only
          rw [← ih]
          simp [Function.comp_def]
      · rw [← ih]
        simp [Function.comp_def]

theorem checkStopVisits_eq : (b.checkStopVisits V n).map Prod.snd = b.checkStopTriggers V n := by
  unfold Book.checkStopVisits Book.checkStopTriggers
  split
  · rfl
  · exact stopVisits_loop

/-- What a visit and the rest of the loop are. -/
inductive Visits (V : Env) (sub : Book.Submitter) : Nat → Book → List StopVisit → Book → Prop
  | done {k : Nat} {b : Book} : b.core.stopOrders[k]? = none → Visits V sub k b [] b
  | pass {k i : Nat} {b b' : Book} {vs : List StopVisit} : b.core.stopOrders[k]? = some i →
      Book.triggered ((b.ratchetStop V i).order i) (b.stopReference (b.order i)) = false →
      Visits V sub (k + 1) (b.ratchetStop V i) vs b' →
      Visits V sub k b (⟨k, i, b.order i, b.stopReference (b.order i), none, b.ratchetStop V i⟩ :: vs) b'
  | fire {k i id : Nat} {b c b' : Book} {why : RejectReason} {vs : List StopVisit} : b.core.stopOrders[k]? = some i →
      Book.triggered ((b.ratchetStop V i).order i) (b.stopReference (b.order i)) = true →
      sub (Book.stopRequest V ((b.ratchetStop V i).order i)) (((b.ratchetStop V i).releaseStop k i).setInternal true) =
        some ((id, why), c) →
      Visits V sub k (c.setInternal false) vs b' →
      Visits V sub k b (⟨k, i, b.order i, b.stopReference (b.order i), some (Book.stopRequest V ((b.ratchetStop V i).order i)),
        ((b.ratchetStop V i).releaseStop k i).setInternal true⟩ :: vs) b'

theorem visits_of_loop (h : Book.stopVisits V sub n k b = some (vs, b')) : Visits V sub k b vs b' := by
  induction n generalizing k b vs with
  | zero => cases h
  | succ n ih =>
    unfold Book.stopVisits at h
    cases hk : b.core.stopOrders[k]? with
    | none =>
      rw [hk] at h
      cases h
      exact .done hk
    | some i =>
      rw [hk] at h
      dsimp only at h
      split at h
      · rename_i ht
        split at h
        · cases h
        · rename_i x c hs
          obtain ⟨⟨vs', b2⟩, hrest, he⟩ := Option.map_eq_some_iff.mp h
          cases he
          exact .fire hk ht hs (ih hrest)
      · rename_i ht
        obtain ⟨⟨vs', b2⟩, hrest, he⟩ := Option.map_eq_some_iff.mp h
        cases he
        exact .pass hk (by simpa using ht) (ih hrest)

/-! ## Which plain stops are left triggered -/

theorem ratchetStop_act (hk : b.core.stopOrders[k]? = some i) : Act V .touch b (b.ratchetStop V i) :=
  .touch 0 i _ (.inl (mem_of_getElem? hk)) rfl

theorem ratchetStop_order : (b.ratchetStop V i).order i =
    { b.order i with stopTriggerTicks := Book.ratchet V (b.order i) (b.stopReference (b.order i)) } := by
  simp [Book.ratchetStop, Book.mapCore, Core.setOrder, Book.order]

theorem ratchetStop_order_ne {j : Nat} (h : j ≠ i) : (b.ratchetStop V i).order j = b.order j := by
  simp [Book.ratchetStop, Book.mapCore, Core.setOrder, Book.order, update_of_ne h]

/-- An order without its trigger, the one field that a visit writes. -/
def Order.untriggered (o : Order) : Order := { o.strip with stopTriggerTicks := 0 }

/-- The stops that were resubmitted, in turn. -/
def resubmitted (vs : List StopVisit) : List Order := vs.filterMap fun v => v.request.map fun _ => v.order.untriggered

theorem StopTally.mono {l' : List Report} (h : StopTally f s s' l) (hl : ∀ e ∈ l, e ∈ l') : StopTally f s s' l' := by
  obtain ⟨a, c, hp, ha, hc⟩ := h
  refine ⟨a, c, hp, ha, fun o ho => ?_⟩
  obtain ⟨x, hx, he⟩ := hc o ho
  exact ⟨x, hl _ hx, he⟩

theorem StopTally.perm {t t' : List Order} (h : StopTally f s s' l) (hs : t.Perm s) (ht : s'.Perm t') : StopTally f t t' l := by
  obtain ⟨a, c, hp, ha, hc⟩ := h
  exact ⟨a, c, ((hs.append_right a).trans hp).trans (ht.append_right c), ha, hc⟩

theorem StopTally.cons (h : StopTally f s s' l) (o : Order) : StopTally f (o :: s) (o :: s') l := by
  obtain ⟨a, c, hp, ha, hc⟩ := h
  exact ⟨a, c, hp.cons o, ha, hc⟩

theorem StopTally.untriggered (h : StopTally Order.strip s s' l) :
    StopTally Order.untriggered (s.map Order.untriggered) (s'.map Order.untriggered) l := by
  obtain ⟨a, c, hp, ha, hc⟩ := h
  refine ⟨a.map Order.untriggered, c.map Order.untriggered, ?_, fun o ho => ?_, fun o ho => ?_⟩
  · rw [← map_append, ← map_append]
    exact hp.map _
  · obtain ⟨x, hx, rfl⟩ := mem_map.mp ho
    exact ha x hx
  · obtain ⟨x, hx, rfl⟩ := mem_map.mp ho
    obtain ⟨y, hy, rfl⟩ := hc x hx
    exact ⟨y, hy, rfl⟩

theorem ratchetStop_untriggered (j : Nat) :
    ((b.ratchetStop V i).core.body j).untriggered = (b.core.body j).untriggered := by
  show ((b.ratchetStop V i).order j).strip.untriggered = (b.order j).strip.untriggered
  by_cases e : j = i
  · rw [e, ratchetStop_order]
    rfl
  · rw [ratchetStop_order_ne e]

theorem ratchetStop_waitingStops : (b.ratchetStop V i).core.waitingStops.map Order.untriggered =
    b.core.waitingStops.map Order.untriggered := by
  unfold Core.waitingStops
  rw [map_map, map_map]
  exact map_congr_left fun j _ => ratchetStop_untriggered j

theorem releaseStop_waitingStops (hw : Wf V b) (hk : b.core.stopOrders[k]? = some i) :
    b.core.waitingStops.Perm (b.core.body i :: (b.releaseStop k i).core.waitingStops) := by
  have hv := hw.releaseStop_view hk
  have hperm := swapErase_perm hk
  have hst : (b.releaseStop k i).core.stopOrders = swapErase b.core.stopOrders k := stops_of_view hv
  have hb : (b.releaseStop k i).core.waitingStops = (swapErase b.core.stopOrders k).map b.core.body := by
    unfold Core.waitingStops
    rw [hst]
    refine map_congr_left fun j _ => ?_
    rw [body_of_view hv]
    show update b.core.body i (b.core.body i) j = _
    rw [update_eq_self]
  rw [hb]
  exact hperm.map b.core.body

theorem submitKinds_sparesStops {N : Prop} (k : Kind) (h : submitKinds N k) : sparesStops k := by
  cases k <;> trivial

/-- The resubmission of the stop at position `k` leaves the other stops alone. -/
theorem fire_spared (hw : Wf V b) (hk : b.core.stopOrders[k]? = some i) {r : Request} {x : Nat × RejectReason} {c : Book}
    (hs : Book.submit V n r (((b.ratchetStop V i).releaseStop k i).setInternal true) = some (x, c)) :
    Wf V (b.ratchetStop V i) ∧ Wf V (c.setInternal false) ∧
      ∃ l, StopsSpared V (((b.ratchetStop V i).releaseStop k i).setInternal true) (c.setInternal false) l := by
  have hw1 := (ratchetStop_act hk).wf hw
  have hrel : Act V .release (b.ratchetStop V i) ((b.ratchetStop V i).releaseStop k i) := .release k i hk
  have hw3 : Wf V (((b.ratchetStop V i).releaseStop k i).setInternal true) :=
    (setInternal_does (K := fun _ => True) true trivial).acts.wf (hrel.wf hw1)
  have hd := submit_does n _ _ _ _ hw3 (.inl trivial) hs
  obtain ⟨l, hsp⟩ := hd.acts.stopsSpared submitKinds_sparesStops hw3
  have hend : StopsHeld V c (c.setInternal false) [] := .same rfl (fun _ => not_mem_nil) rfl fun _ _ => rfl
  exact ⟨hw1, (setInternal_does (K := fun _ => True) false trivial).acts.wf (hd.acts.wf hw3), _, hsp.trans hend.toStopsSpared⟩

/-- Every stop that waited, and every one a bracket arms meanwhile, waits at the end, or is resubmitted, or its cancel is
reported: each of them once. -/
theorem Visits.accounted (h : Visits V (Book.submit V n) k b vs b') (hw : Wf V b) :
    ∃ l, b'.log = l ++ b.log ∧ StopTally Order.untriggered (b.core.waitingStops.map Order.untriggered)
      (resubmitted vs ++ b'.core.waitingStops.map Order.untriggered) l := by
  induction h with
  | done hk => exact ⟨[], rfl, .refl ..⟩
  | @pass k i b b' vs hk ht _ ih =>
    obtain ⟨l, hl, htally⟩ := ih ((ratchetStop_act hk).wf hw)
    rw [ratchetStop_waitingStops] at htally
    exact ⟨l, hl, htally⟩
  | @fire k i id b c b' why vs hk ht hs _ ih =>
    obtain ⟨hw1, hw4, l2, hsp⟩ := fire_spared hw hk hs
    obtain ⟨l, hl, htally⟩ := ih hw4
    have hout : (b.core.waitingStops.map Order.untriggered).Perm ((b.order i).untriggered ::
        ((((b.ratchetStop V i).releaseStop k i).setInternal true).core.waitingStops.map Order.untriggered)) := by
      rw [← ratchetStop_waitingStops]
      have hp := (releaseStop_waitingStops hw1 hk).map Order.untriggered
      rw [map_cons, ratchetStop_untriggered] at hp
      exact hp
    refine ⟨l ++ (l2 ++ [.trigger ((b.ratchetStop V i).order i)]), ?_, ?_⟩
    · rw [hl, hsp.log]
      simp [Book.setInternal, Book.releaseStop, Book.note, Book.mapCore, Book.ratchetStop]
    · have hinner := (hsp.tally.untriggered.trans htally).cons (b.order i).untriggered
      refine (hinner.perm hout (List.Perm.refl _)).mono fun e he => ?_
      rw [← append_assoc]
      exact mem_append_left _ he

end

end HftLab.OrderBook
