/-
  HftLab.OrderBook.TrailingStops — a trailing stop over a run.

  Between two visits of `check_stop_triggers` no call but a modify or a cancel writes to a waiting stop. A visit compares the
  order with a reference after moving the trigger behind it; the move is a 32-bit sum, and where it does not overflow the
  trigger is the extreme of the references seen so far, less the offset. `TrailRun` keeps these references beside the book.
-/

import HftLab.OrderBook.Pegs
import HftLab.OrderBook.StopCascade

namespace HftLab.OrderBook

open Lib Function List

/-! ## The trail of a reference -/

namespace Side

/-- The price `d` behind the reference. -/
def trail (s : Side) (d r : Int) : Int :=
  match s with
  | .sell => r - d
  | .buy => r + d

/-- The trigger after a visit. -/
def follow (s : Side) (d t r : Int) : Int :=
  match s with
  | .sell => max t (r - d)
  | .buy => min t (r + d)

/-- The trigger after visits with these references, the oldest first. -/
def extreme (s : Side) (d t : Int) (refs : List Int) : Int := refs.foldl (s.follow d) t

/-- A stop with trigger `t` fires at the reference `r`. -/
def fires (s : Side) (t r : Int) : Prop :=
  match s with
  | .sell => r ≤ t
  | .buy => t ≤ r

/-- The trigger `u` is not behind `t`. -/
def noLooser (s : Side) (t u : Int) : Prop :=
  match s with
  | .sell => t ≤ u
  | .buy => u ≤ t

/-- The bound that a trigger keeps whatever it follows. -/
def bounded (V : Env) (s : Side) (t : Int) : Prop :=
  match s with
  | .sell => 0 ≤ t
  | .buy => t < V.LEVELS

variable {V : Env} {s : Side} {d t r : Int}

theorem bounded_follow (h : s.bounded V t) : s.bounded V (s.follow d t r) := by
  cases s with
  | sell => exact Int.le_trans h (Int.le_max_left ..)
  | buy => exact Int.lt_of_le_of_lt (Int.min_le_left ..) h

theorem follow_noLooser : s.noLooser t (s.follow d t r) := by
  cases s with
  | sell => exact Int.le_max_left ..
  | buy => exact Int.min_le_left ..

/-- The reference that moves the trigger does not make it fire. -/
theorem fires_follow (hd : 0 < d) : s.fires (s.follow d t r) r ↔ s.fires t r := by
  cases s with
  | sell =>
    show r ≤ max t (r - d) ↔ r ≤ t
    omega
  | buy =>
    show min t (r + d) ≤ r ↔ t ≤ r
    omega

end Side

/-! ## The order in its slot -/

/-- The order `o` waits in slot `i`, with trigger `t`. -/
structure Trails (b : Book) (i : Nat) (o : Order) (t : Int) : Prop where
  waits : i ∈ b.core.stopOrders
  order : ∃ ts, b.core.body i = { o with stopTriggerTicks := t, expireTsNs := ts }

/-- No stop with a trail waits in slot `i`. -/
def Book.trailGone (b : Book) (i : Nat) : Prop := i ∈ b.core.stopOrders → (b.core.body i).pegOffsetTicks = 0

/-- A stop with a trail waits in slot `i`. -/
def Book.trailsAt (b : Book) (i : Nat) : Bool :=
  decide (i ∈ b.core.stopOrders) && decide (0 < (b.order i).pegOffsetTicks)

/-- The call is a cancel or a modify of the order in slot `i`. -/
def Book.concerns (b : Book) (i : Nat) : Op → Bool
  | .cancel id | .modify id _ _ => b.core.find id = some i
  | _ => false

/-- The visits to the trailing stop of slot `i`. -/
def visitsTo (i : Nat) (vs : List StopVisit) : List StopVisit :=
  vs.filter fun v => v.slot = i && decide (0 < v.order.pegOffsetTicks)

/-- The visits find the trigger where the references before put it, and the first at which the stop fires by it releases it. -/
def Followed (s : Side) (d : Int) : Int → List StopVisit → Prop
  | _, [] => True
  | t, v :: vs => v.order.stopTriggerTicks = t ∧ (v.request.isSome = true ↔ s.fires t v.ref) ∧
      Followed s d (s.follow d t v.ref) vs

section

variable {V : Env} {b b' : Book} {i j k n oid cid id : Nat} {o : Order} {t d r limit qty : Int} {s : Side} {l : List Report}
    {vs : List StopVisit} {why : RejectReason} {refs : List Int}

theorem Book.trailGone.not_trailsAt (h : b.trailGone i) : b.trailsAt i = false := by
  unfold Book.trailsAt
  by_cases hi : i ∈ b.core.stopOrders
  · have h0 : (b.order i).pegOffsetTicks = 0 := h hi
    simp [h0]
  · simp [hi]

theorem Book.trailGone.spared (h : b.trailGone i) (hsp : StopsSpared V b b' l) : b'.trailGone i := by
  intro hi
  rcases hsp.new i hi with ⟨hi', hb⟩ | h0
  · rw [hb]
    exact h hi'
  · exact h0

theorem Trails.side (h : Trails b i o t) : (b.order i).side = o.side := by
  obtain ⟨ts, hbody⟩ := h.order
  show (b.core.body i).side = o.side
  rw [hbody]

theorem Trails.offset (h : Trails b i o t) : (b.order i).pegOffsetTicks = o.pegOffsetTicks := by
  obtain ⟨ts, hbody⟩ := h.order
  show (b.core.body i).pegOffsetTicks = o.pegOffsetTicks
  rw [hbody]

theorem Trails.trigger (h : Trails b i o t) : (b.order i).stopTriggerTicks = t := by
  obtain ⟨ts, hbody⟩ := h.order
  exact congrArg Order.stopTriggerTicks hbody

theorem Trails.spared (h : Trails b i o t) (hsp : StopsSpared V b b' l) : Trails b' i o t ∨ b'.trailGone i := by
  by_cases hi : i ∈ b'.core.stopOrders
  · rcases hsp.new i hi with ⟨-, hb⟩ | h0
    · exact .inl ⟨hi, hb ▸ h.order⟩
    · exact .inr fun _ => h0
  · exact .inr fun hi' => absurd hi' hi

theorem Trails.same (h : Trails b i o t) (hs : b'.core.stopOrders = b.core.stopOrders) (hb : b'.core.body i = b.core.body i) :
    Trails b' i o t := ⟨hs ▸ h.waits, hb ▸ h.order⟩

/-! ## One visit -/

theorem ratchet_eq (hd : 0 < d) (hp : o.pegOffsetTicks = d) (hb : o.side.bounded V o.stopTriggerTicks)
    (hfit : IsInt32 (o.side.trail d r)) : Book.ratchet V o r = o.side.follow d o.stopTriggerTicks r := by
  have hi := i32_eq hfit
  unfold Book.ratchet
  rw [if_pos (hp ▸ hd), hp]
  cases hs : o.side with
  | sell =>
    rw [hs] at hb hi
    have hb : 0 ≤ o.stopTriggerTicks := hb
    have hi : i32 (r - d) = r - d := hi
    dsimp only
    rw [hi]
    show _ = max o.stopTriggerTicks (r - d)
    split <;> omega
  | buy =>
    rw [hs] at hb hi
    have hb : o.stopTriggerTicks < V.LEVELS := hb
    have hi : i32 (r + d) = r + d := hi
    dsimp only
    rw [hi]
    show _ = min o.stopTriggerTicks (r + d)
    split <;> omega

theorem triggered_iff : Book.triggered o r ↔ o.side.fires o.stopTriggerTicks r := by
  unfold Book.triggered
  cases o.side with
  | sell => exact decide_eq_true_iff
  | buy => exact decide_eq_true_iff

theorem ratchetStop_body : (b.ratchetStop V i).core.body i =
    { b.core.body i with stopTriggerTicks := Book.ratchet V (b.order i) (b.stopReference (b.order i)) } := by
  show ((b.ratchetStop V i).order i).strip = _
  rw [ratchetStop_order]
  rfl

theorem ratchetStop_body_ne (h : j ≠ i) : (b.ratchetStop V i).core.body j = b.core.body j := by
  show ((b.ratchetStop V i).order j).strip = _
  rw [ratchetStop_order_ne h]
  rfl

/-- A trailing stop after the visit of it. -/
theorem Trails.ratcheted (h : Trails b i o t) (hs : o.side = s) (hp : o.pegOffsetTicks = d) (hd : 0 < d) (hb : s.bounded V t)
    (hfit : IsInt32 (s.trail d (b.stopReference (b.order i)))) :
    Trails (b.ratchetStop V i) i o (s.follow d t (b.stopReference (b.order i))) ∧
      (Book.triggered ((b.ratchetStop V i).order i) (b.stopReference (b.order i)) = true ↔
        s.fires t (b.stopReference (b.order i))) := by
  have hside : (b.order i).side = s := h.side.trans hs
  have hpeg : (b.order i).pegOffsetTicks = d := h.offset.trans hp
  have htr := h.trigger
  have hr : Book.ratchet V (b.order i) (b.stopReference (b.order i)) = s.follow d t (b.stopReference (b.order i)) := by
    rw [← hside] at hb hfit ⊢
    rw [← htr] at hb ⊢
    exact ratchet_eq hd hpeg hb hfit
  obtain ⟨ts, hbody⟩ := h.order
  refine ⟨⟨h.waits, ts, ?_⟩, ?_⟩
  · rw [ratchetStop_body, hr, hbody]
  · rw [triggered_iff, ratchetStop_order, hr]
    rw [hside]
    exact Side.fires_follow hd

theorem releaseStop_body (hw : Wf V b) (hk : b.core.stopOrders[k]? = some i) : (b.releaseStop k i).core.body = b.core.body := by
  rw [body_of_view (hw.releaseStop_view hk)]
  exact update_eq_self ..

theorem releaseStop_stops (hw : Wf V b) (hk : b.core.stopOrders[k]? = some i) :
    i ∉ (b.releaseStop k i).core.stopOrders ∧
      ∀ j, j ∈ (b.releaseStop k i).core.stopOrders ↔ j ∈ b.core.stopOrders ∧ j ≠ i := by
  have hst : (b.releaseStop k i).core.stopOrders = swapErase b.core.stopOrders k := stops_of_view (hw.releaseStop_view hk)
  have hperm := swapErase_perm hk
  have hi : i ∉ swapErase b.core.stopOrders k := (nodup_cons.mp (hperm.nodup_iff.mp hw.stops_nodup)).1
  rw [hst]
  refine ⟨hi, fun j => ?_⟩
  rw [hperm.mem_iff, mem_cons]
  constructor
  · intro hj
    exact ⟨.inr hj, fun e => hi (e ▸ hj)⟩
  · rintro ⟨hj, hne⟩
    exact hj.resolve_left hne

/-! ## One pass of check_stop_triggers -/

/-- The stop has left: the rest of the pass visits no other with a trail in its slot. -/
theorem Visits.gone (h : Visits V (Book.submit V n) k b vs b') (hw : Wf V b) (hg : b.trailGone i) :
    visitsTo i vs = [] ∧ b'.trailGone i := by
  induction h with
  | done hk => exact ⟨rfl, hg⟩
  | @pass k j b b' vs hk ht _ ih =>
    have hmem := mem_of_getElem? hk
    have hg1 : (b.ratchetStop V j).trailGone i := by
      intro hi
      by_cases e : i = j
      · rw [← e, ratchetStop_body]
        exact hg hi
      · rw [ratchetStop_body_ne e]
        exact hg hi
    obtain ⟨hv, hend⟩ := ih ((ratchetStop_act hk).wf hw) hg1
    refine ⟨?_, hend⟩
    unfold visitsTo at hv ⊢
    rw [filter_cons_of_neg, hv]
    simp only [Bool.and_eq_true, decide_eq_true_eq, not_and]
    rintro rfl
    have h0 : (b.order j).pegOffsetTicks = 0 := hg hmem
    omega
  | @fire k j id b c b' why vs hk ht hs _ ih =>
    have hmem := mem_of_getElem? hk
    obtain ⟨hw1, hw4, l, hsp⟩ := fire_spared hw hk hs
    have hg2 : (((b.ratchetStop V j).releaseStop k j).setInternal true).trailGone i := by
      intro hi
      obtain ⟨hi, hne⟩ := ((releaseStop_stops hw1 hk).2 i).mp hi
      show (((b.ratchetStop V j).releaseStop k j).core.body i).pegOffsetTicks = 0
      rw [releaseStop_body hw1 hk, ratchetStop_body_ne hne]
      exact hg hi
    obtain ⟨hv, hend⟩ := ih hw4 (hg2.spared hsp)
    refine ⟨?_, hend⟩
    unfold visitsTo at hv ⊢
    rw [filter_cons_of_neg, hv]
    simp only [Bool.and_eq_true, decide_eq_true_eq, not_and]
    rintro rfl
    have h0 : (b.order j).pegOffsetTicks = 0 := hg hmem
    omega

/-- A visit to another stop is no visit to this one. -/
theorem visitsTo_other {v : StopVisit} (h : v.slot ≠ i) : visitsTo i (v :: vs) = visitsTo i vs := by
  unfold visitsTo
  rw [filter_cons_of_neg]
  simp [h]

theorem visitsTo_this {pos : Nat} {x : Order} {q : Option Request} {c : Book} (hp : 0 < x.pegOffsetTicks) :
    visitsTo i (⟨pos, i, x, r, q, c⟩ :: vs) = ⟨pos, i, x, r, q, c⟩ :: visitsTo i vs := by
  unfold visitsTo
  rw [filter_cons_of_pos]
  simp [hp]

/-- The visits of a pass to a trailing stop follow its references; at the end it has left, or it was not released and its trigger
is their extreme. -/
theorem Visits.followed (h : Visits V (Book.submit V n) k b vs b') (hw : Wf V b) (ht : Trails b i o t) (hs : o.side = s)
    (hp : o.pegOffsetTicks = d) (hd : 0 < d) (hb : s.bounded V t) (hfit : ∀ v ∈ visitsTo i vs, IsInt32 (s.trail d v.ref)) :
    Followed s d t (visitsTo i vs) ∧ (b'.trailGone i ∨
      Trails b' i o (s.extreme d t ((visitsTo i vs).map (·.ref))) ∧ ∀ v ∈ visitsTo i vs, v.request = none) := by
  induction h generalizing t with
  | done hk => exact ⟨trivial, .inr ⟨ht, fun v hv => absurd hv not_mem_nil⟩⟩
  | @pass k j b b' vs hk hpass _ ih =>
    have hw1 := (ratchetStop_act hk).wf hw
    by_cases e : j = i
    · subst e
      have hpeg : 0 < (b.order j).pegOffsetTicks := by
        rw [ht.offset, hp]
        exact hd
      rw [visitsTo_this hpeg] at hfit ⊢
      obtain ⟨ht1, hiff⟩ := ht.ratcheted hs hp hd hb (hfit _ mem_cons_self)
      rw [hpass] at hiff
      obtain ⟨hf, hend⟩ := ih hw1 ht1 (Side.bounded_follow hb) fun v hv => hfit v (mem_cons_of_mem _ hv)
      refine ⟨⟨ht.trigger, ?_, hf⟩, hend.imp id fun h => ⟨h.1, ?_⟩⟩
      · simpa using hiff
      · intro v hv
        rcases mem_cons.mp hv with rfl | hv
        · rfl
        · exact h.2 v hv
    · rw [visitsTo_other e] at hfit ⊢
      exact ih hw1 (ht.same rfl (ratchetStop_body_ne (Ne.symm e))) hb hfit
  | @fire k j id b c b' why vs hk hfire hsub hrest ih =>
    obtain ⟨hw1, hw4, l, hsp⟩ := fire_spared hw hk hsub
    by_cases e : j = i
    · subst e
      have hpeg : 0 < (b.order j).pegOffsetTicks := by
        rw [ht.offset, hp]
        exact hd
      have hg : (((b.ratchetStop V j).releaseStop k j).setInternal true).trailGone j :=
        fun hj => absurd hj (releaseStop_stops hw1 hk).1
      obtain ⟨hnone, hend⟩ := hrest.gone hw4 (hg.spared hsp)
      rw [visitsTo_this hpeg, hnone] at hfit ⊢
      obtain ⟨-, hiff⟩ := ht.ratcheted hs hp hd hb (hfit _ mem_cons_self)
      rw [hfire] at hiff
      refine ⟨⟨ht.trigger, ?_, trivial⟩, .inl hend⟩
      simpa using hiff
    · have ht2 : Trails (((b.ratchetStop V j).releaseStop k j).setInternal true) i o t := by
        refine ⟨((releaseStop_stops hw1 hk).2 i).mpr ⟨ht.waits, Ne.symm e⟩, ?_⟩
        show ∃ ts, ((b.ratchetStop V j).releaseStop k j).core.body i = _
        rw [releaseStop_body hw1 hk, ratchetStop_body_ne (Ne.symm e)]
        exact ht.order
      rw [visitsTo_other e] at hfit ⊢
      rcases ht2.spared hsp with ht4 | hg
      · exact ih hw4 ht4 hb hfit
      · obtain ⟨hnone, hend⟩ := hrest.gone hw4 hg
        rw [hnone]
        exact ⟨trivial, .inl hend⟩

/-! ## The other calls -/

/-- A stop enters slot `i`. -/
structure StopEntered (b b' : Book) (i : Nat) : Prop where
  free : b.core.freeHead = some i
  fresh : i ∉ b.core.stopOrders
  stops : b'.core.stopOrders = b.core.stopOrders ++ [i]
  others : ∀ j, j ≠ i → b'.core.body j = b.core.body j

theorem StopEntered.waits (h : StopEntered b b' i) : i ∈ b'.core.stopOrders := by
  rw [h.stops]
  exact mem_append_right _ (mem_singleton.mpr rfl)

theorem Trails.entered (h : Trails b i o t) (he : StopEntered b b' j) : Trails b' i o t := by
  refine ⟨?_, ?_⟩
  · rw [he.stops]
    exact mem_append_left _ h.waits
  · rw [he.others i fun e => he.fresh (e ▸ h.waits)]
    exact h.order

theorem submitStop_entered (hw : Wf V b) {trigger : Int} (h : b.submitStop V s trigger limit qty oid cid = ((id, why), b'))
    (hid : id ≠ 0) :
    ∃ i, StopEntered b b' i ∧ b'.core.find id = some i ∧ (b'.core.body i).side = s ∧
      (b'.core.body i).stopTriggerTicks = trigger := by
  unfold Book.submitStop at h
  split at h
  · cases h
    exact absurd rfl hid
  · split at h
    · cases h
      exact absurd rfl hid
    · split at h
      · cases h
        exact absurd rfl hid
      · dsimp only at h
        split at h
        · cases h
          exact absurd rfl hid
        · rename_i x i c ha
          have ha : b.core.allocAs oid (fun o => { o with
              clientId := cid, priceTicks := limit, totalQty := qty, displayedQty := qty, side := s, type := .stop,
              status := .new, submitTsNs := (b.monoNsNow V).1, stopTriggerTicks := trigger }) = some (i, c) := ha
          have hal := hw.links.allocAs ha
          cases h
          refine ⟨i, ⟨allocAs_freeHead ha, fun hi => hal.stop_ne hw hi rfl, ?_, fun j hj => ?_⟩, AList.lookup_insert .., ?_⟩
          · show c.stopOrders ++ [i] = _
            rw [hal.view_core.2.2.2]
          · show c.body j = _
            rw [hal.body]
            exact update_of_ne hj ..
          · show (c.body i).side = s ∧ (c.body i).stopTriggerTicks = trigger
            rw [hal.body, update_self]
            exact ⟨rfl, rfl⟩

theorem submitTrailingStop_entered (hw : Wf V b) (h : b.submitTrailingStop V s d limit qty oid cid = ((id, why), b'))
    (hid : id ≠ 0) :
    0 < d ∧ inRange V (Book.trailTrigger s b.trailReference d) ∧ ∃ i, StopEntered b b' i ∧ (b'.core.body i).side = s ∧
      (b'.core.body i).pegOffsetTicks = d ∧ (b'.core.body i).stopTriggerTicks = Book.trailTrigger s b.trailReference d := by
  unfold Book.submitTrailingStop at h
  split at h
  · cases h
    exact absurd rfl hid
  · split at h
    · cases h
      exact absurd rfl hid
    · rename_i hd
      split at h
      · cases h
        exact absurd rfl hid
      · split at h
        · cases h
          exact absurd rfl hid
        · rename_i hr
          refine ⟨by omega, not_not.mp hr, ?_⟩
          cases hsub : b.submitStop V s (Book.trailTrigger s b.trailReference d) limit qty oid cid with
          | mk x b1 =>
            rw [hsub] at h
            dsimp only at h
            split at h
            · rename_i h0
              cases h
              exact absurd h0 hid
            · rename_i h0
              cases h
              obtain ⟨i, he, hfind, hside, htr⟩ := submitStop_entered hw hsub h0
              have hset : b1.setTrail id d = b1.mapCore fun c => c.setOrder i { c.pool i with pegOffsetTicks := d } := by
                unfold Book.setTrail
                rw [hfind]
              have hbody : (b1.setTrail id d).core.body =
                  update b1.core.body i { b1.core.body i with pegOffsetTicks := d } := by
                rw [hset]
                exact Core.setOrder_body ..
              refine ⟨i, ⟨he.free, he.fresh, ?_, fun j hj => ?_⟩, ?_⟩
              · rw [hset]
                exact he.stops
              · rw [hbody, update_of_ne hj]
                exact he.others j hj
              · rw [hbody, update_self]
                exact ⟨hside, rfl, htr⟩

theorem submitTrailingStop_rejected (h : b.submitTrailingStop V s d limit qty oid cid = ((0, why), b')) :
    ∃ trigger, b' = b ∨ b.submitStop V s trigger limit qty oid cid = ((0, why), b') := by
  unfold Book.submitTrailingStop at h
  refine ⟨Book.trailTrigger s b.trailReference d, ?_⟩
  split at h
  · cases h
    exact .inl rfl
  · split at h
    · cases h
      exact .inl rfl
    · split at h
      · cases h
        exact .inl rfl
      · split at h
        · cases h
          exact .inl rfl
        · dsimp only at h
          split at h
          · exact .inr h
          · rename_i h0
            exact absurd (congrArg (fun x => x.1.1) h) h0

theorem calmKinds_sparesStops {N : Prop} (k : Kind) (h : calmKinds N k) : sparesStops k := by
  cases k <;> trivial

/-- A call other than `check_stop_triggers` that is no cancel or modify of it leaves a waiting stop as it is, or removes it. -/
theorem Trails.call (h : Trails b i o t) (hw : Wf V b) {op : Op} {r : Outcome} (hop : op ≠ .checkStopTriggers)
    (hnot : b.concerns i op = false) (hex : Book.exec V n op b = some (r, b')) : Trails b' i o t ∨ b'.trailGone i := by
  have hcalm : Does V (calmKinds True) b b' → Trails b' i o t ∨ b'.trailGone i := by
    intro hd
    obtain ⟨l, hsp⟩ := hd.acts.stopsSpared calmKinds_sparesStops hw
    exact h.spared hsp
  have hspare : Does V sparesStops b b' → Trails b' i o t ∨ b'.trailGone i := by
    intro hd
    obtain ⟨l, hsp⟩ := hd.acts.stopsSpared (fun _ hk => hk) hw
    exact h.spared hsp
  have hplain : op.plain → (∀ id ts, op ≠ .setExpiry id ts) → b.reducesStop op = false →
      Trails b' i o t ∨ b'.trailGone i := fun hp hx hst => hcalm (exec_calm hp hx hw (.inl trivial) hst hex)
  cases op with
  | checkStopTriggers => exact absurd rfl hop
  | submitStop s' t' l q oid cid =>
    cases hex
    exact hspare (submitStop_does s' t' l q oid cid trivial)
  | submitTrailingStop s' d' l q oid cid =>
    cases hsub : b.submitTrailingStop V s' d' l q oid cid with
    | mk x b1 =>
      obtain ⟨id, why⟩ := x
      simp only [Book.exec, hsub, Book.ofId, Option.some.injEq, Prod.mk.injEq] at hex
      obtain ⟨-, rfl⟩ := hex
      by_cases h0 : id = 0
      · subst h0
        obtain ⟨trigger, rfl | hst⟩ := submitTrailingStop_rejected hsub
        · exact .inl h
        · have hd := submitStop_does (V := V) (b := b) (K := sparesStops) s' trigger l q oid cid trivial
          rw [hst] at hd
          exact hspare hd
      · obtain ⟨-, -, j, he, -⟩ := submitTrailingStop_entered hw hsub h0
        exact .inl (h.entered he)
  | submitPeg s' x q oid cid cap =>
    cases hex
    exact hspare (submitPeg_does trivial s' x q oid cid cap)
  | submitPegMid s' x q oid cid cap =>
    cases hex
    exact hspare (submitPegMid_does trivial s' x q oid cid cap)
  | repricePegs =>
    cases hex
    exact hspare (repricePegs_does trivial hw)
  | submitBracket s' e q tp sl cid =>
    obtain ⟨x, hs⟩ := Book.returned hex fun _ => rfl
    exact hcalm (submitBracket_does hw hs)
  | clear =>
    cases hex
    exact .inr fun hi => absurd hi not_mem_nil
  | setExpiry id ts =>
    cases hex
    unfold Book.setExpiry
    cases hf : b.core.find id with
    | none => exact .inl h
    | some j =>
      refine .inl ⟨h.waits, ?_⟩
      have hbody : (b.mapCore fun c => c.setOrder j { c.pool j with expireTsNs := ts }).core.body =
          update b.core.body j { b.core.body j with expireTsNs := ts } := Core.setOrder_body ..
      rw [hbody]
      by_cases e : i = j
      · subst e
        rw [update_self]
        obtain ⟨ts', hb⟩ := h.order
        exact ⟨ts, by rw [hb]⟩
      · rw [update_of_ne e]
        exact h.order
  | modify id p q =>
    by_cases hst : b.reducesStop (.modify id p q) = false
    · exact hplain rfl (by simp) hst
    · cases hf : b.core.find id with
      | none => exact absurd (reducesStop_none hf) hst
      | some j =>
        have hne : j ≠ i := by
          rintro rfl
          simp [Book.concerns, hf] at hnot
        rw [reducesStop_some hf] at hst
        simp only [Bool.not_eq_false, Bool.and_eq_true, decide_eq_true_eq] at hst
        obtain ⟨⟨⟨-, hp⟩, hlt⟩, hq⟩ := hst
        obtain ⟨x, hm⟩ := Book.returned hex fun _ => rfl
        unfold Book.modify at hm
        rw [hf] at hm
        dsimp only at hm
        rw [if_pos ⟨hp, hlt, hq⟩] at hm
        split at hm
        · cases hm
          have hv := hw.reduceInPlace_view (i := j) id q
          refine .inl (h.same (stops_of_view hv) ?_)
          rw [body_of_view hv]
          exact update_of_ne hne.symm ..
        · cases hm
  | _ => exact hplain rfl (by simp) rfl

/-! ## Runs -/

/-- A run that enters a trailing stop with trigger `t` as the order `o` in slot `i`, and goes on, while it waits, with any calls
but a cancel or a modify of it. `refs`: the references it has been compared with, the oldest first. No trigger that a visit
computes leaves 32 bits. -/
inductive TrailRun (V : Env) (s : Side) (d t : Int) (i : Nat) : Order → List Int → Book → Prop
  | enter {b b' : Book} {limit qty : Int} {oid cid id : Nat} {why : RejectReason} : Book.Reach V (fun _ _ _ => True) b →
      Book.Step V b (.submitTrailingStop s d limit qty oid cid) (.id id why) b' → id ≠ 0 → b.core.freeHead = some i →
      t = Book.trailTrigger s b.trailReference d → TrailRun V s d t i (b'.core.body i) [] b'
  | call {b b' : Book} {o : Order} {refs : List Int} {op : Op} {r : Outcome} : TrailRun V s d t i o refs b →
      op ≠ .checkStopTriggers → b.concerns i op = false → Book.Step V b op r b' → b'.trailsAt i = true →
      TrailRun V s d t i o refs b'
  | check {b b' : Book} {o : Order} {refs : List Int} {n : Nat} {vs : List StopVisit} : TrailRun V s d t i o refs b →
      b.checkStopVisits V n = some (vs, b') → (∀ v ∈ visitsTo i vs, IsInt32 (s.trail d v.ref)) → b'.trailsAt i = true →
      TrailRun V s d t i o (refs ++ (visitsTo i vs).map (·.ref)) b'

theorem Side.bounded_extreme (h : s.bounded V t) : s.bounded V (s.extreme d t refs) := by
  induction refs generalizing t with
  | nil => exact h
  | cons r refs ih => exact ih (Side.bounded_follow h)

theorem Side.extreme_append (l l' : List Int) : s.extreme d t (l ++ l') = s.extreme d (s.extreme d t l) l' :=
  foldl_append ..

/-- The references of visits that did not release the stop are none at which it fires. -/
theorem Followed.quiet (h : Followed s d t vs) (hn : ∀ v ∈ vs, v.request = none) {l l' : List Int}
    (he : vs.map (·.ref) = l ++ r :: l') : ¬ s.fires (s.extreme d t l) r := by
  induction vs generalizing t l with
  | nil => simp at he
  | cons v vs ih =>
    obtain ⟨-, hiff, hrest⟩ := h
    cases l with
    | nil =>
      obtain ⟨rfl, -⟩ := List.cons.inj he
      intro hf
      have := hiff.mpr hf
      rw [hn v mem_cons_self] at this
      cases this
    | cons x l =>
      obtain ⟨rfl, hl⟩ := List.cons.inj he
      exact ih hrest (fun w hw => hn w (mem_cons_of_mem _ hw)) hl

/-- The state of such a run: the stop is where the references put it, and none of them made it fire. -/
structure TrailState (V : Env) (s : Side) (d t : Int) (i : Nat) (o : Order) (refs : List Int) (b : Book) : Prop where
  wf : Wf V b
  pos : 0 < d
  side : o.side = s
  offset : o.pegOffsetTicks = d
  start : s.bounded V t
  trails : Trails b i o (s.extreme d t refs)
  quiet : ∀ l r l', refs = l ++ r :: l' → ¬ s.fires (s.extreme d t l) r

theorem TrailState.followed (h : TrailState V s d t i o refs b) (hc : b.checkStopVisits V n = some (vs, b'))
    (hfit : ∀ v ∈ visitsTo i vs, IsInt32 (s.trail d v.ref)) :
    Followed s d (s.extreme d t refs) (visitsTo i vs) ∧ (b'.trailGone i ∨
      Trails b' i o (s.extreme d t (refs ++ (visitsTo i vs).map (·.ref))) ∧ ∀ v ∈ visitsTo i vs, v.request = none) := by
  unfold Book.checkStopVisits at hc
  split at hc
  · cases hc
    refine ⟨trivial, .inr ⟨?_, fun v hv => absurd hv not_mem_nil⟩⟩
    show Trails b i o (s.extreme d t (refs ++ []))
    rw [append_nil]
    exact h.trails
  · rw [Side.extreme_append]
    exact (visits_of_loop hc).followed h.wf h.trails h.side h.offset h.pos (Side.bounded_extreme h.start) hfit

theorem TrailRun.state (h : TrailRun V s d t i o refs b) : TrailState V s d t i o refs b := by
  induction h with
  | @enter b b' limit qty oid cid id why hr hs hid hfree ht =>
    obtain ⟨n, hex⟩ := hs
    cases hsub : b.submitTrailingStop V s d limit qty oid cid with
    | mk x b1 =>
      obtain ⟨id', why'⟩ := x
      simp only [Book.exec, hsub, Book.ofId, Option.some.injEq, Prod.mk.injEq, Outcome.id.injEq] at hex
      obtain ⟨⟨rfl, rfl⟩, rfl⟩ := hex
      have hw := (Reach.wf hr).1
      obtain ⟨hd, hin, j, he, hside, hoff, htr⟩ := submitTrailingStop_entered hw hsub hid
      cases Option.some.inj (hfree.symm.trans he.free)
      have hdoes := submitTrailingStop_does (V := V) (b := b) s d limit qty oid cid
      rw [hsub] at hdoes
      refine ⟨hdoes.acts.wf hw, hd, hside, hoff, ?_, ⟨he.waits, (b1.core.body i).expireTsNs, ?_⟩, fun l r l' hl => by simp at hl⟩
      · rw [ht]
        cases s with
        | sell => exact hin.1
        | buy => exact hin.2
      · show b1.core.body i =
          { b1.core.body i with stopTriggerTicks := t, expireTsNs := (b1.core.body i).expireTsNs }
        rw [ht, ← htr]
  | @call b b' o refs op r _ hop hnot hs hat ih =>
    obtain ⟨n, hex⟩ := hs
    refine ⟨(exec_does ih.wf hex).acts.wf ih.wf, ih.pos, ih.side, ih.offset, ih.start, ?_, ih.quiet⟩
    rcases ih.trails.call ih.wf hop hnot hex with ht | hg
    · exact ht
    · rw [hg.not_trailsAt] at hat
      cases hat
  | @check b b' o refs n vs _ hc hfit hat ih =>
    obtain ⟨hf, hend⟩ := ih.followed hc hfit
    have hstop : b.checkStopTriggers V n = some b' := by
      rw [← checkStopVisits_eq, hc]
      rfl
    rcases hend with hg | ⟨ht, hnone⟩
    · rw [hg.not_trailsAt] at hat
      cases hat
    · refine ⟨(checkStopTriggers_does ih.wf (.inl trivial) hstop).acts.wf ih.wf, ih.pos, ih.side, ih.offset,
        ih.start, ht, ?_⟩
      intro l r l' hl
      rcases append_eq_append_iff.mp hl with ⟨m, rfl, hm⟩ | ⟨m, hm, hl'⟩
      · rw [Side.extreme_append]
        exact hf.quiet hnone hm
      · cases m with
        | nil =>
          rw [append_nil] at hm
          subst hm
          exact hf.quiet hnone (l := []) hl'.symm
        | cons x m =>
          obtain ⟨rfl, rfl⟩ := List.cons.inj hl'
          exact ih.quiet l _ m hm

/-- In a run where no visit overflows, a trailing stop is the order that was entered, with the extreme of the references seen so
far, less the offset, as its trigger; the trigger never moved back, the stop fired at none of these references, and at each visit
of the next pass it fires exactly when the reference meets the extreme of those before. -/
theorem trailing_stop_follows (h : TrailRun V s d t i o refs b) :
    (b.order i).stopTriggerTicks = s.extreme d t refs ∧
      (∃ ts, b.core.body i = { o with stopTriggerTicks := s.extreme d t refs, expireTsNs := ts }) ∧
      o.side = s ∧ o.pegOffsetTicks = d ∧
      (∀ l r l', refs = l ++ r :: l' → s.noLooser (s.extreme d t l) (s.extreme d t (l ++ [r])) ∧
        ¬ s.fires (s.extreme d t l) r) ∧
      ∀ n vs b', b.checkStopVisits V n = some (vs, b') → (∀ v ∈ visitsTo i vs, IsInt32 (s.trail d v.ref)) →
        Followed s d (s.extreme d t refs) (visitsTo i vs) := by
  have hst := h.state
  refine ⟨hst.trails.trigger, hst.trails.order, hst.side, hst.offset, fun l r l' hl => ⟨?_, hst.quiet l r l' hl⟩,
    fun n vs b' hc hfit => (hst.followed hc hfit).1⟩
  rw [Side.extreme_append]
  exact Side.follow_noLooser

end

/-- The calls after the entry, between two passes. -/
def Book.trailStep (i : Nat) (b : Book) (op : Op) (b' : Book) : Bool :=
  decide (op ≠ .checkStopTriggers) && !b.concerns i op && b'.trailsAt i

theorem TrailRun.calls {V : Env} {s : Side} {d t : Int} {i n : Nat} {o : Order} {refs : List Int} (ops : List Op) {b b' : Book}
    (h : TrailRun V s d t i o refs b) (hr : Book.runIf V n (Book.trailStep i) ops b = some b') : TrailRun V s d t i o refs b' := by
  induction ops generalizing b with
  | nil =>
    cases hr
    exact h
  | cons op ops ih =>
    unfold Book.runIf at hr
    cases hex : Book.exec V n op b with
    | none => simp [hex] at hr
    | some y =>
      rw [hex] at hr
      dsimp only at hr
      split at hr
      · rename_i hc
        simp only [Book.trailStep, Bool.and_eq_true, decide_eq_true_eq, Bool.not_eq_true'] at hc
        exact ih (.call h hc.1.1 hc.1.2 ⟨n, hex⟩ hc.2) hr
      · cases hr

/-- A trade of one lot at `p`, against an order for `q`. -/
def sampleTrade (p q : Int) : List Op :=
  [.submit { side := .sell, priceTicks := p, qty := q }, .submit { side := .buy, priceTicks := p, qty := 1 }]

/-- A stop to sell one tick behind a trade at 2. Trades at 4 and at 3 follow, each with a pass after it: the first moves the
trigger from 1 to 3, the second makes the stop fire. -/
theorem trailing_stop_follows_sample : ∃ o b, TrailRun smallEnv .sell 1 1 1 o [4] b ∧ (b.order 1).stopTriggerTicks = 3 ∧
    ∃ v b', b.checkStopVisits smallEnv 20 = some ([v], b') ∧ v.ref = 3 ∧ Followed .sell 1 3 [v] := by
  have hrun : (Book.runIf smallEnv 20 (fun _ _ _ => true) (sampleTrade 2 1) (fresh smallEnv)).any (fun b =>
      b.core.freeHead = some 1 && Book.trailTrigger .sell b.trailReference 1 = 1 &&
      (Book.exec smallEnv 20 (.submitTrailingStop .sell 1 1 1 7 0) b).any fun y => y.1 = .id 7 .none &&
      (Book.runIf smallEnv 20 (Book.trailStep 1) (sampleTrade 4 2) y.2).any fun b1 =>
      (b1.checkStopVisits smallEnv 20).any fun z => (visitsTo 1 z.1).map (·.ref) = [4] && z.2.trailsAt 1 &&
      (Book.runIf smallEnv 20 (Book.trailStep 1) (sampleTrade 3 1) z.2).any fun b2 =>
      (b2.checkStopVisits smallEnv 20).any fun w => w.1.length = 1 && (visitsTo 1 w.1).map (·.ref) = [3]) = true := by
    decide +kernel
  obtain ⟨b, -, hreach, hf⟩ := Reach.ofRun hrun fun _ _ _ _ => trivial
  simp only [Bool.and_eq_true, decide_eq_true_eq, Option.any_eq_true, Prod.exists] at hf
  obtain ⟨⟨hfree, htr⟩, r, b0, hent, rfl, b1, hb1, vs, c1, hc1, ⟨hr1, hat1⟩, b2, hb2, ws, c2, hc2, hlen, hr2⟩ := hf
  have h0 : TrailRun smallEnv .sell 1 1 1 (b0.core.body 1) [] b0 :=
    .enter hreach ⟨20, hent⟩ (by decide) hfree htr.symm
  have hfit : ∀ v ∈ visitsTo 1 vs, IsInt32 (Side.trail .sell 1 v.ref) := by
    intro v hv
    have hmem : v.ref ∈ (visitsTo 1 vs).map (·.ref) := List.mem_map_of_mem hv
    rw [hr1, List.mem_singleton] at hmem
    rw [hmem]
    decide
  have h1 := TrailRun.check (h0.calls _ hb1) hc1 hfit hat1
  rw [hr1] at h1
  have h2 := h1.calls _ hb2
  obtain ⟨v, rfl⟩ := List.length_eq_one_iff.mp hlen
  have hall : visitsTo 1 [v] = [v] := by
    have hsub : (visitsTo 1 [v]).Sublist [v] := List.filter_sublist
    refine hsub.eq_of_length ?_
    have := congrArg List.length hr2
    simpa using this
  rw [hall] at hr2
  have href : v.ref = 3 := by simpa using hr2
  obtain ⟨ht, -, -, -, -, hnext⟩ := trailing_stop_follows h2
  have hfollow := hnext 20 [v] c2 hc2 (by rw [hall]; intro u hu; rw [List.mem_singleton.mp hu, href]; decide)
  rw [hall] at hfollow
  exact ⟨_, b2, h2, ht, v, c2, hc2, href, hfollow⟩

/-- The widest grid. -/
def wideEnv : Env :=
  { smallEnv with LEVELS := int32Max, levels_pos := by decide, levels_int32 := Int.le_refl int32Max }

/-- A stop to buy trails a trade at 0 by 2147483646 ticks. At the next reference, 5, the new trigger overflows to a negative
number, and the stop fires although 5 is far below its trigger. -/
theorem trailing_stop_overflows : ∃ b b0 b1 b2, Book.Reach wideEnv (fun _ _ _ => True) b ∧
    Book.Step wideEnv b (.submitTrailingStop .buy 2147483646 3 1 7 0) (.id 7 .none) b0 ∧
    (b0.order 1).stopTriggerTicks = 2147483646 ∧
    Book.runIf wideEnv 20 (Book.trailStep 1) (sampleTrade 5 2) b0 = some b1 ∧ (b1.order 1).stopTriggerTicks = 2147483646 ∧
    ∃ v, b1.checkStopVisits wideEnv 20 = some ([v], b2) ∧ v.slot = 1 ∧ v.ref = 5 ∧ v.request.isSome = true ∧
      ¬ Side.fires .buy 2147483646 v.ref := by
  have hrun : (Book.runIf wideEnv 20 (fun _ _ _ => true) [.submit { side := .buy, priceTicks := 0, qty := 2 },
      .submit { side := .sell, priceTicks := 0, qty := 1 }] (fresh wideEnv)).any (fun b =>
      (Book.exec wideEnv 20 (.submitTrailingStop .buy 2147483646 3 1 7 0) b).any fun y => y.1 = .id 7 .none &&
      (y.2.order 1).stopTriggerTicks = 2147483646 &&
      (Book.runIf wideEnv 20 (Book.trailStep 1) (sampleTrade 5 2) y.2).any fun b1 =>
      (b1.order 1).stopTriggerTicks = 2147483646 &&
      (b1.checkStopVisits wideEnv 20).any fun z => z.1.length = 1 &&
        z.1.all fun v => v.slot = 1 && v.ref = 5 && v.request.isSome) = true := by decide +kernel
  obtain ⟨b, -, hreach, hf⟩ := Reach.ofRun hrun fun _ _ _ _ => trivial
  simp only [Bool.and_eq_true, decide_eq_true_eq, Option.any_eq_true, Prod.exists] at hf
  obtain ⟨r, b0, hent, ⟨rfl, ht0⟩, b1, hb1, ht1, vs, b2, hc, hlen, hall⟩ := hf
  obtain ⟨v, rfl⟩ := List.length_eq_one_iff.mp hlen
  simp only [List.all_cons, List.all_nil, Bool.and_eq_true, decide_eq_true_eq, and_true] at hall
  obtain ⟨⟨hslot, href⟩, hreq⟩ := hall
  refine ⟨b, b0, b1, b2, hreach, ⟨20, hent⟩, ht0, hb1, ht1, v, hc, hslot, href, hreq, ?_⟩
  rw [href]
  show ¬ (2147483646 : Int) ≤ 5
  decide

end HftLab.OrderBook
