/-
  HftLab.OrderBook.KillSwitch — `mass_cancel` takes a client out of the book and leaves the others where they are.

  `Without V X b b'`: `b'` is `b` less the orders in the slots of `X`. One cancel is such a step, and so is a list of
  them. Each cancelled order completes, so the OCO records after the cancels are those before, folded over the ids
  (`completeAll_sub`, `completeAll_queues`); none of the partners still to be cancelled has a partner left, so
  `process_oco_pending` cancels these and no other.
-/

import HftLab.OrderBook.BetweenCalls
import HftLab.OrderBook.Stops
import Mathlib.Data.Set.Card

namespace HftLab.OrderBook

open Lib Function List

/-! ## OCO records after several completions -/

def Oco.completeAll (o : Oco) (ids : List Nat) : Oco := ids.foldl Oco.complete o

section

variable {o : Oco} {x y k i c n : Nat} {V : Env} {b b' b'' : Book} {X Y : List Nat} {p : Int}

/-- The pairs left are pairs as before, of other orders. -/
theorem Oco.complete_sub (h : Mutual o.partner) (hxy : (o.complete k).partner x = some y) :
    o.partner x = some y ∧ k ≠ x ∧ k ≠ y := by
  unfold Oco.complete at hxy
  split at hxy
  · rename_i hk
    refine ⟨hxy, ?_, ?_⟩
    · rintro rfl
      rw [hk] at hxy
      cases hxy
    · rintro rfl
      rw [(h x k hxy).1] at hk
      cases hk
  · rename_i w hk
    have hxy : update (update o.partner k none) w none x = some y := hxy
    have hxw : x ≠ w := by
      rintro rfl
      rw [update_self] at hxy
      cases hxy
    have hxk : x ≠ k := by
      rintro rfl
      rw [update_of_ne hxw, update_self] at hxy
      cases hxy
    rw [update_of_ne hxw, update_of_ne hxk] at hxy
    refine ⟨hxy, hxk.symm, ?_⟩
    rintro rfl
    rw [(h x k hxy).1] at hk
    exact hxw (Option.some.inj hk)

theorem Oco.complete_queued (hx : x ∈ (o.complete k).pendingCancel) : x ∈ o.pendingCancel ∨ o.partner k = some x := by
  unfold Oco.complete at hx
  split at hx
  · exact .inl hx
  · rename_i w hk
    rcases mem_append.mp hx with hx | hx
    · exact .inl hx
    · rw [mem_singleton.mp hx]
      exact .inr hk

theorem Oco.completeAll_sub (ids : List Nat) (h : Mutual o.partner) (hxy : (o.completeAll ids).partner x = some y) :
    o.partner x = some y ∧ x ∉ ids ∧ y ∉ ids := by
  induction ids generalizing o with
  | nil => exact ⟨hxy, not_mem_nil, not_mem_nil⟩
  | cons k ids ih =>
    obtain ⟨h1, hx, hy⟩ := ih (h.complete k) hxy
    obtain ⟨h0, hkx, hky⟩ := Oco.complete_sub h h1
    exact ⟨h0, not_mem_cons_of_ne_of_not_mem hkx.symm hx, not_mem_cons_of_ne_of_not_mem hky.symm hy⟩

theorem Oco.completeAll_keeps (ids : List Nat) (hx : x ∈ o.pendingCancel) : x ∈ (o.completeAll ids).pendingCancel := by
  induction ids generalizing o with
  | nil => exact hx
  | cons k ids ih => exact ih (Oco.complete_keeps hx)

/-- What is queued in addition are partners of the completed orders. -/
theorem Oco.completeAll_queued (ids : List Nat) (h : Mutual o.partner) (hy : y ∈ (o.completeAll ids).pendingCancel) :
    y ∈ o.pendingCancel ∨ ∃ k ∈ ids, o.partner k = some y := by
  induction ids generalizing o with
  | nil => exact .inl hy
  | cons k ids ih =>
    rcases ih (h.complete k) hy with hy | ⟨k', hk', hp⟩
    · exact (Oco.complete_queued hy).imp id fun hp => ⟨k, mem_cons_self, hp⟩
    · exact .inr ⟨k', mem_cons_of_mem k hk', (Oco.complete_sub h hp).1⟩

/-- Each partner of a completed order is queued, unless it was completed itself. -/
theorem Oco.completeAll_queues (ids : List Nat) (h : Mutual o.partner) (hk : k ∈ ids) (hp : o.partner k = some y) :
    y ∈ ids ∨ y ∈ (o.completeAll ids).pendingCancel := by
  induction ids generalizing o with
  | nil => cases hk
  | cons k' ids ih =>
    by_cases e : k = k'
    · subst e
      exact .inr (Oco.completeAll_keeps ids (Oco.complete_queues hp))
    · have hk := (mem_cons.mp hk).resolve_left e
      by_cases ey : y = k'
      · exact .inl (ey ▸ mem_cons_self)
      · have hp1 := Oco.complete_other h hp (Ne.symm e) (Ne.symm ey)
        exact (ih (h.complete k') hk hp1).imp (mem_cons_of_mem k') id

/-! ## A book less some of its orders -/

/-- `b'` is `b` less the orders in the slots of `X`. -/
structure Without (V : Env) (X : List Nat) (b b' : Book) : Prop where
  registered : Registered V b'
  queue : ∀ p, b'.core.queue V p = (b.core.queue V p).filter fun i => i ∉ X
  stops : ∀ i, i ∈ b'.core.stopOrders ↔ i ∈ b.core.stopOrders ∧ i ∉ X
  body : ∀ i, i ∉ X → b'.core.body i = b.core.body i

theorem Without.queued (h : Without V X b b') : b'.core.Queued V i ↔ b.core.Queued V i ∧ i ∉ X := by
  unfold Core.Queued
  simp only [h.queue, mem_filter, decide_eq_true_eq, exists_and_right]

theorem Without.live (h : Without V X b b') : b'.Live V i ↔ b.Live V i ∧ i ∉ X := by
  unfold Book.Live
  rw [h.queued, h.stops, or_and_right]

theorem Without.find (hb : Registered V b) (h : Without V X b b') :
    b'.core.find k = some i ↔ b.core.find k = some i ∧ i ∉ X := by
  constructor
  · intro hf
    obtain ⟨hid, hl⟩ := h.registered.wf.found hf
    obtain ⟨hl, hX⟩ := h.live.mp (Or.comm.mp hl)
    rw [h.body i hX] at hid
    exact ⟨hid ▸ (hb.live i hl).1, hX⟩
  · rintro ⟨hf, hX⟩
    obtain ⟨hid, hl⟩ := hb.wf.found hf
    have := (h.registered.live i (h.live.mpr ⟨Or.comm.mp hl, hX⟩)).1
    rwa [h.body i hX, hid] at this

theorem Without.trans (h : Without V X b b') (h' : Without V Y b' b'') : Without V (X ++ Y) b b'' where
  registered := h'.registered
  queue := fun p => by
    rw [h'.queue, h.queue, filter_filter]
    refine filter_congr fun i _ => ?_
    simp [Bool.and_comm]
  stops := fun i => by
    rw [h'.stops, h.stops, mem_append, not_or, and_assoc]
  body := fun i hi => by
    rw [mem_append, not_or] at hi
    rw [h'.body i hi.2, h.body i hi.1]

/-- A step that leaves orders, index and flight alone takes nothing out. -/
theorem Without.nil (hb : Registered V b) (h : SameSlots b b') : Without V [] b b' where
  registered := by
    have hlaw := h.lawful hb.wf
    refine hb.traffic (hlaw.wf hb.wf) (.stay (hlaw.moves.live_sub (by simp)) h.idIndex) (fun j => ?_)
      (fun j hj => h.inFlight ▸ hj) h.nextOrderId
    rw [h.body]
  queue := fun p => by
    rw [h.queue]
    simp
  stops := fun i => by
    rw [h.stopOrders]
    simp
  body := fun i _ => by rw [h.body]

/-- The order in slot `i` leaves its level. -/
theorem Registered.cancelled (hb : Registered V b) (hi : i ∈ b.core.queue V p) :
    Without V [i] b (b.cancelInternal V i true) := by
  have hw := hb.wf
  have hv := hw.cancelInternal_view hi true
  have hm := (hw.cancelInternal hi true).moves
  refine ⟨hb.act (.cancel p i hi) trivial, fun q => ?_, fun j => ?_, fun j hj => hm.body j hj⟩
  · rw [queue_of_view hv]
    show update (b.core.queue V) p ((b.core.queue V p).erase i) q = _
    by_cases e : q = p
    · subst e
      rw [update_self, (hw.links.level q).nodup.erase_eq_filter]
      refine filter_congr fun j _ => ?_
      simp [bne, Bool.beq_eq_decide_eq]
    · rw [update_of_ne e, filter_eq_self.mpr]
      intro j hj
      simp only [mem_singleton, decide_eq_true_eq]
      rintro rfl
      exact e ((hw.price hj).symm.trans (hw.price hi))
  · rw [show (b.cancelInternal V i true).core.stopOrders = b.core.stopOrders from congrArg View.stops hv]
    refine ⟨fun hj => ⟨hj, ?_⟩, fun hj => hj.1⟩
    rw [mem_singleton]
    rintro rfl
    exact hw.not_stop_of_queued hi hj

/-- The stop in slot `i` leaves the waiting ones. -/
theorem Registered.unwaited (hb : Registered V b) (hi : i ∈ b.core.stopOrders) :
    (b.cancelPendingStop i).1 = true ∧ Without V [i] b (b.cancelPendingStop i).2 := by
  have hw := hb.wf
  rcases hw.cancelPendingStop (i := i) with ⟨hno, -⟩ | ⟨-, hok, hr⟩
  · exact absurd hi hno
  refine ⟨hok, hb.act (.unwait i hi) trivial, fun q => ?_, fun j => ?_, fun j hj => hr.moves.body j hj⟩
  · obtain ⟨k, -, hv⟩ := hw.cancelPendingStop_view hi
    rw [queue_of_view hv]
    refine (filter_eq_self.mpr fun j hj => ?_).symm
    simp only [mem_singleton, decide_eq_true_eq]
    rintro rfl
    exact hw.not_stop_of_queued hj hi
  · by_cases e : j = i
    · subst e
      simp [hr.gone.stops]
    · rw [hr.moves.stops j (by simpa using e)]
      simp [e]

/-- The order in slot `i` is cancelled, whether it rests or waits. -/
theorem Registered.cancelledAny (hb : Registered V b) (hl : b.Live V i) : Without V [i] b (b.cancelAny V i) := by
  unfold Book.cancelAny
  rcases hl with ⟨p, hi⟩ | hi
  · have hp : (b.order i).isPendingStop = false := (hb.wf.resting hi).not_pendingStop
    rw [hp]
    exact hb.cancelled hi
  · have hp : (b.order i).isPendingStop := ((hb.wf.placed i).waiting hi).isPendingStop
    rw [if_pos hp]
    exact (hb.unwaited hi).2

/-- `b'` is `b` after the orders in the slots of `X` completed. -/
structure Cancelled (V : Env) (X : List Nat) (b b' : Book) : Prop extends Without V X b b' where
  oco : b'.oco = b.oco.completeAll (X.map fun i => (b.core.body i).id)

theorem Cancelled.append (h : Cancelled V X b b') (h' : Cancelled V Y b' b'') (hd : ∀ i ∈ Y, i ∉ X) :
    Cancelled V (X ++ Y) b b'' := by
  refine ⟨h.toWithout.trans h'.toWithout, ?_⟩
  have hids : (Y.map fun j => (b'.core.body j).id) = Y.map fun j => (b.core.body j).id :=
    map_congr_left fun j hj => by rw [h.body j (hd j hj)]
  rw [h'.oco, hids, h.oco]
  unfold Oco.completeAll
  rw [map_append, foldl_append]

theorem Registered.cancelledAll (l : List Nat) (hb : Registered V b) (hn : l.Nodup) (hl : ∀ i ∈ l, b.core.Queued V i) :
    Cancelled V l b (l.foldl (fun b i => b.cancelInternal V i true) b) := by
  induction l generalizing b with
  | nil => exact ⟨.nil hb (.of_core rfl rfl), rfl⟩
  | cons i l ih =>
    obtain ⟨hil, hn⟩ := nodup_cons.mp hn
    obtain ⟨p, hi⟩ := hl i mem_cons_self
    have h1 : Cancelled V [i] b (b.cancelInternal V i true) := ⟨hb.cancelled hi, (cancelInternal_gone hb.wf hi true).2⟩
    have hne : ∀ j ∈ l, j ∉ [i] := fun j hj hji => hil (mem_singleton.mp hji ▸ hj)
    exact h1.append (ih h1.registered hn fun j hj => h1.queued.mpr ⟨hl j (mem_cons_of_mem i hj), hne j hj⟩) hne

/-- The stops of `l` are cancelled, and `n` becomes the number of cancels. -/
theorem Registered.unwaitedAll (l : List Nat) (n : Nat) (hb : Registered V b) (hn : l.Nodup)
    (hl : ∀ i ∈ l, i ∈ b.core.stopOrders) :
    ∃ b', l.foldl (fun ((n, b) : Nat × Book) i =>
        let (ok, b) := b.cancelPendingStop i; (if ok then n + 1 else n, b)) (n, b) = (n + l.length, b') ∧
      Cancelled V l b b' := by
  induction l generalizing b n with
  | nil => exact ⟨b, rfl, .nil hb (.of_core rfl rfl), rfl⟩
  | cons i l ih =>
    obtain ⟨hil, hn⟩ := nodup_cons.mp hn
    have hi := hl i mem_cons_self
    obtain ⟨hok, hw1⟩ := hb.unwaited hi
    have h1 : Cancelled V [i] b (b.cancelPendingStop i).2 := ⟨hw1, (cancelPendingStop_gone hb.wf hi).2⟩
    have hne : ∀ j ∈ l, j ∉ [i] := fun j hj hji => hil (mem_singleton.mp hji ▸ hj)
    obtain ⟨b', hfold, h2⟩ := ih (n + 1) h1.registered hn fun j hj =>
      (h1.stops j).mpr ⟨hl j (mem_cons_of_mem i hj), hne j hj⟩
    refine ⟨b', ?_, h1.append h2 hne⟩
    rw [foldl_cons]
    dsimp only
    rw [hok, if_pos rfl, hfold, length_cons, Nat.add_right_comm, Nat.add_assoc]

/-! ## The deferred cancels -/

/-- Partners that have no partner left are cancelled, and nothing else is. -/
theorem Registered.ocoRounds (n : Nat) (hb : Registered V b)
    (hp : ∀ y ∈ b.oco.pendingCancel, b.oco.partner y = none) (hn : b.oco.pendingCancel.length ≤ n) :
    ∃ X, Without V X b (Book.ocoRounds V n b) ∧ ∀ i, i ∈ X ↔ ∃ y ∈ b.oco.pendingCancel, b.core.find y = some i := by
  induction n generalizing b with
  | zero =>
    refine ⟨[], .nil hb (.of_core rfl rfl), fun i => ?_⟩
    rw [eq_nil_of_length_eq_zero (Nat.le_zero.mp hn)]
    simp
  | succ n ih =>
    by_cases he : b.oco.pendingCancel = []
    · refine ⟨[], ?_, fun i => ?_⟩
      · unfold Book.ocoRounds
        rw [if_pos he]
        exact .nil hb (.of_core rfl rfl)
      · rw [he]
        simp
    · obtain ⟨pid, hl⟩ := Option.ne_none_iff_exists'.mp (mt List.getLast?_eq_none_iff.mp he)
      have hpend := dropLast_append_getLast? pid hl
      have hlen : b.oco.pendingCancel.dropLast.length ≤ n := by
        rw [length_dropLast]
        omega
      have hpop : ∀ y ∈ b.oco.pendingCancel.dropLast, b.oco.partner y = none := fun y hy =>
        hp y (mem_of_mem_dropLast hy)
      have hnone := hp pid (mem_of_getLast? hl)
      have h0 : Without V [] b { b with oco := b.oco.pop } := .nil hb (.of_core rfl rfl)
      unfold Book.ocoRounds
      rw [if_neg he]
      unfold Book.ocoRound
      rw [hl]
      dsimp only
      cases hf : b.core.find pid with
      | none =>
        obtain ⟨X, h1, hX⟩ := ih h0.registered hpop hlen
        refine ⟨[] ++ X, h0.trans h1, fun i => ?_⟩
        rw [nil_append, hX i, ← hpend]
        constructor
        · intro h
          obtain ⟨y, hy, hfy⟩ := h
          exact ⟨y, mem_append_left _ hy, hfy⟩
        · intro h
          obtain ⟨y, hy, hfy⟩ := h
          rcases mem_append.mp hy with hy | hy
          · exact ⟨y, hy, hfy⟩
          · rw [mem_singleton.mp hy, hf] at hfy
            cases hfy
      | some i =>
        have hw0 := h0.registered.wf
        have h1 := h0.registered.cancelledAny (Or.comm.mp (hw0.found hf).2)
        have hoco : (({ b with oco := b.oco.pop } : Book).cancelAny V i).oco = b.oco.pop := by
          rw [(cancelAny_gone hw0 hf).2]
          unfold Oco.complete
          rw [show b.oco.pop.partner pid = none from hnone]
        obtain ⟨X, h2, hX⟩ := ih h1.registered (by rw [hoco]; exact hpop) (by rw [hoco]; exact hlen)
        refine ⟨[] ++ ([i] ++ X), h0.trans (h1.trans h2), fun j => ?_⟩
        rw [nil_append, mem_append, mem_singleton, hX j, hoco, ← hpend]
        constructor
        · rintro (rfl | ⟨y, hy, hfy⟩)
          · exact ⟨pid, mem_append_right _ (mem_singleton_self pid), hf⟩
          · exact ⟨y, mem_append_left _ hy, ((h1.find h0.registered).mp hfy).1⟩
        · rintro ⟨y, hy, hfy⟩
          by_cases e : j = i
          · exact .inl e
          · rcases mem_append.mp hy with hy | hy
            · exact .inr ⟨y, hy, (h1.find h0.registered).mpr ⟨hfy, by simpa using e⟩⟩
            · rw [mem_singleton.mp hy, hf] at hfy
              exact absurd (Option.some.inj hfy).symm e

/-! ## The mass cancel -/

/-- The order in slot `i` is one of client `c`, or the OCO partner of one. -/
def Book.struck (b : Book) (c i : Nat) : Bool :=
  (b.order i).clientId = c ||
    ((b.oco.partner (b.order i).id).bind b.core.find).any fun j => (b.order j).clientId = c

theorem Book.struck_iff : b.struck c i ↔ (b.core.body i).clientId = c ∨
    ∃ k j, b.oco.partner (b.core.body i).id = some k ∧ b.core.find k = some j ∧ (b.core.body j).clientId = c := by
  unfold Book.struck
  simp only [Bool.or_eq_true, decide_eq_true_eq, Option.any_eq_true, Option.bind_eq_some_iff]
  refine or_congr Iff.rfl ⟨?_, ?_⟩
  · rintro ⟨j, ⟨k, hk, hf⟩, hc⟩
    exact ⟨k, j, hk, hf, hc⟩
  · rintro ⟨k, j, hk, hf, hc⟩
    exact ⟨j, ⟨k, hk, hf⟩, hc⟩

/-- After cancels of live orders, `process_oco_pending` takes their partners out too. -/
theorem Calm.completed (h : Calm V b) {D : List Nat} (hc : Cancelled V D b b') (hD : ∀ i ∈ D, b.Live V i) :
    ∃ X, Without V X b (b'.processOcoPending V) ∧ ∀ i, b.Live V i → (i ∈ X ↔ i ∈ D ∨
      ∃ k j, b.oco.partner (b.core.body i).id = some k ∧ b.core.find k = some j ∧ j ∈ D) := by
  have hb := h.registered
  have hm := h.mutual_
  have hidle : b.oco.pendingCancel = [] := h.idle
  have hids : ∀ {k}, k ∈ D.map (fun i => (b.core.body i).id) ↔ ∃ j ∈ D, b.core.find k = some j := by
    intro k
    rw [mem_map]
    constructor
    · rintro ⟨j, hj, rfl⟩
      exact ⟨j, hj, (hb.live j (hD j hj)).1⟩
    · rintro ⟨j, hj, hf⟩
      exact ⟨j, hj, (hb.wf.found hf).1⟩
  -- whatever is still to be cancelled is the partner of an order that was
  have hqueued : ∀ y ∈ b'.oco.pendingCancel, ∃ k j, b.oco.partner y = some k ∧ b.core.find k = some j ∧ j ∈ D := by
    intro y hy
    rw [hc.oco] at hy
    rcases Oco.completeAll_queued _ hm hy with hy | ⟨k, hk, hp⟩
    · rw [hidle] at hy
      cases hy
    · obtain ⟨j, hj, hf⟩ := hids.mp hk
      exact ⟨k, j, (hm k y hp).1, hf, hj⟩
  have hnone : ∀ y ∈ b'.oco.pendingCancel, b'.oco.partner y = none := by
    intro y hy
    obtain ⟨k, j, hp, hf, hj⟩ := hqueued y hy
    by_contra hne
    obtain ⟨w, hw⟩ := Option.ne_none_iff_exists'.mp hne
    rw [hc.oco] at hw
    obtain ⟨hw, -, hwK⟩ := Oco.completeAll_sub _ hm hw
    rw [hp] at hw
    cases hw
    exact hwK (hids.mpr ⟨j, hj, hf⟩)
  obtain ⟨Y, hY, hmem⟩ := hc.registered.ocoRounds _ hnone (Nat.le_add_right _ _)
  refine ⟨D ++ Y, hc.toWithout.trans hY, fun i hi => ?_⟩
  have hfi := (hb.live i hi).1
  rw [mem_append, hmem i]
  constructor
  · rintro (hiD | ⟨y, hy, hfy⟩)
    · exact .inl hiD
    · have hfy := ((hc.find hb).mp hfy).1
      rw [(hb.wf.found hfy).1]
      exact .inr (hqueued y hy)
  · rintro (hiD | ⟨k, j, hp, hf, hj⟩)
    · exact .inl hiD
    · by_cases hiD : i ∈ D
      · exact .inl hiD
      refine .inr ⟨(b.core.body i).id, ?_, (hc.find hb).mpr ⟨hfi, hiD⟩⟩
      rw [hc.oco]
      refine (Oco.completeAll_queues _ hm (hids.mpr ⟨j, hj, hf⟩) (hm _ _ hp).1).resolve_left fun hiK => ?_
      obtain ⟨j', hj', hf'⟩ := hids.mp hiK
      rw [hfi] at hf'
      exact hiD (Option.some.inj hf' ▸ hj')

/-- The slots a traversal of the index meets are those of the live orders. -/
theorem Registered.mem_entries (hb : Registered V b) {n : Nat} :
    i ∈ ((V.iter n b.core.idIndex.entries).map (·.2) : List Nat) ↔ b.Live V i := by
  constructor
  · intro hi
    obtain ⟨k, hk⟩ := HftLab.OrderBook.mem_entries hi
    exact Or.comm.mp (hb.wf.found hk).2
  · intro hi
    have hf := AList.mem_lookup_iff.mp (hb.live i hi).1
    exact mem_map.mpr ⟨_, (V.iter_perm _ _).mem_iff.mpr hf, rfl⟩

/-- The orders of `M` are cancelled, the resting ones first, then the waiting ones. -/
theorem Registered.cancelledBoth (hb : Registered V b) {M : List Nat} (hn : M.Nodup) (hl : ∀ i ∈ M, b.Live V i) :
    ∃ D b', (M.filter fun i => !(b.order i).isActive && (b.order i).isPendingStop).foldl
        (fun ((n, b) : Nat × Book) i => let (ok, b) := b.cancelPendingStop i; (if ok then n + 1 else n, b))
        ((M.filter fun i => (b.order i).isActive).length,
          (M.filter fun i => (b.order i).isActive).foldl (fun b i => b.cancelInternal V i true) b) = (D.length, b') ∧
      Cancelled V D b b' ∧ D.Perm M := by
  have hwait : (M.filter fun i => !(b.order i).isActive && (b.order i).isPendingStop) =
      M.filter fun i => !(b.order i).isActive := by
    refine filter_congr fun i hi => ?_
    rcases hl i hi with ⟨p, hp⟩ | hs
    · rw [show (b.order i).isActive from (hb.wf.resting hp).active]
      rfl
    · rw [show (b.order i).isPendingStop from ((hb.wf.placed i).waiting hs).isPendingStop, Bool.and_true]
  have h1 := hb.cancelledAll (M.filter fun i => (b.order i).isActive) (hn.filter _) fun i hi =>
    hb.wf.tracked_of_found (hb.live i (hl i (mem_of_mem_filter hi))).1 (mem_filter.mp hi).2
  have hd : ∀ i ∈ M.filter fun i => !(b.order i).isActive, i ∉ M.filter fun i => (b.order i).isActive := by
    intro i hi hi'
    have := (mem_filter.mp hi).2
    rw [(mem_filter.mp hi').2] at this
    cases this
  obtain ⟨b', hfold, h2⟩ := h1.registered.unwaitedAll (M.filter fun i => !(b.order i).isActive)
    (M.filter fun i => (b.order i).isActive).length (hn.filter _) (fun i hi => by
      refine (h1.stops i).mpr ⟨(hl i (mem_of_mem_filter hi)).resolve_left ?_, hd i hi⟩
      rintro ⟨p, hp⟩
      have := (mem_filter.mp hi).2
      rw [show (b.order i).isActive from (hb.wf.resting hp).active] at this
      cases this)
  refine ⟨_, b', ?_, h1.append h2 hd, filter_append_perm _ M⟩
  rw [hwait, hfold, length_append]

/-- What `mass_cancel` does to a calm book: the client's orders leave, and their partners. -/
theorem Calm.massCancel (h : Calm V b) (c : Nat) : ∃ X, Without V X b (b.massCancel V c).2 ∧
    (∀ i, b.Live V i → (i ∈ X ↔ b.struck c i)) ∧
    (b.massCancel V c).1 = {i | b.Live V i ∧ (b.order i).clientId = c}.ncard := by
  have hE := entries_nodup (n := b.asked) h.registered.wf
  have hmem := fun i => h.registered.mem_entries (i := i) (n := b.asked)
  have h0 : Without V [] b { b with asked := b.asked + 1 } :=
    .nil h.registered (.of_core rfl rfl)
  have hc0 : Calm V { b with asked := b.asked + 1 } := ⟨h0.registered, h.inFlight, h.mutual_, h.idle⟩
  unfold Book.massCancel Book.indexEntries
  dsimp only
  generalize ((V.iter b.asked b.core.idIndex.entries).map (·.2) : List Nat) = E at hE hmem
  have hmine : ∀ i, i ∈ E.filter (fun i => decide ((b.order i).clientId = c)) ↔ b.Live V i ∧ (b.order i).clientId = c := by
    intro i
    rw [mem_filter, hmem, decide_eq_true_eq]
  obtain ⟨D, b', hfold, hD, hperm⟩ := hc0.registered.cancelledBoth
    (hE.filter _) fun i hi => ((hmine i).mp hi).1
  have hDmem := fun i => hperm.mem_iff.trans (hmine i)
  obtain ⟨X, hX, hXmem⟩ := hc0.completed hD fun i hi => ((hDmem i).mp hi).1
  refine ⟨X, ?_, fun i hi => ?_, ?_⟩
  · exact (congrArg (fun x : Nat × Book => Without V X b (x.2.processOcoPending V)) hfold).mpr (h0.trans hX)
  · rw [hXmem i hi, Book.struck_iff, hDmem]
    refine or_congr ⟨fun hc => hc.2, fun hc => ⟨hi, hc⟩⟩ ?_
    refine exists_congr fun k => exists_congr fun j => and_congr_right fun _ => and_congr_right fun hf => ?_
    rw [hDmem]
    exact ⟨fun hc => hc.2, fun hc => ⟨Or.comm.mp (h.registered.wf.found hf).2, hc⟩⟩
  · have hset : {i | b.Live V i ∧ (b.order i).clientId = c} = ↑D.toFinset := by
      ext i
      rw [coe_toFinset]
      exact (hDmem i).symm
    rw [hset, Set.ncard_coe_finset, toFinset_card_of_nodup (hperm.nodup_iff.mpr (hE.filter _))]
    exact congrArg Prod.fst hfold

/-! ## Runs -/

/-- The calls that enter orders under automatic ids only, link them, cancel and modify them. -/
def Op.autoIds : Op → Bool
  | .submit r => r.orderId = 0
  | .submitStop _ _ _ _ oid _ | .submitTrailingStop _ _ _ _ oid _ | .submitPeg _ _ _ oid _ _ => oid = 0
  | .linkOco .. | .cancel _ | .modify .. => true
  | _ => false

/-- A calm book whose live orders all have ids handed out before. -/
structure Numbered (V : Env) (b : Book) : Prop where
  calm : Calm V b
  below : ∀ k, (b.core.find k).isSome = true → k < b.core.nextOrderId

theorem Numbered.apart (h : Numbered V b) (hk : b.core.nextOrderId ≤ k) : b.core.find k = none := by
  by_contra hne
  have := h.below k (Option.isSome_iff_ne_none.mpr hne)
  omega

/-- The watch over no pair: the index is right and the partners mutual, whatever is still to be handed out. -/
theorem Numbered.watched (h : Numbered V b) (N : Nat) : Rests (Watched V N fun _ _ => False) b := by
  obtain ⟨⟨hw, hwatch⟩, hidle⟩ := h.calm.watched (N := N) fun _ hk _ => h.apart hk
  refine ⟨⟨hw, fun hN => ?_⟩, hidle⟩
  have := hwatch hN
  exact ⟨this.registered, this.mutual_, this.spent, fun i hi => ⟨(this.flying i hi).1, fun _ _ hf => hf.elim⟩,
    fun _ _ hf => hf.elim⟩

/-- A watch that lasts however far the counter goes: every live id was handed out. -/
theorem Numbered.of_watched (h : ∀ N, Rests (Watched V N fun _ _ => False) b) (hx : b.inFlight = []) : Numbered V b := by
  refine ⟨Watched.calm (h _) hx, fun k hk => ?_⟩
  have hs := ((h (max b.core.nextOrderId (k + 1))).1.2 (Nat.le_max_left _ _)).spent k hk
  unfold Book.Spent at hs
  omega

theorem Numbered.unlinkOco (h : Numbered V b) (id : Nat) : Numbered V (b.unlinkOco id) := by
  refine ⟨h.calm.unlinkOco id, ?_⟩
  rw [unlinkOco_core]
  exact h.below

/-- The order under `id` is unlinked and, when it rests, taken out of the book. -/
theorem Numbered.takeOut (h : Numbered V b) {id i : Nat} (hf : b.core.find id = some i) :
    Numbered V ((b.unlinkOco id).cancelInternal V i false) ∧
      b.core.nextOrderId ≤ ((b.unlinkOco id).cancelInternal V i false).core.nextOrderId := by
  cases ha : (b.order i).isActive with
  | true =>
    have hout := h.calm.takeOut hf ha
    refine ⟨⟨hout.calm, fun k hk => lt_of_lt_of_le (h.below k ?_) hout.next⟩, hout.next⟩
    rw [hout.find] at hk
    split at hk
    · cases hk
    · exact hk
  | false =>
    have hina : ((b.unlinkOco id).order i).isActive = false := by
      unfold Book.order
      rw [unlinkOco_core]
      exact ha
    rw [Book.cancelInternal_of_inactive hina, unlinkOco_core]
    exact ⟨h.unlinkOco id, le_rfl⟩

theorem Numbered.modify (h : Numbered V b) {id : Nat} {newPrice newQty : Int} {x : Nat × RejectReason}
    (hx : b'.inFlight = []) (hs : b.modify V n id newPrice newQty = some (x, b')) : Numbered V b' := by
  rcases modify_cases hs with ⟨-, -, rfl⟩ | ⟨i, hf, ⟨hin, -, rfl⟩ | ⟨-, hcr⟩⟩
  · exact h
  · have hd : Does V stillKinds b (b.reduceInPlace id i newQty) :=
      reduceInPlace_does trivial trivial h.calm.registered.wf hf hin.2.1 hin.2.2
    exact .of_watched (fun N => (watched_kept V N _).still hd (h.watched N)) hx
  · obtain ⟨h1, hn⟩ := h.takeOut hf
    have hid : id < ((b.unlinkOco id).cancelInternal V i false).core.nextOrderId :=
      lt_of_lt_of_le (h.below id (by rw [hf]; rfl)) hn
    obtain ⟨b2, hsub, hre⟩ := cancelReplace_cases hcr
    have hx2 : b2.inFlight = [] :=
      (submit_does (N := True) n _ _ _ _ h1.calm.registered.wf (.inl trivial) hsub).inFlight.trans h1.calm.inFlight
    refine .of_watched (fun N => ?_) hx
    have h2 := Watched.submitAs (h1.watched N) h1.calm.inFlight (fun _ _ _ => ⟨.inl hid, fun _ _ hf => hf.elim⟩) hsub
    exact (watched_kept V N _).rearmBracket (Watched.relink h2 hx2 _) hre

theorem Numbered.exec {op : Op} {r : Outcome} (h : Numbered V b) (ho : op.autoIds)
    (hs : Book.exec V n op b = some (r, b')) : Numbered V b' := by
  have hx : b'.inFlight = [] := (exec_does h.calm.registered.wf hs).inFlight.trans h.calm.inFlight
  have hI := fun N => watched_kept V N fun _ _ => False
  have waits : ∀ (side : Side) (trigger limit qty : Int) (cid N : Nat),
      Rests (Watched V N fun _ _ => False) (b.submitStop V side trigger limit qty 0 cid).2 := by
    intro side trigger limit qty cid N
    rcases submitStop_cases (b := b) side trigger limit qty 0 cid with he | ⟨i, f, c, hwt⟩
    · rw [he]
      exact h.watched N
    · exact Watched.waitAs (h.watched N) h.calm.inFlight hwt fun h0 => absurd rfl h0
  cases op with
  | submit req =>
    obtain ⟨x, hsub⟩ := Book.returned hs fun _ => rfl
    refine .of_watched (fun N => ?_) hx
    exact Watched.submitAs (h.watched N) h.calm.inFlight (fun h0 => absurd (of_decide_eq_true ho) h0) hsub
  | cancel id =>
    cases hs
    exact .of_watched (fun N => (hI N).cancel id (h.watched N)) hx
  | modify id p q =>
    obtain ⟨x, hm⟩ := Book.returned hs fun _ => rfl
    exact h.modify hx hm
  | submitStop s t l q oid cid =>
    cases hs
    obtain rfl : oid = 0 := of_decide_eq_true ho
    exact .of_watched (waits s t l q cid) hx
  | submitTrailingStop s o l q oid cid =>
    cases hs
    obtain rfl : oid = 0 := of_decide_eq_true ho
    refine .of_watched (fun N => ?_) hx
    rcases submitTrailingStop_cases (K := stillKinds) trivial s o l q 0 cid with he | ⟨t, hd⟩
    · rw [he]
      exact h.watched N
    · exact (hI N).still hd (waits s t l q cid N)
  | submitPeg s o q oid cid cap =>
    cases hs
    obtain rfl : oid = 0 := of_decide_eq_true ho
    refine .of_watched (fun N => ?_) hx
    rcases submitPeg_cases s o q 0 cid cap with he | ⟨i, f, d, hp⟩
    · rw [he]
      exact h.watched N
    · exact Watched.pegAs (h.watched N) h.calm.inFlight hp fun h0 => absurd rfl h0
  | linkOco u w =>
    cases hs
    exact .of_watched (fun N => ⟨(h.watched N).1.link u w, (h.watched N).2.link u w⟩) hx
  | _ => cases ho

theorem fresh_numbered (V : Env) : Numbered V (fresh V) := by
  refine ⟨fresh_calm V, fun k hk => ?_⟩
  cases hk

theorem Numbered.reach (h : Book.Reach V (fun _ op _ => op.autoIds = true) b) : Numbered V b := by
  induction h with
  | init => exact fresh_numbered V
  | step _ hs hp ih =>
    obtain ⟨n, hn⟩ := hs
    exact ih.exec hp hn

end

/-- `mass_cancel` leaves no order of the client; every order but the client's and their OCO partners keeps its place and
    everything it holds; the value returned is the number of the client's orders. -/
theorem mass_cancel_exact {V : Env} {b b' : Book} {c : Nat} {r : Outcome}
    (h : Book.Reach V (fun _ op _ => op.autoIds = true) b) (hs : Book.Step V b (.massCancel c) r b') :
    (∀ i, b'.Live V i → (b'.order i).clientId ≠ c) ∧
    (∀ p, b'.core.queue V p = (b.core.queue V p).filter fun i => !b.struck c i) ∧
    (∀ i, i ∈ b'.core.stopOrders ↔ i ∈ b.core.stopOrders ∧ b.struck c i = false) ∧
    (∀ i, b'.Live V i → b'.core.body i = b.core.body i) ∧
    r = .count {i | b.Live V i ∧ (b.order i).clientId = c}.ncard [] := by
  obtain ⟨n, hn⟩ := hs
  obtain ⟨X, hX, hmem, hcount⟩ := (Numbered.reach h).calm.massCancel c
  have he : (Outcome.count (b.massCancel V c).1 [], (b.massCancel V c).2) = (r, b') := Option.some.inj hn
  obtain ⟨rfl, rfl⟩ := Prod.mk.inj he
  have hgone : ∀ i, b.Live V i → (i ∉ X ↔ b.struck c i = false) := fun i hi => by
    rw [hmem i hi, Bool.not_eq_true]
  have hbody : ∀ i, (b.massCancel V c).2.Live V i → (b.massCancel V c).2.core.body i = b.core.body i := fun i hi =>
    hX.body i (hX.live.mp hi).2
  refine ⟨fun i hi hc => ?_, fun p => ?_, fun i => ?_, hbody,
    congrArg (Outcome.count · []) hcount⟩
  · have hc : ((b.massCancel V c).2.core.body i).clientId = c := hc
    rw [hbody i hi] at hc
    obtain ⟨hl, hiX⟩ := hX.live.mp hi
    exact hiX ((hmem i hl).mpr (Book.struck_iff.mpr (Or.inl hc)))
  · rw [hX.queue p]
    refine List.filter_congr fun i hi => ?_
    have := hgone i (Or.inl ⟨p, hi⟩)
    cases he : b.struck c i with
    | true => simpa [he] using this
    | false => simpa [he] using this
  · rw [hX.stops i]
    exact and_congr_right fun hi => hgone i (Or.inr hi)

/-- Client 1 has an order and a stop, the order linked with one of client 2: both of client 1's go, and that one. -/
theorem mass_cancel_exact_small : ∃ b b', Book.Reach smallEnv (fun _ op _ => op.autoIds = true) b ∧
    Book.Step smallEnv b (.massCancel 1) (.count 2 []) b' ∧
    b.core.queue smallEnv 3 = [0, 1, 3] ∧ b'.core.queue smallEnv 3 = [3] ∧
    ∀ i, b'.Live smallEnv i → (b'.order i).clientId ≠ 1 := by
  have hrun : (Book.runIf smallEnv 20 (fun _ op _ => op.autoIds)
      [.submit { side := .sell, priceTicks := 3, qty := 5, clientId := 1 },
       .submit { side := .sell, priceTicks := 3, qty := 2, clientId := 2 },
       .submitStop .buy 5 6 2 0 1,
       .submit { side := .sell, priceTicks := 3, qty := 4, clientId := 3 },
       .linkOco 1 2] (fresh smallEnv)).any (fun b =>
        (Book.exec smallEnv 20 (.massCancel 1) b).any fun y =>
          decide (b.core.queue smallEnv 3 = [0, 1, 3] ∧ y.1 = .count 2 [] ∧ y.2.core.queue smallEnv 3 = [3])) = true := by
    decide +kernel
  obtain ⟨b, r, b', -, hreach, hstep, hf⟩ := Reach.ofRunThen
    (f := fun b r b' => decide (b.core.queue smallEnv 3 = [0, 1, 3] ∧ r = .count 2 [] ∧ b'.core.queue smallEnv 3 = [3]))
    hrun fun _ _ _ h => h
  obtain ⟨hq, rfl, hq'⟩ := of_decide_eq_true hf
  exact ⟨b, b', hreach, hstep, hq, hq', (mass_cancel_exact hreach hstep).1⟩

end HftLab.OrderBook
