/-
  HftLab.OrderBook.Conservation — no slot is leaked or freed twice.

  `pool_conserved`: in every reachable book the free list, the orders in the queues and the waiting
  stops are the slots of the pool, each once, and `active_orders_` counts those that are not free.
-/

import HftLab.OrderBook.Reachable

namespace HftLab.OrderBook

open Lib List

/-- The slots queued at some level, level by level. -/
def Core.restingSlots (V : Env) (c : Core) : List Nat :=
  (List.range V.LEVELS.toNat).flatMap fun (p : Nat) => c.queue V p

section

variable {V : Env} {b : Book} {i : Nat}

theorem Wf.mem_restingSlots (h : Wf V b) : i ∈ b.core.restingSlots V ↔ b.core.Queued V i := by
  unfold Core.restingSlots Core.Queued
  rw [mem_flatMap]
  constructor
  · rintro ⟨p, -, hi⟩
    exact ⟨p, hi⟩
  · rintro ⟨p, hi⟩
    have hr := h.links.grid p i hi
    refine ⟨p.toNat, mem_range.mpr ?_, ?_⟩
    · have := hr.1
      have := hr.2
      omega
    · rw [Int.toNat_of_nonneg hr.1]
      exact hi

theorem Wf.restingSlots_nodup (h : Wf V b) : (b.core.restingSlots V).Nodup := by
  refine nodup_flatMap.mpr ⟨fun p _ => (h.links.level p).nodup, ?_⟩
  refine nodup_range.imp ?_
  intro p q hne i hp hq
  exact hne (by exact_mod_cast h.links.unique hp hq)

/-- Every slot is free, queued, waiting or in flight, and only one of these. -/
theorem Wf.partition (h : Wf V b) :
    (b.core.freeList V ++ b.core.restingSlots V ++ b.core.stopOrders ++ b.inFlight).Perm (List.range V.MAX_ORDERS) := by
  have hout := h.links.nodup
  have hmove : (b.core.freeList V ++ b.core.restingSlots V ++ b.core.stopOrders ++ b.inFlight).Perm
      (b.core.freeList V ++ b.core.stopOrders ++ b.inFlight ++ b.core.restingSlots V) := by
    simp only [append_assoc]
    refine List.Perm.append_left _ ?_
    rw [← append_assoc b.core.stopOrders]
    exact perm_append_comm
  refine hmove.trans ?_
  rw [perm_ext_iff_of_nodup _ nodup_range]
  · intro i
    rw [mem_range, mem_append, h.mem_restingSlots]
    exact (h.links.cover i).symm
  · refine nodup_append.mpr ⟨hout, h.restingSlots_nodup, ?_⟩
    rintro x hx y hy rfl
    obtain ⟨p, hp⟩ := h.mem_restingSlots.mp hy
    exact h.links.apart p x hp hx

end

/-- The free chain and the chain of every level end, and meet exactly these slots. -/
structure Core.Chains (V : Env) (c : Core) : Prop where
  free : Seg c.nextFree c.freeHead (c.freeList V) none
  level : ∀ p, Seg c.next (c.levels p).head (c.queue V p) none

theorem Wf.chains {V : Env} {b : Book} (h : Wf V b) : b.core.Chains V := ⟨h.links.free, fun p => (h.links.level p).fwd⟩

/-- Pool conservation, after any sequence of calls that return. -/
theorem pool_conserved {V : Env} {b : Book} (h : Book.Reach V (fun _ _ _ => True) b) :
    b.core.Chains V ∧
      (b.core.freeList V ++ b.core.restingSlots V ++ b.core.stopOrders).Perm (List.range V.MAX_ORDERS) ∧
      b.core.activeOrders = V.MAX_ORDERS - (b.core.freeList V).length := by
  obtain ⟨hw, hx⟩ := Reach.wf h
  refine ⟨hw.chains, ?_, ?_⟩
  · have := hw.partition
    rwa [hx, List.append_nil] at this
  · have := hw.links.active
    omega

/-- After a trade that triggers a stop. -/
theorem pool_conserved_small : ∃ b, Book.runIf smallEnv 20 (fun _ _ _ => true)
      [.submit { side := .sell, priceTicks := 3, qty := 5, clientId := 1 },
       .submitStop .buy 3 4 2 0 2,
       .submit { side := .buy, priceTicks := 3, qty := 2, clientId := 3 },
       .checkStopTriggers] (fresh smallEnv) = some b ∧
    b.core.activeOrders = smallEnv.MAX_ORDERS - (b.core.freeList smallEnv).length := by
  have hrun : (Book.runIf smallEnv 20 (fun _ _ _ => true)
      [.submit { side := .sell, priceTicks := 3, qty := 5, clientId := 1 },
       .submitStop .buy 3 4 2 0 2,
       .submit { side := .buy, priceTicks := 3, qty := 2, clientId := 3 },
       .checkStopTriggers] (fresh smallEnv)).isSome = true := by decide +kernel
  obtain ⟨b, hb⟩ := Option.isSome_iff_exists.mp hrun
  exact ⟨b, hb, (pool_conserved (Reach.runIf (fun _ _ _ _ => trivial) _ .init hb)).2.2⟩

end HftLab.OrderBook
