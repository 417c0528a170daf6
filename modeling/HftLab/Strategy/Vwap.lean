/-
  HftLab.Strategy.Vwap — the schedule of a VWAP.

  A slot is processed once, by its first tick, and brings what was sent up to its target. The invariant (`Follows`): what
  was sent is the target of some slot that had a tick, and none of these has a higher target.

  Proved, for every schedule of targets and every run: `vwap_keeps`. That the constructor makes such a schedule of any
  profile without negative entries is `new_scheduled`.
-/

import HftLab.Strategy.ExecAlgo
import Mathlib.Algebra.BigOperators.Ring.List
import Mathlib.Algebra.Order.BigOperators.Group.List

namespace HftLab.Strategy

open Lib List

/-- A target for each slot, none above the order, and the last one is the order. -/
structure Scheduled (p : ParentOrder) (targets : List Int) : Prop where
  length : targets.length = p.numSlices.toNat
  bounded : ∀ n ∈ targets, 0 ≤ n ∧ n ≤ p.totalQty
  last : targets.getLast? = some p.totalQty

/-- The target of a slot. -/
def targetOf (targets : List Int) (s : Int) : Int := targets.getD s.toNat 0

section

variable {p : ParentOrder} {targets : List Int} {s : Int}

theorem Scheduled.target (h : Scheduled p targets) (hs : 0 ≤ s ∧ s < p.numSlices) :
    0 ≤ targetOf targets s ∧ targetOf targets s ≤ p.totalQty := by
  have hlt : s.toNat < targets.length := by
    rw [h.length]
    omega
  unfold targetOf
  rw [getD_eq_getElem?_getD, List.getElem?_eq_getElem hlt, Option.getD_some]
  exact h.bounded _ (getElem_mem hlt)

theorem Scheduled.numSlices_pos (h : Scheduled p targets) : 0 < p.numSlices := by
  have hne : targets ≠ [] := by
    rintro rfl
    cases h.last
  have hpos := length_pos_iff.mpr hne
  rw [h.length] at hpos
  omega

theorem Scheduled.totalQty_nonneg (h : Scheduled p targets) : 0 ≤ p.totalQty :=
  (h.bounded _ (mem_of_getLast? h.last)).1

theorem Scheduled.target_last (h : Scheduled p targets) : targetOf targets (p.numSlices - 1) = p.totalQty := by
  have hlast := h.last
  have hpos := h.numSlices_pos
  rw [List.getLast?_eq_getElem?, h.length] at hlast
  unfold targetOf
  rw [getD_eq_getElem?_getD, show (p.numSlices - 1).toNat = p.numSlices.toNat - 1 by omega, hlast]
  rfl

end

/-! ## One tick -/

namespace VWAPExecutor

variable {x : VWAPExecutor} {t : Int}

/-- The slot `s` is done with, and sent nothing. -/
def skipped (x : VWAPExecutor) (s : Int) : VWAPExecutor :=
  { x with nextSlotToProcess := s + 1, stats := { x.stats with slicesSkipped := x.stats.slicesSkipped + 1 } }

/-- The slot `s` is done with, and sent what was missing from its target. -/
def sent (x : VWAPExecutor) (s : Int) : VWAPExecutor :=
  { x with
    nextSlotToProcess := s + 1
    totalEmittedQty := targetOf x.targetCumulative s
    stats := { x.stats with slicesEmitted := x.stats.slicesEmitted + 1 } }

theorem onTick_quiet (h : t < x.parent.startTsSec ∨ x.parent.totalQty ≤ x.stats.filledQty ∨
    x.parent.slot t < x.nextSlotToProcess ∨ x.parent.numSlices ≤ x.parent.slot t) : x.onTick t = ({}, x) := by
  unfold onTick
  dsimp only
  split
  · rfl
  · split
    · rfl
    · split
      · rfl
      · rename_i h1 h2 h3
        rw [if_pos (by omega)]

theorem onTick_turn (hn : 0 < x.parent.numSlices) (hstart : x.parent.startTsSec ≤ t)
    (hopen : x.stats.filledQty < x.parent.totalQty) (hturn : x.nextSlotToProcess ≤ x.parent.slot t)
    (hlt : x.parent.slot t < x.parent.numSlices) (hemitted : 0 ≤ x.totalEmittedQty ∧ x.totalEmittedQty ≤ x.parent.totalQty)
    (htarget : 0 ≤ targetOf x.targetCumulative (x.parent.slot t) ∧
      targetOf x.targetCumulative (x.parent.slot t) ≤ x.parent.totalQty) :
    x.onTick t = if targetOf x.targetCumulative (x.parent.slot t) - x.totalEmittedQty ≤ 0 then ({}, x.skipped (x.parent.slot t))
      else ({ qty := targetOf x.targetCumulative (x.parent.slot t) - x.totalEmittedQty, valid := true },
        x.sent (x.parent.slot t)) := by
  obtain ⟨⟨-, htotal⟩, -⟩ := x.parent.int32
  have hfits : ∀ y, -x.parent.totalQty ≤ y → y ≤ x.parent.totalQty → i32 y = y := by
    intro y h0 h1
    refine i32_eq ⟨?_, h1.trans htotal⟩
    simp only [int32Min, int32Max] at htotal ⊢
    omega
  have hqty : i32 (x.targetCumulative.getD (x.parent.slot t).toNat 0 - x.totalEmittedQty) =
      targetOf x.targetCumulative (x.parent.slot t) - x.totalEmittedQty := hfits _ (by unfold targetOf at htarget; omega)
    (by unfold targetOf at htarget; omega)
  have hsum : i32 (x.totalEmittedQty + (targetOf x.targetCumulative (x.parent.slot t) - x.totalEmittedQty)) =
      targetOf x.targetCumulative (x.parent.slot t) := by
    rw [add_sub_cancel]
    exact hfits _ (by omega) htarget.2
  unfold onTick
  dsimp only
  rw [if_neg (by omega), if_neg (by omega), if_neg (by omega), if_neg (by omega), hqty, hsum]
  rfl

theorem onTick_cases (x : VWAPExecutor) (t : Int) : (∃ y, x.onTick t = ({}, y) ∧ y.parent = x.parent ∧
      y.stats.filledQty = x.stats.filledQty) ∨
    ∃ q y, 0 < q ∧ x.onTick t = ({ qty := q, valid := true }, y) ∧ y.parent = x.parent ∧
      y.stats.filledQty = x.stats.filledQty := by
  unfold onTick
  dsimp only
  repeat' split
  all_goals first
    | exact .inl ⟨_, rfl, rfl, rfl⟩
    | exact .inr ⟨_, _, by omega, rfl, rfl, rfl⟩

end VWAPExecutor

theorem vwap_fair : vwap.Fair := by
  constructor
  · intro x t
    rcases x.onTick_cases t with ⟨y, h, hp, -⟩ | ⟨q, y, -, h, hp, -⟩
    · exact (congrArg (·.2.parent) h).trans hp
    · exact (congrArg (·.2.parent) h).trans hp
  · intro x q c
    rfl
  · intro x t
    rcases x.onTick_cases t with ⟨y, h, -, hf⟩ | ⟨q, y, -, h, -, hf⟩
    · exact (congrArg (·.2.stats.filledQty) h).trans hf
    · exact (congrArg (·.2.stats.filledQty) h).trans hf
  · intro x q c
    exact x.stats.applyFill_filled q c
  · intro x t hvalid
    rcases x.onTick_cases t with ⟨y, h, -⟩ | ⟨q, y, hq, h, -⟩
    · have hfalse : (vwap.onTick x t).1.valid = false := congrArg (·.1.valid) h
      rw [hfalse] at hvalid
      cases hvalid
    · have hqty : (vwap.onTick x t).1.qty = q := congrArg (·.1.qty) h
      rw [hqty]
      exact hq

/-! ## Runs -/

/-- The desk after any run. A clock that has wrapped may start the first slot after the window, if no tick fell into it. -/
structure Desk.Follows (p : ParentOrder) (targets : List Int) (d : Desk VWAPExecutor) : Prop where
  sound : d.Sound vwap p
  schedule : d.executor.targetCumulative = targets
  emitted : d.executor.totalEmittedQty = d.emittedQty
  next_nonneg : 0 ≤ d.executor.nextSlotToProcess
  next : 0 < d.executor.nextSlotToProcess → (∃ t ∈ d.ticks, p.inWindow t ∧ p.slotOf t = d.executor.nextSlotToProcess - 1) ∨
    ∃ t ∈ d.ticks, p.numSlices ≤ p.slotOf t
  ticked : ∀ t ∈ d.ticks, p.inWindow t → p.slotOf t < d.executor.nextSlotToProcess ∨ p.totalQty ≤ d.emittedQty
  nodup : (d.slots p).Nodup
  started : ∀ c ∈ d.children, p.startTsSec ≤ c.1
  processed : ∀ c ∈ d.children, 0 < d.executor.nextSlotToProcess ∧
    (p.inWindow c.1 → p.slotOf c.1 < d.executor.nextSlotToProcess)
  above : ∀ t ∈ d.ticks, p.inWindow t → targetOf targets (p.slotOf t) ≤ d.emittedQty
  attained : d.emittedQty = 0 ∨ (∃ t ∈ d.ticks, p.inWindow t ∧ d.emittedQty = targetOf targets (p.slotOf t)) ∨
    (∀ t ∈ d.ticks, ¬ p.inWindow t) ∧ d.emittedQty ≤ p.totalQty
  latest : ∀ t, d.ticks.head? = some t → ∀ u ∈ d.ticks, u ≤ t

section

variable {p : ParentOrder} {targets : List Int} {d : Desk VWAPExecutor} {t : Int} {e : Event} {es : List Event}
    {profile : List ℚ} {n i : Nat} {cum : ℚ}

/-- The desk of an order and its schedule, before any event. -/
def vwapDesk (p : ParentOrder) (targets : List Int) : Desk VWAPExecutor :=
  { executor := { parent := p, targetCumulative := targets } }

theorem vwapDesk_follows (p : ParentOrder) (targets : List Int) : (vwapDesk p targets).Follows p targets := by
  constructor
  case sound => exact ⟨rfl, le_rfl, le_rfl, by simp [vwapDesk], by simp [vwapDesk], by simp [vwapDesk]⟩
  case schedule => rfl
  case emitted => rfl
  case nodup => exact nodup_nil
  case attained => exact .inl rfl
  all_goals simp [vwapDesk]

/-- A tick no later than one in the window is not after the window. -/
theorem Desk.allows_not_late {u : Int} (ht : d.allows vwap (.onTick t)) (hin : p.inWindow t) (hu : u ∈ d.ticks) :
    ¬ p.numSlices ≤ p.slotOf u :=
  not_le.mpr ((ParentOrder.slotOf_mono (ht.2 u hu)).trans_lt hin.2)

theorem Desk.allows_latest (ht : d.allows vwap (.onTick t)) :
    ∀ s, (t :: d.ticks).head? = some s → ∀ u ∈ t :: d.ticks, u ≤ s := by
  intro s hs u hu
  obtain rfl := Option.some.inj hs
  rcases mem_cons.mp hu with rfl | hu
  · exact le_rfl
  · exact ht.2 u hu

namespace Desk.Follows

variable (h : d.Follows p targets)

include h

theorem emittedQty_le (hp : Scheduled p targets) : d.emittedQty ≤ p.totalQty := by
  rcases h.attained with h0 | ⟨t, _, hin, heq⟩ | ⟨-, hle⟩
  · rw [h0]
    exact hp.totalQty_nonneg
  · rw [heq]
    exact (hp.target ⟨ParentOrder.slotOf_nonneg hin.1, hin.2⟩).2
  · exact hle

/-- What was sent before a tick in the window was sent in the window. -/
theorem attained_in (ht : d.allows vwap (.onTick t)) (hin : p.inWindow t) :
    d.emittedQty = 0 ∨ ∃ u ∈ d.ticks, p.inWindow u ∧ d.emittedQty = targetOf targets (p.slotOf u) := by
  rcases h.attained with h0 | hw | ⟨hnone, -⟩
  · exact .inl h0
  · exact .inr hw
  · left
    have hnil : d.children = [] := by
      refine eq_nil_iff_forall_not_mem.mpr fun c hc => ?_
      have hmem := h.sound.times c hc
      exact hnone _ hmem ⟨h.started c hc, not_le.mp (Desk.allows_not_late ht hin hmem)⟩
    unfold Desk.emittedQty
    rw [hnil]
    rfl

/-- A tick that sends nothing. -/
theorem idle {y : VWAPExecutor} (ht : d.allows vwap (.onTick t)) (hx : d.executor.onTick t = ({}, y))
    (hschedule : y.targetCumulative = d.executor.targetCumulative)
    (hemitted : y.totalEmittedQty = d.executor.totalEmittedQty)
    (hmono : d.executor.nextSlotToProcess ≤ y.nextSlotToProcess)
    (hnext : 0 < y.nextSlotToProcess → (∃ u ∈ t :: d.ticks, p.inWindow u ∧ p.slotOf u = y.nextSlotToProcess - 1) ∨
      ∃ u ∈ t :: d.ticks, p.numSlices ≤ p.slotOf u)
    (hin : p.inWindow t → (p.slotOf t < y.nextSlotToProcess ∨ p.totalQty ≤ d.emittedQty) ∧
      targetOf targets (p.slotOf t) ≤ d.emittedQty) : (d.step vwap (.onTick t)).Follows p targets := by
  have hsound := h.sound.step vwap_fair ht
  have hnonneg := h.next_nonneg
  rw [Desk.step_quiet hx] at hsound ⊢
  refine ⟨hsound, hschedule.trans h.schedule, hemitted.trans h.emitted, hnonneg.trans hmono, hnext, fun s hs hw => ?_,
    h.nodup, h.started, fun c hc => ?_, fun s hs hw => ?_, ?_, Desk.allows_latest ht⟩
  · rcases mem_cons.mp hs with rfl | hs
    · exact (hin hw).1
    · exact (h.ticked s hs hw).imp_left fun hlt => hlt.trans_le hmono
  · obtain ⟨hpos, hlt⟩ := h.processed c hc
    exact ⟨hpos.trans_le hmono, fun hw => (hlt hw).trans_le hmono⟩
  · rcases mem_cons.mp hs with rfl | hs
    · exact (hin hw).2
    · exact h.above s hs hw
  · by_cases hw : p.inWindow t
    · refine (h.attained_in ht hw).imp_right ?_
      intro hex
      obtain ⟨u, hu, heq⟩ := hex
      exact .inl ⟨u, mem_cons_of_mem t hu, heq⟩
    · rcases h.attained with h0 | ⟨u, hu, heq⟩ | ⟨hnone, hle⟩
      · exact .inl h0
      · exact .inr (.inl ⟨u, mem_cons_of_mem t hu, heq⟩)
      · refine .inr (.inr ⟨fun s hs => ?_, hle⟩)
        rcases mem_cons.mp hs with rfl | hs
        · exact hw
        · exact hnone s hs

/-- A tick that is not looked at. -/
theorem quiet (ht : d.allows vwap (.onTick t)) (hx : d.executor.onTick t = ({}, d.executor))
    (hin : p.inWindow t → (p.slotOf t < d.executor.nextSlotToProcess ∨ p.totalQty ≤ d.emittedQty) ∧
      targetOf targets (p.slotOf t) ≤ d.emittedQty) : (d.step vwap (.onTick t)).Follows p targets := by
  refine h.idle ht hx rfl rfl le_rfl (fun hpos => ?_) hin
  rcases h.next hpos with ⟨u, hu, hw⟩ | ⟨u, hu, hl⟩
  · exact .inl ⟨u, mem_cons_of_mem t hu, hw⟩
  · exact .inr ⟨u, mem_cons_of_mem t hu, hl⟩

/-- A tick that sends what is missing from the target of the slot `s`. -/
theorem sends {s : Int} (ht : d.allows vwap (.onTick t)) (hmiss : d.emittedQty < targetOf targets s)
    (hx : d.executor.onTick t = ({ qty := targetOf targets s - d.emittedQty, valid := true }, d.executor.sent s))
    (hstart : p.startTsSec ≤ t) (hturn : d.executor.nextSlotToProcess ≤ s)
    (hslot : p.inWindow t ∧ p.slotOf t = s ∨ p.numSlices ≤ p.slotOf t ∧ targetOf targets s ≤ p.totalQty ∧
      d.children = [] ∧ ∀ u ∈ d.ticks, ¬ p.inWindow u) : (d.step vwap (.onTick t)).Follows p targets := by
  have hsound := h.sound.step vwap_fair ht
  have hnonneg := h.next_nonneg
  rw [Desk.step_sends hx] at hsound ⊢
  have hqty : Desk.emittedQty ⟨d.executor.sent s, t :: d.ticks, (t, targetOf targets s - d.emittedQty) :: d.children⟩ =
      targetOf targets s := by
    unfold Desk.emittedQty
    rw [map_cons, sum_cons, Int.sub_add_cancel]
  have hnew : p.slotOf t ∉ d.slots p := by
    intro hm
    obtain ⟨c, hc, heq⟩ := mem_map.mp hm
    rcases hslot with ⟨hw, rfl⟩ | ⟨-, -, hnil, -⟩
    · have hlt := (h.processed c hc).2 ⟨h.started c hc, heq.trans_lt hw.2⟩
      omega
    · rw [hnil] at hc
      cases hc
  refine ⟨hsound, ?_, ?_, ?_, fun _ => ?_, fun u hu hw => ?_, nodup_cons.mpr ⟨hnew, h.nodup⟩, fun c hc => ?_,
    fun c hc => ?_, fun u hu hw => ?_, ?_, Desk.allows_latest ht⟩
  · exact h.schedule
  · rw [hqty, ← h.schedule]
    rfl
  · exact Int.add_nonneg (hnonneg.trans hturn) (by decide)
  · rcases hslot with ⟨hw, rfl⟩ | ⟨hl, -⟩
    · exact .inl ⟨t, mem_cons_self, hw, (Int.add_sub_cancel ..).symm⟩
    · exact .inr ⟨t, mem_cons_self, hl⟩
  · rcases hslot with ⟨-, rfl⟩ | ⟨hl, -, -, hnone⟩
    · left
      rcases mem_cons.mp hu with rfl | hu
      · exact Int.lt_succ _
      · exact Int.lt_add_one_iff.mpr (ParentOrder.slotOf_mono (ht.2 u hu))
    · rcases mem_cons.mp hu with rfl | hu
      · exact absurd hl (not_le.mpr hw.2)
      · exact absurd hw (hnone u hu)
  · rcases mem_cons.mp hc with rfl | hc
    · exact hstart
    · exact h.started c hc
  · refine ⟨Int.lt_add_one_iff.mpr (hnonneg.trans hturn), fun hw => ?_⟩
    rcases mem_cons.mp hc with rfl | hc
    · rcases hslot with ⟨-, rfl⟩ | ⟨hl, -⟩
      · exact Int.lt_succ _
      · exact absurd hl (not_le.mpr hw.2)
    · exact ((h.processed c hc).2 hw).trans (Int.lt_add_one_iff.mpr hturn)
  · rw [hqty]
    rcases mem_cons.mp hu with rfl | hu
    · rcases hslot with ⟨-, rfl⟩ | ⟨hl, -⟩
      · exact le_rfl
      · exact absurd hl (not_le.mpr hw.2)
    · exact (h.above u hu hw).trans hmiss.le
  · rw [hqty]
    rcases hslot with ⟨hw, rfl⟩ | ⟨hl, hle, -, hnone⟩
    · exact .inr (.inl ⟨t, mem_cons_self, hw, rfl⟩)
    · refine .inr (.inr ⟨fun u hu => ?_, hle⟩)
      rcases mem_cons.mp hu with rfl | hu
      · exact fun hw => not_le.mpr hw.2 hl
      · exact hnone u hu

/-- A tick whose slot has its turn. -/
theorem turn {s : Int} (hp : Scheduled p targets) (ht : d.allows vwap (.onTick t)) (hstart : p.startTsSec ≤ t)
    (hopen : d.executor.stats.filledQty < p.totalQty) (hturn : d.executor.nextSlotToProcess ≤ s) (hs : p.slot t = s)
    (hlt : s < p.numSlices) (hslot : p.inWindow t ∧ p.slotOf t = s ∨ p.numSlices ≤ p.slotOf t ∧ d.children = [] ∧
      ∀ u ∈ d.ticks, ¬ p.inWindow u) : (d.step vwap (.onTick t)).Follows p targets := by
  have hparent : d.executor.parent = p := h.sound.parent
  have hfilled : 0 ≤ d.executor.stats.filledQty ∧ d.executor.stats.filledQty ≤ d.emittedQty :=
    ⟨h.sound.filled_nonneg, h.sound.filled_le⟩
  have hnonneg := h.next_nonneg
  have htarget := hp.target ⟨hnonneg.trans hturn, hlt⟩
  have hx := d.executor.onTick_turn (t := t) (by rw [hparent]; exact hp.numSlices_pos) (by rw [hparent]; exact hstart)
    (by rw [hparent]; exact hopen) (by rw [hparent, hs]; exact hturn) (by rw [hparent, hs]; exact hlt)
    (by rw [hparent, h.emitted]; exact ⟨hfilled.1.trans hfilled.2, h.emittedQty_le hp⟩)
    (by rw [hparent, hs, h.schedule]; exact htarget)
  rw [hparent, hs, h.schedule, h.emitted] at hx
  split at hx
  · rename_i hmet
    refine h.idle ht hx rfl rfl ?_ (fun _ => ?_) fun hw => ?_
    · exact hturn.trans (Int.le_add_one le_rfl)
    · rcases hslot with ⟨hw, rfl⟩ | ⟨hl, -⟩
      · exact .inl ⟨t, mem_cons_self, hw, (Int.add_sub_cancel ..).symm⟩
      · exact .inr ⟨t, mem_cons_self, hl⟩
    · rcases hslot with ⟨-, rfl⟩ | ⟨hl, -⟩
      · exact ⟨.inl (Int.lt_succ _), by omega⟩
      · exact absurd hl (not_le.mpr hw.2)
  · refine h.sends ht (by omega) hx hstart hturn (hslot.imp_right fun hout => ?_)
    exact ⟨hout.1, htarget.2, hout.2⟩

theorem tick_in (hp : Scheduled p targets) (ht : d.allows vwap (.onTick t)) (hin : p.inWindow t) :
    (d.step vwap (.onTick t)).Follows p targets := by
  have hparent : d.executor.parent = p := h.sound.parent
  have hslot := ParentOrder.slot_eq hin
  have hfilled : d.executor.stats.filledQty ≤ d.emittedQty := h.sound.filled_le
  by_cases hopen : d.executor.stats.filledQty < p.totalQty
  · by_cases hturn : d.executor.nextSlotToProcess ≤ p.slotOf t
    · exact h.turn hp ht hin.1 hopen hturn hslot hin.2 (.inl ⟨hin, rfl⟩)
    · -- the last slot processed is the one of the tick
      have hlt := not_le.mp hturn
      refine h.quiet ht (VWAPExecutor.onTick_quiet (by rw [hparent, hslot]; omega)) fun _ => ⟨.inl hlt, ?_⟩
      have hpos := (ParentOrder.slotOf_nonneg hin.1).trans_lt hlt
      rcases h.next hpos with ⟨u, hu, hw, heq⟩ | ⟨u, hu, hl⟩
      · have hmono := ParentOrder.slotOf_mono (p := p) (ht.2 u hu)
        have hsame : p.slotOf t = p.slotOf u := by omega
        rw [hsame]
        exact h.above u hu hw
      · exact absurd hl (Desk.allows_not_late ht hin hu)
  · have hfull : p.totalQty ≤ d.emittedQty := by omega
    refine h.quiet ht (VWAPExecutor.onTick_quiet (by rw [hparent]; omega)) fun _ => ⟨.inr hfull, ?_⟩
    exact (hp.target ⟨ParentOrder.slotOf_nonneg hin.1, hin.2⟩).2.trans hfull

/-- Out of the window nothing is sent, but for the first slot when the clock has wrapped and no slot was processed. -/
theorem tick_out (hp : Scheduled p targets) (ht : d.allows vwap (.onTick t)) (hout : ¬ p.inWindow t) :
    (d.step vwap (.onTick t)).Follows p targets := by
  have hparent : d.executor.parent = p := h.sound.parent
  by_cases hc : t < p.startTsSec ∨ p.totalQty ≤ d.executor.stats.filledQty ∨
      p.slot t < d.executor.nextSlotToProcess ∨ p.numSlices ≤ p.slot t
  · exact h.quiet ht (VWAPExecutor.onTick_quiet (by rw [hparent]; exact hc)) fun hin => absurd hin hout
  · push Not at hc
    obtain ⟨hstart, hopen, hturn, hlt⟩ := hc
    have hlate : p.numSlices ≤ p.slotOf t := not_lt.mp fun hc => hout ⟨hstart, hc⟩
    have hslot : p.slot t ≤ 0 := (ParentOrder.slot_late ht.1 hstart hlate).resolve_right (not_le.mpr hlt)
    have hnext : d.executor.nextSlotToProcess ≤ 0 := hturn.trans hslot
    have hnil : d.children = [] :=
      eq_nil_iff_forall_not_mem.mpr fun c hc => absurd (h.processed c hc).1 (not_lt.mpr hnext)
    refine h.turn hp ht hstart hopen hturn rfl hlt (.inr ⟨hlate, hnil, fun u hu hw => ?_⟩)
    have hfilled : 0 ≤ d.executor.stats.filledQty := h.sound.filled_nonneg
    have hzero : d.emittedQty = 0 := by
      unfold Desk.emittedQty
      rw [hnil]
      rfl
    have hpos := ParentOrder.slotOf_nonneg hw.1
    rcases h.ticked u hu hw with hlt | hfull
    · omega
    · omega

theorem fill {q c : Int} (he : d.allows vwap (.applyFill q c)) : (d.step vwap (.applyFill q c)).Follows p targets :=
  ⟨h.sound.step vwap_fair he, h.schedule, h.emitted, h.next_nonneg, h.next, h.ticked, h.nodup, h.started, h.processed,
    h.above, h.attained, h.latest⟩

theorem step (hp : Scheduled p targets) (he : d.allows vwap e) : (d.step vwap e).Follows p targets := by
  cases e with
  | applyFill q c => exact h.fill he
  | onTick t =>
    by_cases hin : p.inWindow t
    · exact h.tick_in hp he hin
    · exact h.tick_out hp he hin

theorem run (hp : Scheduled p targets) (hl : d.lawful vwap es) : (d.run vwap es).Follows p targets := by
  induction es generalizing d with
  | nil => exact h
  | cons e es ih => exact ih (h.step hp hl.1) hl.2

end Desk.Follows

/-- What a VWAP promises of a run: a slot sends once, never more than the order, all of it once a tick fell into the last
    slot; after a tick in the window what was sent is the highest target of the slots up to it that had one. -/
structure VwapKeeps (p : ParentOrder) (targets : List Int) (es : List Event) : Prop where
  once : (((vwapDesk p targets).run vwap es).slots p).Nodup
  total : ((vwapDesk p targets).run vwap es).emittedQty ≤ p.totalQty
  last : (∃ t ∈ ((vwapDesk p targets).run vwap es).ticks, p.startTsSec ≤ t ∧ p.slotOf t = p.numSlices - 1) →
    ((vwapDesk p targets).run vwap es).emittedQty = p.totalQty
  peak : ∀ t, ((vwapDesk p targets).run vwap es).ticks.head? = some t → p.inWindow t →
    IsGreatest {n | ∃ u ∈ ((vwapDesk p targets).run vwap es).ticks, p.inWindow u ∧ p.slotOf u ≤ p.slotOf t ∧
      n = targetOf targets (p.slotOf u)} ((vwapDesk p targets).run vwap es).emittedQty

/-- For any targets of the slots that stay within the order and end with it, a VWAP keeps to its schedule in every run. -/
theorem vwap_keeps (p : ParentOrder) (targets : List Int) (es : List Event) (hp : Scheduled p targets)
    (hl : (vwapDesk p targets).lawful vwap es) : VwapKeeps p targets es := by
  have hrun := (vwapDesk_follows p targets).run hp hl
  have htotal := hrun.emittedQty_le hp
  constructor
  case once => exact hrun.nodup
  case total => exact htotal
  case last =>
    intro hlast
    obtain ⟨t, ht, hstart, hslot⟩ := hlast
    have habove := hrun.above t ht ⟨hstart, by omega⟩
    rw [hslot, hp.target_last] at habove
    exact le_antisymm htotal habove
  case peak =>
    intro t ht hin
    have hmem := List.mem_of_mem_head? ht
    constructor
    · rcases hrun.attained with h0 | ⟨u, hu, hw, heq⟩ | ⟨hnone, -⟩
      · have hle := hrun.above t hmem hin
        have hnonneg := (hp.target ⟨ParentOrder.slotOf_nonneg hin.1, hin.2⟩).1
        rw [h0] at hle ⊢
        exact ⟨t, hmem, hin, le_rfl, le_antisymm hnonneg hle⟩
      · exact ⟨u, hu, hw, ParentOrder.slotOf_mono (hrun.latest t ht u hu), heq⟩
      · exact absurd hin (hnone t hmem)
    · intro n hn
      obtain ⟨u, hu, hw, -, rfl⟩ := hn
      exact hrun.above u hu hw

/-- A schedule that goes down once, a slot without a tick, and a fill that comes late. -/
theorem vwap_keeps_small : VwapKeeps { totalQty := 10, durationSec := 40, numSlices := 4 } [6, 3, 8, 10]
    [.onTick 0, .onTick 5, .onTick 12, .applyFill 6 100, .onTick 31, .onTick 39, .applyFill 4 99] :=
  vwap_keeps _ _ _ ⟨by decide, by decide, by decide⟩ (by decide +kernel)

/-! ## The schedule of a profile -/

theorem targetsFrom_length (p : ParentOrder) (profile : List ℚ) (n i : Nat) (cum : ℚ) :
    (VWAPExecutor.targetsFrom p profile n i cum).length = n := by
  induction n generalizing i cum with
  | zero => rfl
  | succ n ih => simp [VWAPExecutor.targetsFrom, ih]

theorem targetsFrom_last (hn : (i + n : Int) = p.numSlices) (h0 : n ≠ 0) :
    (VWAPExecutor.targetsFrom p profile n i cum).getLast? = some p.totalQty := by
  induction n generalizing i cum with
  | zero => exact absurd rfl h0
  | succ n ih =>
    rw [VWAPExecutor.targetsFrom]
    rcases Nat.eq_zero_or_pos n with rfl | hpos
    · have hi : (i : Int) = p.numSlices - 1 := by omega
      simp [VWAPExecutor.targetsFrom, hi]
    · have hlast := @ih (i + 1) (cum + profile.getD i 0) (by push_cast at hn ⊢; omega) (by omega)
      rw [List.getLast?_cons, hlast]
      rfl

/-- The fractions summed so far and those to come make up no more than one. -/
theorem targetsFrom_bounded (hq : 0 ≤ p.totalQty) (hprofile : ∀ x ∈ profile, 0 ≤ x) (h0 : 0 ≤ cum)
    (h1 : cum + (profile.drop i).sum ≤ 1) : ∀ m ∈ VWAPExecutor.targetsFrom p profile n i cum, 0 ≤ m ∧ m ≤ p.totalQty := by
  induction n generalizing i cum with
  | zero =>
    intro m hm
    cases hm
  | succ n ih =>
    have hfrac : 0 ≤ profile.getD i 0 ∧ cum + profile.getD i 0 + (profile.drop (i + 1)).sum ≤ 1 := by
      rw [getD_eq_getElem?_getD]
      rcases Nat.lt_or_ge i profile.length with hlt | hge
      · rw [drop_eq_getElem_cons hlt, sum_cons, ← add_assoc] at h1
        rw [List.getElem?_eq_getElem hlt, Option.getD_some]
        exact ⟨hprofile _ (getElem_mem hlt), h1⟩
      · rw [drop_eq_nil_of_le hge] at h1
        rw [List.getElem?_eq_none hge, Option.getD_none, drop_eq_nil_of_le (hge.trans (Nat.le_succ i)), add_zero]
        exact ⟨le_rfl, h1⟩
    have hcum : 0 ≤ cum + profile.getD i 0 := add_nonneg h0 hfrac.1
    have hrest : 0 ≤ (profile.drop (i + 1)).sum := sum_nonneg fun x hx => hprofile x (mem_of_mem_drop hx)
    intro m hm
    rw [VWAPExecutor.targetsFrom] at hm
    rcases mem_cons.mp hm with rfl | hm
    · split
      · exact ⟨hq, le_rfl⟩
      · have hqty : (0 : ℚ) ≤ p.totalQty := by exact_mod_cast hq
        have hprod : (cum + profile.getD i 0) * p.totalQty ≤ p.totalQty := mul_le_of_le_one_left hqty (by linarith)
        have hshares : 0 ≤ (cum + profile.getD i 0) * p.totalQty + 1 / 2 := by positivity
        rw [truncate_nonneg hshares]
        refine ⟨Int.floor_nonneg.mpr hshares, Int.lt_add_one_iff.mp (Int.floor_lt.mpr ?_)⟩
        push_cast
        linarith
    · exact ih hcum hfrac.2 m hm

/-- The constructor schedules any profile without negative entries, of whatever sum and length. -/
theorem new_scheduled (hq : 0 ≤ p.totalQty) (hn : 0 < p.numSlices) (hprofile : ∀ x ∈ profile, 0 ≤ x) :
    Scheduled p (VWAPExecutor.new p profile).targetCumulative := by
  have hscaled : (∀ x ∈ (if 0 < profile.sum then profile.map (· / profile.sum) else profile), 0 ≤ x) ∧
      (if 0 < profile.sum then profile.map (· / profile.sum) else profile).sum ≤ 1 := by
    split
    · rename_i hsum
      refine ⟨fun x hx => ?_, ?_⟩
      · obtain ⟨y, hy, rfl⟩ := mem_map.mp hx
        exact div_nonneg (hprofile y hy) hsum.le
      · have hone : (profile.map (· / profile.sum)).sum = 1 := by
          simp only [div_eq_mul_inv]
          rw [sum_map_mul_right, map_id', mul_inv_cancel₀ hsum.ne']
        exact hone.le
    · rename_i hsum
      exact ⟨hprofile, (not_lt.mp hsum).trans zero_le_one⟩
  constructor
  · exact targetsFrom_length ..
  · exact targetsFrom_bounded hq hscaled.1 le_rfl (by simpa using hscaled.2)
  · exact targetsFrom_last (by push_cast; omega) (by omega)

end

/-- A profile that sums up to 4, and one slot without any. -/
theorem new_scheduled_three :
    Scheduled { totalQty := 100, startTsSec := 0, durationSec := 30, numSlices := 3 }
      (VWAPExecutor.new { totalQty := 100, startTsSec := 0, durationSec := 30, numSlices := 3 } [1, 0, 3]).targetCumulative :=
  new_scheduled (by decide) (by decide) (by decide +kernel)

end HftLab.Strategy
