/-
  HftLab.Strategy.ExecAlgo — the execution algorithms (exec_algo.hpp): TWAP and VWAP slice a parent order over time.

  Times and quantities are 32-bit values; the sums of fills have 64 bits and are taken as exact. The profile of a VWAP
  is made of exact rationals. Symbol and side of the parent, which no slicer reads, are left out.
-/

import HftLab.Lib.Int32
import HftLab.Lib.Rounding

namespace HftLab.Strategy

open Lib List

/-! ## Orders -/

structure ParentOrder where
  totalQty : Int := 0
  startTsSec : Int := 0
  durationSec : Int := 0
  numSlices : Int := 0
  int32 : IsInt32 totalQty ∧ IsInt32 startTsSec ∧ IsInt32 durationSec ∧ IsInt32 numSlices := by decide

structure ChildOrder where
  qty : Int := 0
  /-- 0 is a market order. -/
  priceTicks : Int := 0
  valid : Bool := false
  deriving DecidableEq, Repr

structure ExecStats where
  filledQty : Int := 0
  cashTicks : Int := 0
  numFills : Int := 0
  slicesEmitted : Int := 0
  slicesSkipped : Int := 0
  deriving DecidableEq, Repr

namespace ExecStats

/-- The average price of the fills. -/
def realizedVwapTicks (s : ExecStats) : Int := if 0 < s.filledQty then i32 (s.cashTicks.tdiv s.filledQty) else 0

def applyFill (s : ExecStats) (qty priceTicks : Int) : ExecStats :=
  if qty ≤ 0 ∨ priceTicks ≤ 0 then s
  else
    { s with
      filledQty := s.filledQty + qty
      cashTicks := s.cashTicks + qty * priceTicks
      numFills := s.numFills + 1 }

end ExecStats

namespace ParentOrder

variable (p : ParentOrder)

def secondsPerSlice : Int := if 0 < p.numSlices then max 1 (p.durationSec.tdiv p.numSlices) else 1

/-- The slot of a tick, as the slicers compute it. -/
def slot (nowSec : Int) : Int := (i32 (nowSec - p.startTsSec)).tdiv p.secondsPerSlice

end ParentOrder

/-! ## TWAP -/

structure TWAPExecutor where
  parent : ParentOrder
  /-- Of every slot but the last, which gets the rest. -/
  sliceSize : Int
  stats : ExecStats := {}

namespace TWAPExecutor

/-- The constructor. -/
def new (parent : ParentOrder) : TWAPExecutor :=
  { parent, sliceSize := if 0 < parent.numSlices then parent.totalQty.tdiv parent.numSlices else 0 }

variable (x : TWAPExecutor)

def onTick (nowSec : Int) : ChildOrder × TWAPExecutor :=
  let p := x.parent
  if p.numSlices ≤ 0 ∨ p.totalQty ≤ x.stats.filledQty then ({}, x)
  else if nowSec < p.startTsSec then ({}, x)
  else
    let slot := p.slot nowSec
    if slot < x.stats.slicesEmitted then ({}, x)
    else if p.numSlices ≤ slot then ({}, x)
    else
      let qty := if slot = p.numSlices - 1 then i32 (p.totalQty - i32 (x.sliceSize * (p.numSlices - 1))) else x.sliceSize
      -- no more than remains of the total
      let remaining := i32 (p.totalQty - i32 x.stats.filledQty)
      let qty := if remaining < qty then remaining else qty
      if qty ≤ 0 then ({}, x)
      else ({ qty, valid := true }, { x with stats := { x.stats with slicesEmitted := x.stats.slicesEmitted + 1 } })

def applyFill (qty priceTicks : Int) : TWAPExecutor := { x with stats := x.stats.applyFill qty priceTicks }

end TWAPExecutor

/-! ## VWAP -/

structure VWAPExecutor where
  parent : ParentOrder
  /-- Shares by the end of each slot. -/
  targetCumulative : List Int
  nextSlotToProcess : Int := 0
  totalEmittedQty : Int := 0
  stats : ExecStats := {}

namespace VWAPExecutor

/-- The rounded targets of the slots from `i` on, `n` of them, after the fraction `cum`. -/
def targetsFrom (parent : ParentOrder) (profile : List ℚ) : Nat → Nat → ℚ → List Int
  | 0, _, _ => []
  | n + 1, i, cum =>
    let cum := cum + profile.getD i 0
    let target := truncate (cum * parent.totalQty + 1 / 2)
    -- the last slot is exact
    (if (i : Int) = parent.numSlices - 1 then parent.totalQty else target) :: targetsFrom parent profile n (i + 1) cum

/-- The constructor: the profile is rescaled to the sum 1. -/
def new (parent : ParentOrder) (volumeProfile : List ℚ) : VWAPExecutor :=
  let sum := volumeProfile.sum
  let profile := if 0 < sum then volumeProfile.map (· / sum) else volumeProfile
  { parent, targetCumulative := targetsFrom parent profile parent.numSlices.toNat 0 0 }

variable (x : VWAPExecutor)

def onTick (nowSec : Int) : ChildOrder × VWAPExecutor :=
  let p := x.parent
  if p.numSlices ≤ 0 ∨ p.totalQty ≤ x.stats.filledQty then ({}, x)
  else if nowSec < p.startTsSec then ({}, x)
  else
    let slot := p.slot nowSec
    if slot < x.nextSlotToProcess then ({}, x)
    else if p.numSlices ≤ slot then ({}, x)
    else
      let qty := i32 (x.targetCumulative.getD slot.toNat 0 - x.totalEmittedQty)
      -- whatever the quantity, the slot is done with
      let x := { x with nextSlotToProcess := slot + 1 }
      if qty ≤ 0 then ({}, { x with stats := { x.stats with slicesSkipped := x.stats.slicesSkipped + 1 } })
      else
        ({ qty, valid := true },
          { x with
            totalEmittedQty := i32 (x.totalEmittedQty + qty)
            stats := { x.stats with slicesEmitted := x.stats.slicesEmitted + 1 } })

def applyFill (qty priceTicks : Int) : VWAPExecutor := { x with stats := x.stats.applyFill qty priceTicks }

end VWAPExecutor

/-! ## Runs -/

inductive Event where
  | onTick (nowSec : Int)
  | applyFill (qty priceTicks : Int)
  deriving DecidableEq, Repr

/-- What a run needs to know of a slicer. -/
structure Slicer (X : Type) where
  parent : X → ParentOrder
  filledQty : X → Int
  onTick : X → Int → ChildOrder × X
  applyFill : X → Int → Int → X

/-- A slicer and its history: the times of the ticks, and the children with the time and the quantity of each. The
    latest comes first. -/
structure Desk (X : Type) where
  executor : X
  ticks : List Int := []
  children : List (Int × Int) := []

def twap : Slicer TWAPExecutor := ⟨(·.parent), (·.stats.filledQty), TWAPExecutor.onTick, TWAPExecutor.applyFill⟩

def vwap : Slicer VWAPExecutor := ⟨(·.parent), (·.stats.filledQty), VWAPExecutor.onTick, VWAPExecutor.applyFill⟩

namespace Desk

variable {X : Type} (S : Slicer X) (d : Desk X)

def emittedQty : Int := (d.children.map Prod.snd).sum

def step : Event → Desk X
  | .onTick nowSec =>
    let (o, x) := S.onTick d.executor nowSec
    { executor := x
      ticks := nowSec :: d.ticks
      children := if o.valid then (nowSec, o.qty) :: d.children else d.children }
  | .applyFill qty priceTicks => { d with executor := S.applyFill d.executor qty priceTicks }

def run (es : List Event) : Desk X := es.foldl (step S) d

/-- Time does not go back, and no more is filled than was emitted. -/
def allows : Event → Prop
  | .onTick nowSec => IsInt32 nowSec ∧ ∀ t ∈ d.ticks, t ≤ nowSec
  | .applyFill qty priceTicks => S.filledQty (S.applyFill d.executor qty priceTicks) ≤ d.emittedQty

instance (e : Event) : Decidable (d.allows S e) :=
  match e with
  | .onTick _ => inferInstanceAs (Decidable (_ ∧ _))
  | .applyFill .. => inferInstanceAs (Decidable (_ ≤ _))

/-- Every event of the run is allowed. -/
def lawful : Desk X → List Event → Prop
  | _, [] => True
  | d, e :: es => d.allows S e ∧ lawful (d.step S e) es

instance decidableLawful : (d : Desk X) → (es : List Event) → Decidable (d.lawful S es)
  | _, [] => isTrue trivial
  | d, e :: es => @instDecidableAnd _ _ _ (decidableLawful (d.step S e) es)

end Desk

/-! ## Time slots -/

theorem tdiv_nonpos {a b : Int} (ha : a ≤ 0) (hb : 0 ≤ b) : a.tdiv b ≤ 0 := by
  have h := Int.tdiv_nonneg (Int.neg_nonneg_of_nonpos ha) hb
  rw [Int.neg_tdiv] at h
  omega

namespace ParentOrder

variable (p : ParentOrder) {s t t' : Int}

/-- The time slot, computed without a bound. -/
def slotOf (t : Int) : Int := (t - p.startTsSec) / p.secondsPerSlice

def inWindow (t : Int) : Prop := p.startTsSec ≤ t ∧ p.slotOf t < p.numSlices

instance (t : Int) : Decidable (p.inWindow t) := inferInstanceAs (Decidable (_ ∧ _))

variable {p}

theorem secondsPerSlice_pos (p : ParentOrder) : 0 < p.secondsPerSlice := by
  unfold secondsPerSlice
  split <;> omega

theorem slotOf_nonneg (h : p.startTsSec ≤ t) : 0 ≤ p.slotOf t :=
  Int.ediv_nonneg (Int.sub_nonneg_of_le h) p.secondsPerSlice_pos.le

theorem slotOf_mono (h : t ≤ t') : p.slotOf t ≤ p.slotOf t' :=
  Int.ediv_le_ediv p.secondsPerSlice_pos (Int.sub_le_sub_right h _)

/-- The seconds of the window fit in 32 bits. -/
theorem window_le (h : 0 < p.numSlices) : p.numSlices * p.secondsPerSlice ≤ int32Max := by
  obtain ⟨-, -, ⟨-, hd⟩, -, hn⟩ := p.int32
  unfold secondsPerSlice
  rw [if_pos h]
  rcases le_total 0 p.durationSec with h0 | h0
  · rw [Int.tdiv_eq_ediv_of_nonneg h0]
    rcases max_choice 1 (p.durationSec / p.numSlices) with hm | hm
    · rw [hm, Int.mul_one]
      exact hn
    · rw [hm]
      exact (Int.mul_ediv_self_le h.ne').trans hd
  · have hq : p.durationSec.tdiv p.numSlices ≤ 0 := tdiv_nonpos h0 h.le
    rw [max_eq_left (by omega), Int.mul_one]
    exact hn

/-- Within the window the slicers compute the time slot. -/
theorem slot_eq (h : p.inWindow t) : p.slot t = p.slotOf t := by
  obtain ⟨hstart, hlt⟩ := h
  have hn : 0 < p.numSlices := (slotOf_nonneg hstart).trans_lt hlt
  have helapsed : t - p.startTsSec < p.numSlices * p.secondsPerSlice :=
    (Int.ediv_lt_iff_lt_mul p.secondsPerSlice_pos).mp hlt
  have hwindow := window_le hn
  have hfits : IsInt32 (t - p.startTsSec) := by
    refine ⟨?_, by omega⟩
    simp only [int32Min]
    omega
  rw [slot, i32_eq hfits, slotOf, Int.tdiv_eq_ediv_of_nonneg (by omega)]

/-- After the window a slicer computes a slot that is past the last, or that is not past the first. -/
theorem slot_late (ht : IsInt32 t) (hstart : p.startTsSec ≤ t) (h : p.numSlices ≤ p.slotOf t) :
    p.slot t ≤ 0 ∨ p.numSlices ≤ p.slot t := by
  obtain ⟨-, ⟨hs, -⟩, -, -⟩ := p.int32
  obtain ⟨-, ht⟩ := ht
  simp only [int32Min, int32Max] at hs ht
  by_cases hfits : t - p.startTsSec ≤ int32Max
  · right
    have hi : IsInt32 (t - p.startTsSec) := by
      refine ⟨?_, hfits⟩
      simp only [int32Min]
      omega
    rwa [slot, i32_eq hi, Int.tdiv_eq_ediv_of_nonneg (by omega)]
  · left
    have hwrap : i32 (t - p.startTsSec) ≤ 0 := by
      simp only [int32Max] at hfits
      unfold i32 Int.bmod
      dsimp only
      split <;> omega
    exact tdiv_nonpos hwrap p.secondsPerSlice_pos.le

end ParentOrder

/-! ## Fair slicers -/

section

variable {X : Type}

/-- The slots that sent a child, by the times of their ticks. -/
def Desk.slots (p : ParentOrder) (d : Desk X) : List Int := d.children.map fun c => p.slotOf c.1

/-- A slicer keeps its parent order, fills only add up, and a child has a quantity. -/
structure Slicer.Fair (S : Slicer X) : Prop where
  onTick_parent : ∀ x t, S.parent (S.onTick x t).2 = S.parent x
  applyFill_parent : ∀ x q c, S.parent (S.applyFill x q c) = S.parent x
  onTick_filled : ∀ x t, S.filledQty (S.onTick x t).2 = S.filledQty x
  applyFill_filled : ∀ x q c, S.filledQty x ≤ S.filledQty (S.applyFill x q c)
  qty_pos : ∀ x t, (S.onTick x t).1.valid = true → 0 < (S.onTick x t).1.qty

/-- What holds of every desk that works on `p` with a fair slicer. -/
structure Desk.Sound (S : Slicer X) (p : ParentOrder) (d : Desk X) : Prop where
  parent : S.parent d.executor = p
  filled_nonneg : 0 ≤ S.filledQty d.executor
  filled_le : S.filledQty d.executor ≤ d.emittedQty
  pos : ∀ c ∈ d.children, 0 < c.2
  times : ∀ c ∈ d.children, c.1 ∈ d.ticks
  int32 : ∀ t ∈ d.ticks, IsInt32 t

variable {S : Slicer X} {p : ParentOrder} {d : Desk X} {e : Event} {t : Int} {x : X}

theorem ExecStats.applyFill_filled (s : ExecStats) (q c : Int) : s.filledQty ≤ (s.applyFill q c).filledQty := by
  unfold ExecStats.applyFill
  split
  · exact le_rfl
  · dsimp only
    omega

theorem Desk.step_quiet (h : S.onTick d.executor t = ({}, x)) :
    d.step S (.onTick t) = { d with executor := x, ticks := t :: d.ticks } := by
  simp [Desk.step, h]

theorem Desk.step_sends {q : Int} (h : S.onTick d.executor t = ({ qty := q, valid := true }, x)) :
    d.step S (.onTick t) = { executor := x, ticks := t :: d.ticks, children := (t, q) :: d.children } := by
  simp [Desk.step, h]

theorem Desk.slots_step (S : Slicer X) (p : ParentOrder) (d : Desk X) (e : Event) : d.slots p <:+ (d.step S e).slots p := by
  cases e with
  | applyFill q c => exact suffix_rfl
  | onTick t =>
    unfold Desk.step
    dsimp only
    split
    · exact suffix_cons _ _
    · exact suffix_rfl

theorem Desk.slots_run (S : Slicer X) (p : ParentOrder) (d : Desk X) (es : List Event) : d.slots p <:+ (d.run S es).slots p := by
  induction es generalizing d with
  | nil => exact suffix_rfl
  | cons e es ih => exact (d.slots_step S p e).trans (ih _)

theorem Desk.Sound.step (h : d.Sound S p) (hS : S.Fair) (he : d.allows S e) : (d.step S e).Sound S p := by
  cases e with
  | applyFill q c =>
    refine ⟨?_, h.filled_nonneg.trans (hS.applyFill_filled ..), he, h.pos, h.times, h.int32⟩
    exact (hS.applyFill_parent ..).trans h.parent
  | onTick t =>
    have hnew : ∀ s ∈ t :: d.ticks, IsInt32 s := by
      intro s hs
      rcases mem_cons.mp hs with rfl | hs
      · exact he.1
      · exact h.int32 s hs
    have hfilled : S.filledQty (S.onTick d.executor t).2 = S.filledQty d.executor := hS.onTick_filled ..
    have hparent : S.parent (S.onTick d.executor t).2 = p := (hS.onTick_parent ..).trans h.parent
    have hold : ∀ c ∈ d.children, c.1 ∈ t :: d.ticks := fun c hc => mem_cons_of_mem t (h.times c hc)
    unfold Desk.step
    dsimp only
    split
    · rename_i hvalid
      have hpos := hS.qty_pos _ _ hvalid
      have hle := h.filled_le
      refine ⟨hparent, hfilled ▸ h.filled_nonneg, ?_, ?_, ?_, hnew⟩
      · rw [Desk.emittedQty] at hle ⊢
        rw [map_cons, sum_cons, hfilled]
        exact hle.trans (le_add_of_nonneg_left hpos.le)
      · intro c hc
        rcases mem_cons.mp hc with rfl | hc
        · exact hpos
        · exact h.pos c hc
      · intro c hc
        rcases mem_cons.mp hc with rfl | hc
        · exact mem_cons_self
        · exact hold c hc
    · exact ⟨hparent, hfilled ▸ h.filled_nonneg, hfilled ▸ h.filled_le, h.pos, hold, hnew⟩

end

end HftLab.Strategy
