/-
  HftLab.Strategy.Twap — how much a TWAP sends, and how often in a slot.

  `on_tick` compares the slot of the tick with the number of children it has sent. The two are in step as long as every
  slot so far has sent its child. After a slot that did not, because no tick fell into it or because there are fewer
  shares than slots, a later slot may send a second child, and the shares that are sent but not filled count as not
  sent. `twap_keeps_iff`: a run keeps to its quantity if and only if no tick hits a slot that has sent its child while an
  earlier one has not.
-/

import HftLab.Strategy.ExecAlgo
import Mathlib.Algebra.BigOperators.Intervals
import Mathlib.Algebra.Order.BigOperators.Group.Finset
import Mathlib.Data.Int.ConditionallyCompleteOrder
import Mathlib.Data.Int.Interval

namespace HftLab.Strategy

open Lib List

/-! ## What a slot is to send -/

/-- The child of a slot: equal shares, and the last slot has the rest. -/
def ParentOrder.size (p : ParentOrder) (s : Int) : Int :=
  if s = p.numSlices - 1 then p.totalQty - p.totalQty / p.numSlices * (p.numSlices - 1) else p.totalQty / p.numSlices

namespace ParentOrder

variable {p : ParentOrder} {s : Int}

theorem size_nonneg (hq : 0 < p.totalQty) (hn : 0 < p.numSlices) (s : Int) : 0 ≤ p.size s := by
  have hslice : 0 ≤ p.totalQty / p.numSlices := Int.ediv_nonneg hq.le hn.le
  have hle : p.totalQty / p.numSlices * p.numSlices ≤ p.totalQty := Int.ediv_mul_le _ hn.ne'
  unfold size
  split
  · rw [Int.mul_sub, Int.mul_one]
    omega
  · exact hslice

theorem size_last (hq : 0 < p.totalQty) (hn : 0 < p.numSlices) : 0 < p.size (p.numSlices - 1) := by
  have hslice : 0 ≤ p.totalQty / p.numSlices := Int.ediv_nonneg hq.le hn.le
  have hle : p.totalQty / p.numSlices * p.numSlices ≤ p.totalQty := Int.ediv_mul_le _ hn.ne'
  unfold size
  rw [if_pos rfl, Int.mul_sub, Int.mul_one]
  rcases hslice.eq_or_lt with h0 | h0
  · rw [← h0]
    omega
  · omega

/-- All slots together send the order. -/
theorem sum_size (hn : 0 < p.numSlices) : ∑ s ∈ Finset.Ico 0 p.numSlices, p.size s = p.totalQty := by
  have hlast : Finset.Ico 0 p.numSlices = insert (p.numSlices - 1) (Finset.Ico 0 (p.numSlices - 1)) := by
    ext s
    simp only [Finset.mem_insert, Finset.mem_Ico]
    omega
  have hrest : ∑ s ∈ Finset.Ico 0 (p.numSlices - 1), p.size s = (p.numSlices - 1) * (p.totalQty / p.numSlices) := by
    have hslice : ∀ s ∈ Finset.Ico 0 (p.numSlices - 1), p.size s = p.totalQty / p.numSlices :=
      fun s hs => if_neg (Finset.mem_Ico.mp hs).2.ne
    rw [Finset.sum_congr rfl hslice, Finset.sum_const, Int.card_Ico, nsmul_eq_mul]
    congr 1
    omega
  rw [hlast, Finset.sum_insert (by simp), hrest]
  unfold size
  rw [if_pos rfl, Int.mul_comm (p.numSlices - 1)]
  omega

/-- Some of the slots send no more than all. -/
theorem sum_size_le (hq : 0 < p.totalQty) (hn : 0 < p.numSlices) {S : Finset Int} (hS : ∀ s ∈ S, 0 ≤ s ∧ s < p.numSlices) :
    ∑ s ∈ S, p.size s ≤ p.totalQty := by
  rw [← sum_size hn]
  refine Finset.sum_le_sum_of_subset_of_nonneg (fun s hs => Finset.mem_Ico.mpr (hS s hs)) fun s _ _ => size_nonneg hq hn s

theorem size_le (hq : 0 < p.totalQty) (hn : 0 < p.numSlices) (h : 0 ≤ s ∧ s < p.numSlices) : p.size s ≤ p.totalQty := by
  have hsum := sum_size_le hq hn (S := {s}) fun i hi => by
    rw [Finset.mem_singleton.mp hi]
    exact h
  rwa [Finset.sum_singleton] at hsum

end ParentOrder

/-! ## One tick -/

namespace TWAPExecutor

variable {x : TWAPExecutor} {t : Int}

/-- One more child is sent. -/
def counted (x : TWAPExecutor) : TWAPExecutor :=
  { x with stats := { x.stats with slicesEmitted := x.stats.slicesEmitted + 1 } }

theorem onTick_quiet (h : t < x.parent.startTsSec ∨ x.parent.totalQty ≤ x.stats.filledQty ∨
    x.parent.slot t < x.stats.slicesEmitted ∨ x.parent.numSlices ≤ x.parent.slot t) : x.onTick t = ({}, x) := by
  unfold onTick
  dsimp only
  split
  · rfl
  · split
    · rfl
    · split
      · rfl
      · rename_i h1 h2 h3
        rw [if_pos (by omega)]

/-- A tick whose slot has its turn sends what the slot is to send, or what is not filled of the order. -/
theorem onTick_turn (hq : 0 < x.parent.totalQty) (hslice : x.sliceSize = x.parent.totalQty / x.parent.numSlices)
    (hfilled : 0 ≤ x.stats.filledQty) (hstart : x.parent.startTsSec ≤ t) (hopen : x.stats.filledQty < x.parent.totalQty)
    (hturn : x.stats.slicesEmitted ≤ x.parent.slot t) (hlt : x.parent.slot t < x.parent.numSlices)
    (hn : 0 < x.parent.numSlices) : x.onTick t =
      if min (x.parent.size (x.parent.slot t)) (x.parent.totalQty - x.stats.filledQty) ≤ 0 then ({}, x)
      else ({ qty := min (x.parent.size (x.parent.slot t)) (x.parent.totalQty - x.stats.filledQty), valid := true }, x.counted) := by
  obtain ⟨⟨-, htotal⟩, -⟩ := x.parent.int32
  have hdiv : 0 ≤ x.parent.totalQty / x.parent.numSlices := Int.ediv_nonneg hq.le hn.le
  have hle : x.parent.totalQty / x.parent.numSlices * x.parent.numSlices ≤ x.parent.totalQty := Int.ediv_mul_le _ hn.ne'
  have hfits : ∀ y, 0 ≤ y → y ≤ x.parent.totalQty → i32 y = y := by
    intro y h0 h1
    refine i32_eq ⟨?_, h1.trans htotal⟩
    simp only [int32Min]
    omega
  have hshares : x.parent.totalQty / x.parent.numSlices * (x.parent.numSlices - 1) =
      x.parent.totalQty / x.parent.numSlices * x.parent.numSlices - x.parent.totalQty / x.parent.numSlices := by
    rw [Int.mul_sub, Int.mul_one]
  have hmul : 0 ≤ x.parent.totalQty / x.parent.numSlices * (x.parent.numSlices - 1) := Int.mul_nonneg hdiv (by omega)
  have hsize : (if x.parent.slot t = x.parent.numSlices - 1 then
      i32 (x.parent.totalQty - i32 (x.sliceSize * (x.parent.numSlices - 1))) else x.sliceSize) =
      x.parent.size (x.parent.slot t) := by
    rw [hslice, hfits _ hmul (by omega), hfits _ (by omega) (by omega)]
    rfl
  have hleft : i32 (x.parent.totalQty - i32 x.stats.filledQty) = x.parent.totalQty - x.stats.filledQty := by
    rw [hfits _ hfilled hopen.le, hfits _ (by omega) (by omega)]
  unfold onTick
  dsimp only
  rw [if_neg (by omega), if_neg (by omega), if_neg (by omega), if_neg (by omega), hsize, hleft]
  have hmin : (if x.parent.totalQty - x.stats.filledQty < x.parent.size (x.parent.slot t) then
      x.parent.totalQty - x.stats.filledQty else x.parent.size (x.parent.slot t)) =
      min (x.parent.size (x.parent.slot t)) (x.parent.totalQty - x.stats.filledQty) := by
    rw [min_def]
    split <;> split <;> omega
  rw [hmin]
  rfl

theorem onTick_cases (x : TWAPExecutor) (t : Int) : x.onTick t = ({}, x) ∨ ∃ q, 0 < q ∧
    x.onTick t = ({ qty := q, valid := true }, x.counted) := by
  unfold onTick
  dsimp only
  repeat' split
  all_goals first
    | exact .inl rfl
    | exact .inr ⟨_, by omega, rfl⟩

end TWAPExecutor

theorem twap_fair : twap.Fair := by
  constructor
  · intro x t
    rcases x.onTick_cases t with h | ⟨q, -, h⟩
    · exact congrArg (·.2.parent) h
    · exact congrArg (·.2.parent) h
  · intro x q c
    rfl
  · intro x t
    rcases x.onTick_cases t with h | ⟨q, -, h⟩
    · exact congrArg (·.2.stats.filledQty) h
    · exact congrArg (·.2.stats.filledQty) h
  · intro x q c
    exact x.stats.applyFill_filled q c
  · intro x t hvalid
    rcases x.onTick_cases t with h | ⟨q, hq, h⟩
    · have hfalse : (twap.onTick x t).1.valid = false := congrArg (·.1.valid) h
      rw [hfalse] at hvalid
      cases hvalid
    · have hqty : (twap.onTick x t).1.qty = q := congrArg (·.1.qty) h
      rw [hqty]
      exact hq

/-! ## Runs -/

namespace Desk

variable (p : ParentOrder) (d : Desk TWAPExecutor)

/-- A slot before `s` has sent no child. -/
def gap (s : Int) : Prop := ∃ i, 0 ≤ i ∧ i < s ∧ i ∉ d.slots p

/-- The tick hits a slot that has sent its child while an earlier one has not, and the order is not filled. -/
def repeats : Event → Prop
  | .onTick t => p.inWindow t ∧ p.slotOf t ∈ d.slots p ∧ d.gap p (p.slotOf t) ∧ d.executor.stats.filledQty < p.totalQty
  | .applyFill .. => False

instance (s : Int) : Decidable (d.gap p s) :=
  decidable_of_iff (∃ k ∈ List.range s.toNat, (k : Int) ∉ d.slots p)
    ⟨fun ⟨k, hk, hg⟩ => ⟨k, by omega, by have := mem_range.mp hk; omega, hg⟩,
      fun ⟨i, h0, hi, hg⟩ => ⟨i.toNat, mem_range.mpr (by omega), by rwa [Int.toNat_of_nonneg h0]⟩⟩

instance (e : Event) : Decidable (d.repeats p e) :=
  match e with
  | .onTick _ => inferInstanceAs (Decidable (_ ∧ _ ∧ _ ∧ _))
  | .applyFill .. => isFalse id

/-- No tick of the run does. -/
def unrepeated (p : ParentOrder) : Desk TWAPExecutor → List Event → Bool
  | _, [] => true
  | d, e :: es => !decide (d.repeats p e) && unrepeated p (d.step twap e) es

/-- Whatever was sent is filled before the next tick. -/
def filledBetween : Desk TWAPExecutor → List Event → Prop
  | _, [] => True
  | d, .onTick t :: es => d.executor.stats.filledQty = d.emittedQty ∧ filledBetween (d.step twap (.onTick t)) es
  | d, .applyFill q c :: es => filledBetween (d.step twap (.applyFill q c)) es

/-- Every slot received a tick. -/
def covered : Prop := ∀ s, 0 ≤ s → s < p.numSlices → ∃ t ∈ d.ticks, p.startTsSec ≤ t ∧ p.slotOf t = s

/-- The desk while no tick has repeated: a slot that received a tick has sent its share, and none has sent twice. The
    32-bit clock may wrap and start the first slot after the window, if it is the only one that sends. -/
structure Spread : Prop where
  sound : d.Sound twap p
  slice : d.executor.sliceSize = p.totalQty / p.numSlices
  emitted : d.executor.stats.slicesEmitted = d.children.length
  nodup : (d.slots p).Nodup
  started : ∀ c ∈ d.children, p.startTsSec ≤ c.1
  sized : ∀ c ∈ d.children, p.inWindow c.1 → c.2 = p.size (p.slotOf c.1)
  late : ∀ c ∈ d.children, ¬ p.inWindow c.1 → d.children = [c] ∧ c.2 ≤ p.totalQty
  ticked : ∀ t ∈ d.ticks, p.inWindow t → p.slotOf t ∈ d.slots p ∨ p.size (p.slotOf t) = 0 ∨ p.totalQty ≤ d.emittedQty

end Desk

section

variable {p : ParentOrder} {d : Desk TWAPExecutor} {t : Int} {e : Event} {es : List Event}

theorem new_spread (hq : 0 < p.totalQty) (hn : 0 < p.numSlices) : ({ executor := .new p } : Desk TWAPExecutor).Spread p := by
  constructor
  case sound => exact ⟨rfl, le_rfl, le_rfl, by simp, by simp, by simp⟩
  case slice =>
    simp only [TWAPExecutor.new]
    rw [if_pos hn, Int.tdiv_eq_ediv_of_nonneg hq.le]
  case nodup => exact nodup_nil
  all_goals simp [TWAPExecutor.new]

namespace Desk.Spread

variable (h : d.Spread p)

include h

theorem mem_slots {s : Int} (hs : s ∈ d.slots p) : 0 ≤ s := by
  obtain ⟨c, hc, rfl⟩ := mem_map.mp hs
  exact ParentOrder.slotOf_nonneg (h.started c hc)

/-- The children that were sent in the window are as large as their slots say. -/
theorem emittedQty_eq (hin : ∀ c ∈ d.children, p.inWindow c.1) : d.emittedQty = ∑ s ∈ (d.slots p).toFinset, p.size s := by
  rw [sum_toFinset _ h.nodup]
  unfold Desk.emittedQty Desk.slots
  rw [map_map]
  exact congrArg List.sum (map_congr_left fun c hc => h.sized c hc (hin c hc))

/-- What was sent, and the share of a slot that did not send. -/
theorem emittedQty_add_le (hq : 0 < p.totalQty) (hn : 0 < p.numSlices) (hin : ∀ c ∈ d.children, p.inWindow c.1) {s : Int}
    (hs : s ∉ d.slots p) (h0 : 0 ≤ s) (hlt : s < p.numSlices) : d.emittedQty + p.size s ≤ p.totalQty := by
  have hsum := ParentOrder.sum_size_le hq hn (S := insert s (d.slots p).toFinset) fun i hi => by
    rcases Finset.mem_insert.mp hi with rfl | hi
    · exact ⟨h0, hlt⟩
    · have hi := mem_toFinset.mp hi
      obtain ⟨c, hc, rfl⟩ := mem_map.mp hi
      exact ⟨h.mem_slots hi, (hin c hc).2⟩
  rw [Finset.sum_insert (by simpa using hs), ← h.emittedQty_eq hin] at hsum
  omega

theorem emittedQty_le (hq : 0 < p.totalQty) (hn : 0 < p.numSlices) : d.emittedQty ≤ p.totalQty := by
  by_cases hin : ∀ c ∈ d.children, p.inWindow c.1
  · rw [h.emittedQty_eq hin]
    refine ParentOrder.sum_size_le hq hn fun s hs => ?_
    have hs := mem_toFinset.mp hs
    obtain ⟨c, hc, rfl⟩ := mem_map.mp hs
    exact ⟨h.mem_slots hs, (hin c hc).2⟩
  · push Not at hin
    obtain ⟨c, hc, hout⟩ := hin
    obtain ⟨hone, hle⟩ := h.late c hc hout
    unfold Desk.emittedQty
    rw [hone]
    simpa using hle

/-! ### A tick in the window -/

/-- What was sent before a tick in the window was sent in the window, in slots no later. -/
theorem before (ht : d.allows twap (.onTick t)) (hin : p.inWindow t) :
    (∀ c ∈ d.children, p.inWindow c.1) ∧ ∀ s ∈ d.slots p, s ≤ p.slotOf t := by
  have hle : ∀ c ∈ d.children, p.slotOf c.1 ≤ p.slotOf t := fun c hc => ParentOrder.slotOf_mono (ht.2 _ (h.sound.times c hc))
  refine ⟨fun c hc => ⟨h.started c hc, (hle c hc).trans_lt hin.2⟩, fun s hs => ?_⟩
  obtain ⟨c, hc, rfl⟩ := mem_map.mp hs
  exact hle c hc

theorem length_slots : (d.slots p).toFinset.card = d.children.length := by
  rw [toFinset_card_of_nodup h.nodup]
  exact length_map ..

/-- Without a gap all slots up to that of the tick have sent. -/
theorem slot_lt_length {s : Int} (hs : s ∈ d.slots p) (hgap : ¬ d.gap p s) : s < d.children.length := by
  have hsub : Finset.Ico 0 (s + 1) ⊆ (d.slots p).toFinset := by
    intro i hi
    obtain ⟨h0, hlt⟩ := Finset.mem_Ico.mp hi
    rcases (Int.lt_add_one_iff.mp hlt).eq_or_lt with rfl | hlt
    · exact mem_toFinset.mpr hs
    · by_contra hc
      exact hgap ⟨i, h0, hlt, fun hm => hc (mem_toFinset.mpr hm)⟩
  have hcard := Finset.card_le_card hsub
  have h0 := h.mem_slots hs
  rw [Int.card_Ico, h.length_slots] at hcard
  omega

/-- With one missing fewer have. -/
theorem length_le_slot {i s : Int} (hle : ∀ j ∈ d.slots p, j ≤ s) (h0 : 0 ≤ i) (hi : i ≤ s) (hout : i ∉ d.slots p) :
    (d.children.length : Int) ≤ s := by
  have hsub : (d.slots p).toFinset ⊆ (Finset.Ico 0 (s + 1)).erase i := by
    intro j hj
    have hj := mem_toFinset.mp hj
    refine Finset.mem_erase.mpr ⟨fun hc => hout (hc ▸ hj), Finset.mem_Ico.mpr ⟨h.mem_slots hj, ?_⟩⟩
    exact Int.lt_add_one_iff.mpr (hle j hj)
  have hcard := Finset.card_le_card hsub
  rw [Finset.card_erase_of_mem (Finset.mem_Ico.mpr ⟨h0, by omega⟩), Int.card_Ico, h.length_slots] at hcard
  omega

/-- A tick on which nothing is sent. -/
theorem quiet (ht : d.allows twap (.onTick t)) (hx : d.executor.onTick t = ({}, d.executor))
    (hticked : p.inWindow t → p.slotOf t ∈ d.slots p ∨ p.size (p.slotOf t) = 0 ∨ p.totalQty ≤ d.emittedQty) :
    (d.step twap (.onTick t)).Spread p := by
  have hsound := h.sound.step twap_fair ht
  rw [Desk.step_quiet hx] at hsound ⊢
  refine ⟨hsound, h.slice, h.emitted, h.nodup, h.started, h.sized, h.late, fun s hs => ?_⟩
  rcases mem_cons.mp hs with rfl | hs
  · exact hticked
  · exact h.ticked s hs

/-- A tick that sends `q`: in the window the share of a slot that has not sent, after it all there is to send. -/
theorem sends {q : Int} (ht : d.allows twap (.onTick t)) (h0 : 0 < q)
    (hx : d.executor.onTick t = ({ qty := q, valid := true }, d.executor.counted))
    (hstart : p.startTsSec ≤ t) (hnew : p.slotOf t ∉ d.slots p)
    (hcase : (∀ c ∈ (t, q) :: d.children, p.inWindow c.1) ∧ q = p.size (p.slotOf t) ∨
      ¬ p.inWindow t ∧ d.children = [] ∧ q ≤ p.totalQty) :
    (d.step twap (.onTick t)).Spread p := by
  have hsound := h.sound.step twap_fair ht
  rw [Desk.step_sends hx] at hsound ⊢
  refine ⟨hsound, h.slice, ?_, ?_, ?_, ?_, ?_, ?_⟩
  · rw [length_cons]
    push_cast
    rw [← h.emitted]
    rfl
  · exact nodup_cons.mpr ⟨hnew, h.nodup⟩
  · intro c hc
    rcases mem_cons.mp hc with rfl | hc
    · exact hstart
    · exact h.started c hc
  · intro c hc hin
    rcases mem_cons.mp hc with rfl | hc
    · rcases hcase with ⟨-, hsize⟩ | ⟨hout, -⟩
      · exact hsize
      · exact absurd hin hout
    · exact h.sized c hc hin
  · intro c hc hout
    rcases hcase with ⟨hin, -⟩ | ⟨-, hnil, hle⟩
    · exact absurd (hin c hc) hout
    · rw [hnil] at hc ⊢
      obtain rfl := mem_singleton.mp hc
      exact ⟨rfl, hle⟩
  · intro s hs hin
    rcases mem_cons.mp hs with rfl | hs
    · exact .inl mem_cons_self
    · rcases h.ticked s hs hin with hm | hz | hfull
      · exact .inl (mem_cons_of_mem _ hm)
      · exact .inr (.inl hz)
      · refine .inr (.inr (hfull.trans ?_))
        unfold Desk.emittedQty
        rw [map_cons, sum_cons]
        exact le_add_of_nonneg_left h0.le

/-- In the window, and not a repetition: the slot sends its share, or it has, or there is nothing to send. -/
theorem tick_in (hq : 0 < p.totalQty) (hn : 0 < p.numSlices) (ht : d.allows twap (.onTick t)) (hin : p.inWindow t)
    (hrep : ¬ d.repeats p (.onTick t)) : (d.step twap (.onTick t)).Spread p := by
  have hparent : d.executor.parent = p := h.sound.parent
  have hslot := ParentOrder.slot_eq hin
  obtain ⟨hbefore, hle⟩ := h.before ht hin
  have hnonneg := ParentOrder.slotOf_nonneg hin.1
  have hfilled : d.executor.stats.filledQty ≤ d.emittedQty := h.sound.filled_le
  by_cases hopen : d.executor.stats.filledQty < p.totalQty
  · by_cases hturn : d.executor.stats.slicesEmitted ≤ p.slotOf t
    · have hnew : p.slotOf t ∉ d.slots p := by
        intro hm
        by_cases hgap : d.gap p (p.slotOf t)
        · exact hrep ⟨hin, hm, hgap, hopen⟩
        · have hlt := h.slot_lt_length hm hgap
          rw [h.emitted] at hturn
          omega
      have hroom := h.emittedQty_add_le hq hn hbefore hnew hnonneg hin.2
      have hx := d.executor.onTick_turn (t := t) (hparent ▸ hq) (by rw [h.slice, hparent]) h.sound.filled_nonneg
        (by rw [hparent]; exact hin.1) (by rw [hparent]; exact hopen) (by rw [hparent, hslot]; exact hturn)
        (by rw [hparent, hslot]; exact hin.2) (by rw [hparent]; exact hn)
      rw [hparent, hslot, min_eq_left (by omega)] at hx
      have hsize := ParentOrder.size_nonneg hq hn (p.slotOf t)
      split at hx
      · exact h.quiet ht hx fun _ => .inr (.inl (by omega))
      · refine h.sends ht (by omega) hx hin.1 hnew (.inl ⟨fun c hc => ?_, rfl⟩)
        rcases mem_cons.mp hc with rfl | hc
        · exact hin
        · exact hbefore c hc
    · -- all slots up to this one have sent
      refine h.quiet ht (TWAPExecutor.onTick_quiet (by rw [hparent, hslot]; omega)) fun _ => .inl ?_
      by_contra hm
      have hlen := h.length_le_slot hle hnonneg le_rfl hm
      rw [h.emitted] at hturn
      omega
  · exact h.quiet ht (TWAPExecutor.onTick_quiet (by rw [hparent]; omega)) fun _ => .inr (.inr (by omega))

/-! ### The other events -/

/-- Out of the window nothing is sent, but for the first slot when the clock has wrapped and nothing was sent before. -/
theorem tick_out (hq : 0 < p.totalQty) (hn : 0 < p.numSlices) (ht : d.allows twap (.onTick t)) (hout : ¬ p.inWindow t) :
    (d.step twap (.onTick t)).Spread p := by
  have hparent : d.executor.parent = p := h.sound.parent
  have hquiet : t < p.startTsSec ∨ p.totalQty ≤ d.executor.stats.filledQty ∨
      p.slot t < d.executor.stats.slicesEmitted ∨ p.numSlices ≤ p.slot t → (d.step twap (.onTick t)).Spread p := by
    intro hc
    exact h.quiet ht (TWAPExecutor.onTick_quiet (by rw [hparent]; exact hc)) fun hin => absurd hin hout
  by_cases hc : t < p.startTsSec ∨ p.totalQty ≤ d.executor.stats.filledQty ∨
      p.slot t < d.executor.stats.slicesEmitted ∨ p.numSlices ≤ p.slot t
  · exact hquiet hc
  · push Not at hc
    obtain ⟨hstart, hopen, hturn, hlt⟩ := hc
    have hlate : p.numSlices ≤ p.slotOf t := not_lt.mp fun hc => hout ⟨hstart, hc⟩
    have hslot : p.slot t ≤ 0 := (ParentOrder.slot_late ht.1 hstart hlate).resolve_right (not_le.mpr hlt)
    rw [h.emitted] at hturn
    have hnil : d.children = [] := length_eq_zero_iff.mp (by omega)
    have hzero : p.slot t = 0 := by
      rw [hnil] at hturn
      exact le_antisymm hslot hturn
    have hx := d.executor.onTick_turn (t := t) (hparent ▸ hq) (by rw [h.slice, hparent]) h.sound.filled_nonneg
      (by rw [hparent]; exact hstart) (by rw [hparent]; exact hopen) (by rw [hparent, h.emitted]; exact hturn)
      (by rw [hparent]; exact hlt) (by rw [hparent]; exact hn)
    rw [hparent, hzero] at hx
    split at hx
    · exact h.quiet ht hx fun hin => absurd hin hout
    · refine h.sends ht (by omega) hx hstart ?_ (.inr ⟨hout, hnil, (min_le_left _ _).trans ?_⟩)
      · unfold Desk.slots
        rw [hnil]
        exact not_mem_nil
      · exact ParentOrder.size_le hq hn ⟨le_rfl, hn⟩

theorem fill {q c : Int} (he : d.allows twap (.applyFill q c)) : (d.step twap (.applyFill q c)).Spread p := by
  have hslices : (d.executor.stats.applyFill q c).slicesEmitted = d.executor.stats.slicesEmitted := by
    unfold ExecStats.applyFill
    split
    · rfl
    · rfl
  exact ⟨h.sound.step twap_fair he, h.slice, hslices.trans h.emitted, h.nodup, h.started, h.sized, h.late, h.ticked⟩

theorem step (hq : 0 < p.totalQty) (hn : 0 < p.numSlices) (he : d.allows twap e) (hrep : ¬ d.repeats p e) :
    (d.step twap e).Spread p := by
  cases e with
  | applyFill q c => exact h.fill he
  | onTick t =>
    by_cases hin : p.inWindow t
    · exact h.tick_in hq hn he hin hrep
    · exact h.tick_out hq hn he hin

theorem run (hq : 0 < p.totalQty) (hn : 0 < p.numSlices) (hl : d.lawful twap es) (hu : d.unrepeated p es) :
    (d.run twap es).Spread p := by
  induction es generalizing d with
  | nil => exact h
  | cons e es ih =>
    simp only [Desk.unrepeated, Bool.and_eq_true, Bool.not_eq_true', decide_eq_false_iff_not] at hu
    exact ih (h.step hq hn hl.1 hu.1) hl.2 hu.2

/-- A tick that repeats sends a second child in its slot. -/
theorem repeats_twice (hq : 0 < p.totalQty) (hn : 0 < p.numSlices) (ht : d.allows twap e) (hrep : d.repeats p e) :
    ¬ ((d.step twap e).slots p).Nodup := by
  cases e with
  | applyFill q c => cases hrep
  | onTick t =>
    obtain ⟨hin, hm, ⟨i, h0, hlt, hgap⟩, hopen⟩ := hrep
    have hparent : d.executor.parent = p := h.sound.parent
    have hslot := ParentOrder.slot_eq hin
    obtain ⟨hbefore, hle⟩ := h.before ht hin
    have hturn := h.length_le_slot hle h0 hlt.le hgap
    have hsize : 0 < p.size (p.slotOf t) := by
      obtain ⟨c, hc, hslotc⟩ := mem_map.mp hm
      rw [← hslotc, ← h.sized c hc (hbefore c hc)]
      exact h.sound.pos c hc
    have hx := d.executor.onTick_turn (t := t) (hparent ▸ hq) (by rw [h.slice, hparent]) h.sound.filled_nonneg
      (by rw [hparent]; exact hin.1) (by rw [hparent]; exact hopen) (by rw [hparent, hslot, h.emitted]; exact hturn)
      (by rw [hparent, hslot]; exact hin.2) (by rw [hparent]; exact hn)
    have hpos : ¬ min (p.size (p.slotOf t)) (p.totalQty - d.executor.stats.filledQty) ≤ 0 := by omega
    rw [hparent, hslot, if_neg hpos] at hx
    rw [Desk.step_sends hx]
    exact fun hc => (nodup_cons.mp hc).1 hm

/-- Once every slot had its tick, the order is sent. -/
theorem complete (hq : 0 < p.totalQty) (hn : 0 < p.numSlices) (hc : d.covered p) : d.emittedQty = p.totalQty := by
  refine le_antisymm (h.emittedQty_le hq hn) ?_
  by_contra hless
  have hslots : ∀ s, 0 ≤ s → s < p.numSlices → s ∈ d.slots p ∨ p.size s = 0 := by
    intro s h0 hlt
    obtain ⟨t, ht, hstart, rfl⟩ := hc s h0 hlt
    rcases h.ticked t ht ⟨hstart, hlt⟩ with hm | hz | hfull
    · exact .inl hm
    · exact .inr hz
    · exact absurd hfull hless
  have hin : ∀ c ∈ d.children, p.inWindow c.1 := by
    -- the last slot has something to send, so it was no late child that sent
    intro c hcm
    by_contra hout
    obtain ⟨hone, -⟩ := h.late c hcm hout
    rcases hslots (p.numSlices - 1) (by omega) (by omega) with hm | hz
    · unfold Desk.slots at hm
      rw [hone] at hm
      have hlast : p.numSlices - 1 = p.slotOf c.1 := mem_singleton.mp hm
      exact hout ⟨h.started c hcm, by omega⟩
    · exact absurd hz (ParentOrder.size_last hq hn).ne'
  refine hless ?_
  have hsent : ∀ s ∈ Finset.Ico 0 p.numSlices, p.size s ≠ 0 → s ∈ d.slots p := by
    intro s hs hne
    obtain ⟨h0, hlt⟩ := Finset.mem_Ico.mp hs
    exact (hslots s h0 hlt).resolve_right hne
  rw [h.emittedQty_eq hin, ← ParentOrder.sum_size hn, ← Finset.sum_filter_of_ne hsent]
  refine Finset.sum_le_sum_of_subset_of_nonneg (fun s hs => ?_) fun s _ _ => ParentOrder.size_nonneg hq hn s
  exact mem_toFinset.mpr (Finset.mem_filter.mp hs).2

end Desk.Spread

/-- The desk of an order, before any event. -/
def twapDesk (p : ParentOrder) : Desk TWAPExecutor := { executor := .new p }

/-- What a TWAP promises of a run: a slot sends once, no more than the order is sent, and all of it when every slot had
    its tick and what was sent was filled before the next. -/
structure TwapKeeps (p : ParentOrder) (es : List Event) : Prop where
  once : (((twapDesk p).run twap es).slots p).Nodup
  total : ((twapDesk p).run twap es).emittedQty ≤ p.totalQty
  complete : ((twapDesk p).run twap es).covered p → (twapDesk p).filledBetween es →
    ((twapDesk p).run twap es).emittedQty = p.totalQty

theorem unrepeated_of_once (hq : 0 < p.totalQty) (hn : 0 < p.numSlices) (h : d.Spread p) (hl : d.lawful twap es)
    (honce : ((d.run twap es).slots p).Nodup) : d.unrepeated p es := by
  induction es generalizing d with
  | nil => rfl
  | cons e es ih =>
    have hrep : ¬ d.repeats p e := by
      intro hrep
      refine h.repeats_twice hq hn hl.1 hrep ?_
      exact honce.sublist ((d.step twap e).slots_run twap p es).sublist
    simp only [Desk.unrepeated, Bool.and_eq_true, Bool.not_eq_true', decide_eq_false_iff_not]
    exact ⟨hrep, ih (h.step hq hn hl.1 hrep) hl.2 honce⟩

/-- In every run a TWAP keeps to its order if and only if no tick hits a slot that has sent its child while an earlier
    one has not and the order is not filled. -/
theorem twap_keeps_iff (p : ParentOrder) (es : List Event) (hq : 0 < p.totalQty) (hn : 0 < p.numSlices)
    (hl : (twapDesk p).lawful twap es) : TwapKeeps p es ↔ (twapDesk p).unrepeated p es = true := by
  have hnew : (twapDesk p).Spread p := new_spread hq hn
  constructor
  · intro hk
    exact unrepeated_of_once hq hn hnew hl hk.once
  · intro hu
    have hrun := hnew.run hq hn hl hu
    exact ⟨hrun.nodup, hrun.emittedQty_le hq hn, fun hc _ => hrun.complete hq hn hc⟩

/-- Ten shares in three slots, a fill that comes late. -/
theorem twap_keeps_small : TwapKeeps { totalQty := 10, durationSec := 9, numSlices := 3 }
    [.onTick 0, .onTick 1, .onTick 3, .applyFill 3 100, .onTick 4, .onTick 8, .applyFill 7 101] :=
  (twap_keeps_iff _ _ (by decide) (by decide) (by decide +kernel)).mpr (by decide +kernel)

/-- Two slots got no tick: the last sends its four shares on each of its three, and 12 of 10 shares are on the market. -/
theorem skipped_slots_overcommit : ¬ TwapKeeps { totalQty := 10, durationSec := 9, numSlices := 3 }
    [.onTick 6, .onTick 7, .onTick 8] := by
  intro h
  exact absurd h.total (by decide +kernel)

end

end HftLab.Strategy
