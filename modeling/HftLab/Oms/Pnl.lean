/-
  HftLab.Oms.Pnl — conservation of profit and loss through `apply_fill_to_position`.

  What was paid and received, with the open leg at its average price, is the realized profit up to the rounding of the
  average. Only a fill that opens or increases a leg rounds, and by half a unit a share at most; a fill that reduces,
  closes or flips the leg books exactly what it moves.
-/

import HftLab.Oms.Orders
import Mathlib.Algebra.Order.Ring.Abs
import Mathlib.Tactic.LinearCombination
import Mathlib.Tactic.Ring

namespace HftLab.Oms

open Lib List

structure Fill where
  side : Side
  qty : Int
  price : Int
  qty_pos : 0 < qty
  price_nonneg : 0 ≤ price

def Fill.signed (f : Fill) : Int :=
  match f.side with
  | .buy => f.qty
  | .sell => -f.qty

/-- The call that `fill_order` makes. -/
def Fill.apply (f : Fill) (pos : Position) : Position := applyFillToPosition pos (signedQty f.side f.qty) f.qty f.price

/-- The fill opens or increases the leg. -/
def Position.increases (pos : Position) (f : Fill) : Prop := pos.netQty = 0 ∨ (0 < pos.netQty ↔ 0 < f.signed)

instance (pos : Position) (f : Fill) : Decidable (pos.increases f) := inferInstanceAs (Decidable (_ ∨ _))

/-- Profit on each share that the fill closes. -/
def Position.gain (pos : Position) (f : Fill) : Int :=
  if 0 < pos.netQty then f.price - pos.avgPrice else pos.avgPrice - f.price

/-- No value that the fill computes overflows. -/
structure Position.Fits (pos : Position) (f : Fill) : Prop where
  qty : IsInt32 f.qty
  net : IsInt32 (pos.netQty + f.signed)
  average : pos.increases f → IsInt64 (pos.avgPrice * |pos.netQty| + f.price * f.qty + (|pos.netQty| + f.qty).tdiv 2)
  realized : ¬ pos.increases f → IsInt64 (pos.realizedPnl + min |pos.netQty| f.qty * pos.gain f)
  cost : IsInt64 ((f.apply pos).avgPrice * |(f.apply pos).netQty|)

instance (pos : Position) (f : Fill) : Decidable (pos.Fits f) :=
  decidable_of_iff (IsInt32 f.qty ∧ IsInt32 (pos.netQty + f.signed) ∧
      (pos.increases f → IsInt64 (pos.avgPrice * |pos.netQty| + f.price * f.qty + (|pos.netQty| + f.qty).tdiv 2)) ∧
      (¬ pos.increases f → IsInt64 (pos.realizedPnl + min |pos.netQty| f.qty * pos.gain f)) ∧
      IsInt64 ((f.apply pos).avgPrice * |(f.apply pos).netQty|))
    ⟨fun ⟨h1, h2, h3, h4, h5⟩ => ⟨h1, h2, h3, h4, h5⟩, fun h => ⟨h.qty, h.net, h.average, h.realized, h.cost⟩⟩

def applyFills (pos : Position) : List Fill → Position
  | [] => pos
  | f :: l => applyFills (f.apply pos) l

def FitsAll (pos : Position) : List Fill → Prop
  | [] => True
  | f :: l => pos.Fits f ∧ FitsAll (f.apply pos) l

instance decidableFitsAll : (pos : Position) → (l : List Fill) → Decidable (FitsAll pos l)
  | _, [] => isTrue trivial
  | pos, f :: l => @instDecidableAnd _ _ inferInstance (decidableFitsAll (f.apply pos) l)

/-- Paid (negative) and received. -/
def cash (l : List Fill) : Int := (l.map fun f => -f.signed * f.price).sum

/-- The sizes of the legs after each fill that opened or increased one. -/
def legSizes (pos : Position) : List Fill → Int
  | [] => 0
  | f :: l => (if pos.increases f then |(f.apply pos).netQty| else 0) + legSizes (f.apply pos) l

/-- What is booked beyond cash and the open leg. -/
def imbalance (pos : Position) (paid : Int) : Int := pos.realizedPnl - (paid + pos.netQty * pos.avgPrice)

/-! ## One fill -/

section

variable {pos : Position} {f : Fill} {l l' : List Fill}

theorem signedQty_eq_signed (h : IsInt32 f.qty) : signedQty f.side f.qty = f.signed := by
  have hpos := f.qty_pos
  have hneg : IsInt32 (-f.qty) := by
    unfold IsInt32 int32Min int32Max at *
    omega
  unfold signedQty Fill.signed
  cases f.side with
  | buy => exact i32_eq h
  | sell =>
    rw [i32_eq h, i32_eq hneg]

theorem Fill.apply_net (h : pos.Fits f) : (f.apply pos).netQty = pos.netQty + f.signed := by
  unfold Fill.apply applyFillToPosition
  rw [signedQty_eq_signed h.qty]
  dsimp only
  rw [i32_eq h.net]
  split <;> rfl

theorem Fill.apply_cost (h : pos.Fits f) : (f.apply pos).totalCost = (f.apply pos).avgPrice * |(f.apply pos).netQty| := by
  have hcost : (f.apply pos).totalCost = i64 ((f.apply pos).avgPrice * |(f.apply pos).netQty|) := by
    rfl
  rw [hcost, i64_eq h.cost]

theorem Fill.apply_increase (h : pos.Fits f) (hi : pos.increases f) :
    (f.apply pos).realizedPnl = pos.realizedPnl ∧ (f.apply pos).avgPrice =
      (pos.avgPrice * |pos.netQty| + f.price * f.qty + (|pos.netQty| + f.qty).tdiv 2).tdiv (|pos.netQty| + f.qty) := by
  have havg := h.average hi
  unfold Position.increases at hi
  unfold Fill.apply applyFillToPosition
  rw [signedQty_eq_signed h.qty]
  dsimp only
  rw [if_pos hi]
  rw [i64_eq havg]
  exact ⟨rfl, rfl⟩

theorem Fill.apply_reduce (h : pos.Fits f) (hi : ¬ pos.increases f) :
    (f.apply pos).realizedPnl = pos.realizedPnl + min |pos.netQty| f.qty * pos.gain f ∧ (f.apply pos).avgPrice =
      if pos.netQty + f.signed = 0 then 0
      else if (0 < pos.netQty ↔ 0 < pos.netQty + f.signed) then pos.avgPrice else f.price := by
  have hreal := h.realized hi
  unfold Position.increases at hi
  unfold Position.gain at *
  unfold Fill.apply applyFillToPosition
  rw [signedQty_eq_signed h.qty]
  dsimp only
  rw [if_neg hi, i32_eq h.net]
  rw [i64_eq hreal]
  exact ⟨rfl, rfl⟩

/-- The average of an open leg is not negative; there is none without a leg. -/
structure Position.Sound (pos : Position) : Prop where
  avg_nonneg : 0 ≤ pos.avgPrice
  flat : pos.netQty = 0 → pos.avgPrice = 0
  cost : pos.totalCost = pos.avgPrice * |pos.netQty|

/-- Rounding half up misses by half the divisor at most. -/
theorem round_half {n t : Int} (ht : 0 < t) (hn : 0 ≤ n) :
    0 ≤ (n + t.tdiv 2).tdiv t ∧ 2 * |t * (n + t.tdiv 2).tdiv t - n| ≤ t := by
  have hhalf : t.tdiv 2 = t / 2 := Int.tdiv_eq_ediv_of_nonneg ht.le
  have hq : (n + t / 2).tdiv t = (n + t / 2) / t := Int.tdiv_eq_ediv_of_nonneg (by omega)
  rw [hhalf, hq]
  have h1 := Int.mul_ediv_add_emod (n + t / 2) t
  have h2 := Int.emod_nonneg (n + t / 2) ht.ne'
  have h3 := Int.emod_lt_of_pos (n + t / 2) ht
  refine ⟨Int.ediv_nonneg (by omega) ht.le, ?_⟩
  rw [abs_eq_max_neg]
  omega

theorem Fill.signed_eq (f : Fill) : f.signed = f.qty ∨ f.signed = -f.qty := by
  unfold Fill.signed
  cases f.side
  · exact .inl rfl
  · exact .inr rfl

theorem leg_pos (pos : Position) (f : Fill) : 0 < |pos.netQty| + f.qty := by
  have h1 := abs_nonneg pos.netQty
  have h2 := f.qty_pos
  omega

theorem Position.Sound.value_nonneg (hp : pos.Sound) (f : Fill) : 0 ≤ pos.avgPrice * |pos.netQty| + f.price * f.qty :=
  Int.add_nonneg (Int.mul_nonneg hp.avg_nonneg (abs_nonneg _)) (Int.mul_nonneg f.price_nonneg f.qty_pos.le)

/-- The leg grows by the whole fill. -/
theorem net_increase (hi : pos.increases f) :
    ∃ u : Int, (u = 1 ∨ u = -1) ∧ pos.netQty = u * |pos.netQty| ∧ f.signed = u * f.qty := by
  have hpos := f.qty_pos
  rcases f.signed_eq with hs | hs
  · refine ⟨1, .inl rfl, ?_, by omega⟩
    unfold Position.increases at hi
    rw [abs_of_nonneg (by omega)]
    omega
  · refine ⟨-1, .inr rfl, ?_, by omega⟩
    unfold Position.increases at hi
    rw [abs_of_nonpos (by omega)]
    omega

theorem imbalance_increase (hp : pos.Sound) (h : pos.Fits f) (hi : pos.increases f) (c : Int) :
    2 * |imbalance (f.apply pos) (c - f.signed * f.price)| ≤ 2 * |imbalance pos c| + |(f.apply pos).netQty| := by
  obtain ⟨u, hu, hnet, hs⟩ := net_increase hi
  obtain ⟨hreal, havg⟩ := Fill.apply_increase h hi
  have htot := leg_pos pos f
  obtain ⟨-, hround⟩ := round_half htot (hp.value_nonneg f)
  rw [← havg] at hround
  have hnet' : (f.apply pos).netQty = u * (|pos.netQty| + f.qty) := by
    rw [Fill.apply_net h, Int.mul_add, ← hnet, ← hs]
  have hunit : ∀ x : Int, |u * x| = |x| := by
    intro x
    rw [abs_mul]
    rcases hu with rfl | rfl
    · rw [abs_one, Int.one_mul]
    · rw [abs_neg, abs_one, Int.one_mul]
  have habs : |(f.apply pos).netQty| = |pos.netQty| + f.qty := by rw [hnet', hunit, abs_of_pos htot]
  -- The leg changes by what was paid, up to the rounding of its average.
  have hmove : imbalance (f.apply pos) (c - f.signed * f.price) = imbalance pos c - u * ((|pos.netQty| + f.qty) *
      (f.apply pos).avgPrice - (pos.avgPrice * |pos.netQty| + f.price * f.qty)) := by
    unfold imbalance
    rw [hreal, hnet']
    linear_combination f.price * hs + pos.avgPrice * hnet
  have htri := abs_sub (imbalance pos c) (u * ((|pos.netQty| + f.qty) *
    (f.apply pos).avgPrice - (pos.avgPrice * |pos.netQty| + f.price * f.qty)))
  rw [hunit] at htri
  rw [hmove, habs]
  omega

theorem imbalance_reduce (h : pos.Fits f) (hi : ¬ pos.increases f) (c : Int) :
    imbalance (f.apply pos) (c - f.signed * f.price) = imbalance pos c := by
  obtain ⟨hreal, havg⟩ := Fill.apply_reduce h hi
  have hq := f.qty_pos
  unfold imbalance
  rw [hreal, havg, Fill.apply_net h]
  unfold Position.increases at hi
  unfold Position.gain
  rcases Int.lt_trichotomy 0 pos.netQty with hn | hn | hn
  · -- A long leg is sold: in part, whole, or with a short leg to follow.
    have hs : f.signed = -f.qty := by
      rcases f.signed_eq with hs | hs <;> omega
    rw [hs, if_pos hn, abs_of_pos hn]
    rcases Int.lt_trichotomy f.qty pos.netQty with hlt | heq | hgt
    · rw [min_eq_right hlt.le, if_neg (by omega), if_pos (by omega)]
      ring
    · rw [heq, min_self, if_pos (by omega)]
      ring
    · rw [min_eq_left hgt.le, if_neg (by omega), if_neg (by omega)]
      ring
  · omega
  · have hs : f.signed = f.qty := by
      rcases f.signed_eq with hs | hs <;> omega
    rw [hs, if_neg (by omega), abs_of_neg hn]
    rcases Int.lt_trichotomy f.qty (-pos.netQty) with hlt | heq | hgt
    · rw [min_eq_right hlt.le, if_neg (by omega), if_pos (by omega)]
      ring
    · rw [heq, min_self, if_pos (by omega)]
      ring
    · rw [min_eq_left hgt.le, if_neg (by omega), if_neg (by omega)]
      ring

theorem Position.Sound.apply (hp : pos.Sound) (h : pos.Fits f) : (f.apply pos).Sound := by
  refine ⟨?_, fun h0 => ?_, Fill.apply_cost h⟩
  · by_cases hi : pos.increases f
    · rw [(Fill.apply_increase h hi).2]
      exact (round_half (leg_pos pos f) (hp.value_nonneg f)).1
    · rw [(Fill.apply_reduce h hi).2]
      split
      · exact Int.le_refl 0
      · split
        · exact hp.avg_nonneg
        · exact f.price_nonneg
  · rw [Fill.apply_net h] at h0
    by_cases hi : pos.increases f
    · -- A leg that grows is open.
      have hq := f.qty_pos
      unfold Position.increases at hi
      rcases f.signed_eq with hs | hs <;> omega
    · rw [(Fill.apply_reduce h hi).2, if_pos h0]

/-! ## Every sequence of fills -/

theorem applyFills_append (pos : Position) (l l' : List Fill) : applyFills pos (l ++ l') = applyFills (applyFills pos l) l' := by
  induction l generalizing pos with
  | nil => rfl
  | cons f l ih => exact ih (f.apply pos)

theorem fitsAll_append : FitsAll pos (l ++ l') ↔ FitsAll pos l ∧ FitsAll (applyFills pos l) l' := by
  induction l generalizing pos with
  | nil => exact ⟨fun h => ⟨trivial, h⟩, fun h => h.2⟩
  | cons f l ih =>
    show pos.Fits f ∧ FitsAll (f.apply pos) (l ++ l') ↔ (pos.Fits f ∧ FitsAll (f.apply pos) l) ∧ _
    rw [ih, and_assoc]
    rfl

theorem cash_cons (f : Fill) (l : List Fill) : cash (f :: l) = -f.signed * f.price + cash l := by
  unfold cash
  rw [map_cons, sum_cons]

theorem cash_append (l l' : List Fill) : cash (l ++ l') = cash l + cash l' := by
  unfold cash
  rw [map_append, sum_append]

theorem Position.Sound.applyFills (hp : pos.Sound) (h : FitsAll pos l) : (applyFills pos l).Sound := by
  induction l generalizing pos with
  | nil => exact hp
  | cons f l ih => exact ih (hp.apply h.1) h.2

theorem imbalance_fills (hp : pos.Sound) (h : FitsAll pos l) (c : Int) :
    2 * |imbalance (applyFills pos l) (c + cash l)| ≤ 2 * |imbalance pos c| + legSizes pos l := by
  induction l generalizing pos c with
  | nil =>
    show 2 * |imbalance pos (c + 0)| ≤ 2 * |imbalance pos c| + 0
    rw [Int.add_zero, Int.add_zero]
  | cons f l ih =>
    have hrest := ih (hp.apply h.1) h.2 (c - f.signed * f.price)
    have hcash : c + cash (f :: l) = c - f.signed * f.price + cash l := by
      rw [cash_cons]
      ring
    rw [hcash]
    refine hrest.trans ?_
    rw [legSizes]
    split
    · rename_i hi
      have hstep := imbalance_increase hp h.1 hi c
      omega
    · rename_i hi
      rw [imbalance_reduce h.1 hi c]
      omega

end

/-- A fresh position after the fills `l`. -/
def afterFills (symbol : List UInt8) (l : List Fill) : Position := applyFills { symbol } l

theorem fresh_sound (symbol : List UInt8) : ({ symbol } : Position).Sound := ⟨Int.le_refl 0, fun _ => rfl, rfl⟩

/-- Realized profit is cash and the open leg, up to half a unit for each share of each leg that a fill opened or
    increased. -/
theorem pnl_conserved (symbol : List UInt8) (l : List Fill) (h : FitsAll { symbol } l) :
    2 * |imbalance (afterFills symbol l) (cash l)| ≤ legSizes { symbol } l ∧
    (∀ l₁ f l₂, l = l₁ ++ f :: l₂ → ¬ (afterFills symbol l₁).increases f →
      imbalance (afterFills symbol (l₁ ++ [f])) (cash (l₁ ++ [f])) = imbalance (afterFills symbol l₁) (cash l₁)) ∧
    ((afterFills symbol l).netQty = 0 → (afterFills symbol l).avgPrice = 0) ∧
    (afterFills symbol l).totalCost = (afterFills symbol l).avgPrice * |(afterFills symbol l).netQty| := by
  have hsound : (afterFills symbol l).Sound := (fresh_sound symbol).applyFills h
  refine ⟨?_, ?_, hsound.flat, hsound.cost⟩
  · have hbound := imbalance_fills (fresh_sound symbol) h 0
    rw [Int.zero_add] at hbound
    have hzero : imbalance ({ symbol } : Position) 0 = 0 := rfl
    rw [hzero, abs_zero, Int.mul_zero, Int.zero_add] at hbound
    exact hbound
  · rintro l₁ f l₂ rfl hi
    obtain ⟨-, hf, -⟩ := fitsAll_append.mp h
    have hcash : cash (l₁ ++ [f]) = cash l₁ - f.signed * f.price := by
      rw [cash_append, cash_cons]
      show cash l₁ + (-f.signed * f.price + 0) = _
      ring
    have hafter : afterFills symbol (l₁ ++ [f]) = f.apply (afterFills symbol l₁) := applyFills_append _ l₁ [f]
    rw [hcash, hafter]
    exact imbalance_reduce hf hi _

/-- Two buys whose average is rounded, a sale of part of the leg, and one that flips it. -/
def sampleFills : List Fill :=
  [⟨.buy, 2, 10, by decide, by decide⟩, ⟨.buy, 1, 11, by decide, by decide⟩, ⟨.sell, 1, 12, by decide, by decide⟩,
    ⟨.sell, 5, 9, by decide, by decide⟩]

theorem pnl_conserved_sample : imbalance (afterFills [65] sampleFills) (cash sampleFills) = 1 ∧
    2 * |imbalance (afterFills [65] sampleFills) (cash sampleFills)| ≤ legSizes { symbol := [65] } sampleFills :=
  ⟨by decide +kernel, (pnl_conserved [65] sampleFills (by decide +kernel)).1⟩

end HftLab.Oms
