/-
  HftLab.Risk.Exposure — `total_abs_exposure_` is the sum over all symbols of |position + pending|.

  The sum is kept by differences. A fill moves quantity from pending to position and leaves every term as it is; the
  daily reset drops what is pending and adds up the positions anew.
-/

import HftLab.Lib.Sequence
import HftLab.Lib.System
import HftLab.Risk.Manager

namespace HftLab.Risk

open Lib List
open HftLab.Oms (Side symToKey abs32)

/-- The quantity with its sign, computed without a bound. -/
def signed (side : Side) (qty : Int) : Int :=
  match side with
  | .buy => qty
  | .sell => -qty

section

variable {D : Type} (F : Doubles D) (r : RiskManager D)

/-- The symbols the manager knows. -/
def RiskManager.symbols : Finset Nat := r.positions.keys.toFinset ∪ r.pending.keys.toFinset

def RiskManager.netExposure : Int := ∑ k ∈ r.symbols, |lookup r.positions k + lookup r.pending k|

/-- `adjust_pending` computes no value beyond 32 bits. -/
def RiskManager.adjustFits (key : Nat) (delta : Int) : Prop :=
  let pos := lookup r.positions key
  let pend := lookup r.pending key
  IsInt32 delta ∧ IsInt32 (pend + delta) ∧ IsInt32 |pos + pend| ∧ IsInt32 |pos + (pend + delta)|

/-- The call changes no quantity beyond 32 bits. -/
def RiskManager.fits : Op D → Prop
  | .checkOrder .. | .updatePnl _ => True
  | .onOrderSent symbol side quantity => r.adjustFits (symToKey symbol) (signed side quantity)
  | .onOrderCancelled symbol side remaining =>
    IsInt32 (signed side remaining) ∧ r.adjustFits (symToKey symbol) (-signed side remaining)
  | .updatePosition symbol side quantity =>
    IsInt32 (signed side quantity) ∧ IsInt32 (lookup r.positions (symToKey symbol) + signed side quantity) ∧
      IsInt32 (lookup r.pending (symToKey symbol) - signed side quantity)
  | .resetDaily => ∀ kv ∈ r.positions.entries, IsInt32 |kv.2|

instance (key : Nat) (delta : Int) : Decidable (r.adjustFits key delta) :=
  inferInstanceAs (Decidable (_ ∧ _ ∧ _ ∧ _))

instance (op : Op D) : Decidable (r.fits op) :=
  match op with
  | .checkOrder .. | .updatePnl _ => isTrue trivial
  | .onOrderSent .. => inferInstanceAs (Decidable (r.adjustFits _ _))
  | .onOrderCancelled .. => inferInstanceAs (Decidable (_ ∧ _))
  | .updatePosition .. => inferInstanceAs (Decidable (_ ∧ _ ∧ _))
  | .resetDaily => inferInstanceAs (Decidable (∀ kv ∈ r.positions.entries, _))

end

section

variable {D : Type} {F : Doubles D} {r : RiskManager D} {m : QtyMap} {k j : Nat} {v : Int}
    {side : Side} {q x delta : Int} {r' : RiskManager D} {symbol : List UInt8}

theorem lookup_insert (m : QtyMap) (k j : Nat) (v : Int) : lookup (m.insert k v) j = if j = k then v else lookup m j := by
  unfold lookup
  by_cases e : j = k
  · subst e
    rw [AList.lookup_insert, if_pos rfl]
    rfl
  · rw [AList.lookup_insert_ne e, if_neg e]

theorem lookup_of_notMem (h : k ∉ m) : lookup m k = 0 := by
  unfold lookup
  rw [AList.lookup_eq_none.mpr h]
  rfl

theorem signedQty_eq (h : IsInt32 (signed side q)) : signedQty side q = signed side q := by
  cases side
  · rfl
  · exact i32_eq h

theorem isInt32_of_abs (h : IsInt32 |x|) : IsInt32 x := by
  have h1 := le_abs_self x
  have h2 := neg_le_abs x
  unfold IsInt32 int32Min int32Max at *
  omega

theorem abs32_eq (h : IsInt32 |x|) : abs32 x = |x| := i32_eq h

/-- The sum does not change when more symbols are asked. -/
theorem netExposure_of_subset {S : Finset Nat} (h : r.symbols ⊆ S) :
    r.netExposure = ∑ k ∈ S, |lookup r.positions k + lookup r.pending k| := by
  refine Finset.sum_subset h fun k _ hk => ?_
  unfold RiskManager.symbols at hk
  rw [Finset.mem_union, mem_toFinset, mem_toFinset, not_or] at hk
  rw [lookup_of_notMem hk.1, lookup_of_notMem hk.2]
  rfl

/-- One symbol's term changed. -/
theorem netExposure_change (hsym : r'.symbols ⊆ insert k r.symbols)
    (hterm : ∀ j, j ≠ k → |lookup r'.positions j + lookup r'.pending j| = |lookup r.positions j + lookup r.pending j|) :
    r'.netExposure = r.netExposure +
      (|lookup r'.positions k + lookup r'.pending k| - |lookup r.positions k + lookup r.pending k|) := by
  rw [netExposure_of_subset hsym, netExposure_of_subset (Finset.subset_insert k r.symbols)]
  have hk := Finset.mem_insert_self k r.symbols
  rw [← Finset.add_sum_erase _ _ hk, ← Finset.add_sum_erase (insert k r.symbols)
    (fun k => |lookup r.positions k + lookup r.pending k|) hk]
  have hrest : ∑ j ∈ (insert k r.symbols).erase k, |lookup r'.positions j + lookup r'.pending j| =
      ∑ j ∈ (insert k r.symbols).erase k, |lookup r.positions j + lookup r.pending j| :=
    Finset.sum_congr rfl fun j hj => hterm j (Finset.ne_of_mem_erase hj)
  rw [hrest]
  omega

theorem mem_symbols : j ∈ r.symbols ↔ j ∈ r.positions ∨ j ∈ r.pending := by
  unfold RiskManager.symbols
  rw [Finset.mem_union, mem_toFinset, mem_toFinset]
  rfl

theorem symbols_adjustPending (r : RiskManager D) (k : Nat) (delta : Int) :
    (r.adjustPending k delta).symbols ⊆ insert k r.symbols := by
  intro j hj
  rw [mem_symbols] at hj
  rw [Finset.mem_insert, mem_symbols]
  rcases hj with hj | hj
  · exact .inr (.inl hj)
  · rcases (AList.mem_insert _).mp hj with rfl | hj
    · exact .inl rfl
    · exact .inr (.inr hj)

theorem symbols_updatePosition (r : RiskManager D) (symbol : List UInt8) (side : Side) (q : Int) :
    (r.updatePosition symbol side q).symbols ⊆ insert (symToKey symbol) r.symbols := by
  intro j hj
  rw [mem_symbols] at hj
  rw [Finset.mem_insert, mem_symbols]
  rcases hj with hj | hj
  · rcases (AList.mem_insert _).mp hj with rfl | hj
    · exact .inl rfl
    · exact .inr (.inl hj)
  · rcases (AList.mem_insert _).mp hj with rfl | hj
    · exact .inl rfl
    · exact .inr (.inr hj)

theorem adjustPending_pending (h : IsInt32 (lookup r.pending k + delta)) :
    (r.adjustPending k delta).pending = r.pending.insert k (lookup r.pending k + delta) := by
  show r.pending.insert k (i32 (lookup r.pending k + delta)) = _
  rw [i32_eq h]

theorem adjustPending_exact (hr : r.totalAbsExposure = r.netExposure) (h : r.adjustFits k delta) :
    (r.adjustPending k delta).totalAbsExposure = (r.adjustPending k delta).netExposure := by
  obtain ⟨-, h1, h2, h3⟩ := h
  have hnew : i32 (lookup r.pending k + delta) = lookup r.pending k + delta := i32_eq h1
  have hpend := adjustPending_pending h1
  have hdiff : IsInt32 (|lookup r.positions k + (lookup r.pending k + delta)| - |lookup r.positions k + lookup r.pending k|) := by
    have h4 := abs_nonneg (lookup r.positions k + lookup r.pending k)
    have h5 := abs_nonneg (lookup r.positions k + (lookup r.pending k + delta))
    unfold IsInt32 int32Min int32Max at *
    omega
  have htotal : (r.adjustPending k delta).totalAbsExposure = r.totalAbsExposure +
      (|lookup r.positions k + (lookup r.pending k + delta)| - |lookup r.positions k + lookup r.pending k|) := by
    show r.totalAbsExposure + i32 (abs32 (i32 (lookup r.positions k + i32 (lookup r.pending k + delta))) -
      abs32 (i32 (lookup r.positions k + lookup r.pending k))) = _
    rw [hnew, i32_eq (isInt32_of_abs h2), i32_eq (isInt32_of_abs h3), abs32_eq h2, abs32_eq h3, i32_eq hdiff]
  have hnet : (r.adjustPending k delta).netExposure = _ :=
    netExposure_change (r := r) (k := k) (symbols_adjustPending r k delta) ?_
  · rw [htotal, hnet, hpend, lookup_insert, if_pos rfl, hr]
    rfl
  · intro j hj
    rw [hpend, lookup_insert, if_neg hj]
    rfl

theorem onOrderSent_eq (h : r.fits (.onOrderSent symbol side q)) :
    r.onOrderSent symbol side q = r.adjustPending (symToKey symbol) (signed side q) := by
  unfold RiskManager.onOrderSent
  rw [signedQty_eq h.1]

theorem onOrderCancelled_eq (h : r.fits (.onOrderCancelled symbol side q)) :
    r.onOrderCancelled symbol side q = r.adjustPending (symToKey symbol) (-signed side q) := by
  unfold RiskManager.onOrderCancelled
  rw [signedQty_eq h.1, i32_eq h.2.1]

theorem updatePosition_positions (h : r.fits (.updatePosition symbol side q)) :
    (r.updatePosition symbol side q).positions =
      r.positions.insert (symToKey symbol) (lookup r.positions (symToKey symbol) + signed side q) := by
  obtain ⟨h1, h2, -⟩ := h
  show r.positions.insert _ (i32 (_ + signedQty side q)) = _
  rw [signedQty_eq h1, i32_eq h2]

theorem updatePosition_pending (h : r.fits (.updatePosition symbol side q)) :
    (r.updatePosition symbol side q).pending =
      r.pending.insert (symToKey symbol) (lookup r.pending (symToKey symbol) - signed side q) := by
  obtain ⟨h1, -, h2⟩ := h
  show r.pending.insert _ (i32 (_ - signedQty side q)) = _
  rw [signedQty_eq h1, i32_eq h2]

theorem updatePosition_exact (hr : r.totalAbsExposure = r.netExposure) (h : r.fits (.updatePosition symbol side q)) :
    (r.updatePosition symbol side q).totalAbsExposure = (r.updatePosition symbol side q).netExposure := by
  have hpos := updatePosition_positions h
  have hpend := updatePosition_pending h
  have hterm : ∀ j, lookup (r.updatePosition symbol side q).positions j + lookup (r.updatePosition symbol side q).pending j =
      lookup r.positions j + lookup r.pending j := by
    intro j
    rw [hpos, hpend, lookup_insert, lookup_insert]
    by_cases e : j = symToKey symbol
    · rw [if_pos e, if_pos e, e]
      omega
    · rw [if_neg e, if_neg e]
  have hnet : (r.updatePosition symbol side q).netExposure = _ :=
    netExposure_change (r := r) (k := symToKey symbol) (symbols_updatePosition r symbol side q) fun j _ => by rw [hterm]
  rw [hnet, hterm, Int.sub_self, Int.add_zero]
  exact hr

theorem resetDaily_exact (h : ∀ kv ∈ r.positions.entries, IsInt32 |kv.2|) :
    (r.resetDaily F).totalAbsExposure = (r.resetDaily F).netExposure := by
  have hterm : ∀ kv ∈ r.positions.entries, abs32 kv.2 = |lookup r.positions kv.1| := by
    intro kv hkv
    rw [abs32_eq (h kv hkv)]
    unfold lookup
    rw [AList.mem_lookup_iff.mpr hkv]
    rfl
  show (r.positions.entries.map fun kv => abs32 kv.2).sum = _
  rw [map_congr_left hterm]
  unfold RiskManager.netExposure RiskManager.symbols
  have hpend : (r.resetDaily F).pending = ∅ := rfl
  have hpos : (r.resetDaily F).positions = r.positions := rfl
  rw [hpend, hpos, AList.keys_empty, toFinset_nil, Finset.union_empty, sum_toFinset _ r.positions.keys_nodup]
  unfold AList.keys List.keys
  rw [map_map]
  refine congrArg List.sum (map_congr_left fun kv _ => ?_)
  show |lookup r.positions kv.1| = |lookup r.positions kv.1 + lookup ∅ kv.1|
  rw [lookup_of_notMem (m := ∅) (AList.notMem_empty _), Int.add_zero]

/-- What a check can change is none of the quantities. -/
theorem checkOrder_keeps (r : RiskManager D) (symbol : List UInt8) (side : Side) (price : D) (quantity now : Int) :
    (r.checkOrder F symbol side price quantity now).2.positions = r.positions ∧
    (r.checkOrder F symbol side price quantity now).2.pending = r.pending ∧
    (r.checkOrder F symbol side price quantity now).2.totalAbsExposure = r.totalAbsExposure ∧
    (r.checkOrder F symbol side price quantity now).2.limits = r.limits ∧
    (r.checkOrder F symbol side price quantity now).2.symbolPosLimit = r.symbolPosLimit := by
  rcases checkOrder_cases F r symbol side price quantity now with ⟨reason, -, h⟩ | ⟨-, reason, k, -, h⟩ | ⟨-, -, h⟩
  · rw [h]
    exact ⟨rfl, rfl, rfl, rfl, rfl⟩
  · rw [h]
    exact ⟨rfl, rfl, rfl, rfl, rfl⟩
  · rw [h]
    unfold RiskManager.checkRateLimit
    dsimp only
    split <;> split <;> exact ⟨rfl, rfl, rfl, rfl, rfl⟩

theorem updatePnl_keeps (r : RiskManager D) (x : D) : (r.updatePnl F x).positions = r.positions ∧
    (r.updatePnl F x).pending = r.pending ∧ (r.updatePnl F x).totalAbsExposure = r.totalAbsExposure ∧
    (r.updatePnl F x).limits = r.limits ∧ (r.updatePnl F x).symbolPosLimit = r.symbolPosLimit := by
  unfold RiskManager.updatePnl RiskManager.latchKillSwitch
  dsimp only
  split
  · split <;> exact ⟨rfl, rfl, rfl, rfl, rfl⟩
  · split <;> exact ⟨rfl, rfl, rfl, rfl, rfl⟩

theorem netExposure_congr (h1 : r'.positions = r.positions) (h2 : r'.pending = r.pending) : r'.netExposure = r.netExposure := by
  unfold RiskManager.netExposure RiskManager.symbols
  rw [h1, h2]

theorem exec_exact {op : Op D} (hr : r.totalAbsExposure = r.netExposure) (h : r.fits op) :
    (r.exec F op).totalAbsExposure = (r.exec F op).netExposure := by
  cases op with
  | checkOrder symbol side price quantity now =>
    obtain ⟨h1, h2, h3, -⟩ := checkOrder_keeps (F := F) r symbol side price quantity now
    exact h3.trans (hr.trans (netExposure_congr h1 h2).symm)
  | onOrderSent symbol side quantity =>
    rw [RiskManager.exec, onOrderSent_eq h]
    exact adjustPending_exact hr h
  | onOrderCancelled symbol side remaining =>
    rw [RiskManager.exec, onOrderCancelled_eq h]
    exact adjustPending_exact hr h.2
  | updatePosition symbol side quantity => exact updatePosition_exact hr h
  | updatePnl x =>
    obtain ⟨h1, h2, h3, -⟩ := updatePnl_keeps (F := F) r x
    exact h3.trans (hr.trans (netExposure_congr h1 h2).symm)
  | resetDaily => exact resetDaily_exact h

end

/-- In every run without 32-bit overflow the sum is exact. -/
theorem exposure_exact {D : Type} (F : Doubles D) (limits : RiskLimits D) {r : RiskManager D}
    (h : Reachable (· = fresh F limits) (fun r r' => ∃ op, r.fits op ∧ r' = r.exec F op) r) :
    r.totalAbsExposure = ∑ k ∈ r.symbols, |lookup r.positions k + lookup r.pending k| := by
  refine h.invariant (I := fun r => r.totalAbsExposure = r.netExposure) ?_ ?_
  · rintro r rfl
    rfl
  · rintro r r' hr ⟨op, hf, rfl⟩
    exact exec_exact hr hf

/-- Two orders sent, a partial fill, a fill that nobody sent, a cancel. -/
def sampleOps : List (Op Int) :=
  [.onOrderSent [65] .buy 100, .updatePosition [65] .buy 40, .updatePosition [66] .sell 70, .onOrderSent [66] .sell 25,
    .onOrderCancelled [65] .buy 60]

def sampleLimits : RiskLimits Int :=
  { maxPositionPerSymbol := 1000, maxPortfolioExposure := 1000000, maxDailyLoss := 50000, maxOrdersPerSecond := 100,
    maxOrderValue := 1000000, maxDrawdownPct := 5, maxPriceBandPct := 0, maxSharesPerOrder := 0, maxShortPerSymbol := 0,
    maxConsecutiveLosses := 0, maxDailyTradedNotional := 0, minPrice := 0, maxSymbolNotional := 0 }

/-- A call that fits. -/
def nextFits (r : RiskManager Int) (op : Op Int) : Option (RiskManager Int) :=
  if r.fits op then some (r.exec wholeDoubles op) else none

theorem exposure_exact_sample : ∃ r : RiskManager Int, r.totalAbsExposure = 65 ∧
    r.totalAbsExposure = ∑ k ∈ r.symbols, |lookup r.positions k + lookup r.pending k| := by
  have hrun : (runEvents nextFits sampleOps (fresh wholeDoubles sampleLimits)).map (·.totalAbsExposure) = some 65 := by
    decide +kernel
  obtain ⟨r, hr, h65⟩ := Option.map_eq_some_iff.mp hrun
  refine ⟨r, h65, exposure_exact wholeDoubles sampleLimits (Reachable.run ?_ sampleOps (.start rfl) hr)⟩
  intro s op s' h
  unfold nextFits at h
  split at h
  · cases h
    exact ⟨op, ‹_›, rfl⟩
  · cases h

end HftLab.Risk
