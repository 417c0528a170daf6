/-
  HftLab.Lib.Tally — a map from keys to entries, and beside it a map with the sum of the entries' weights in each group.

  `raise` and `lower` are what a program does to the map of sums: add to a cell that is made when missing, take from a
  cell that is dropped when nothing is left. `Tallies` says that the sums are right and no cell is empty; `Tallies.unique`
  that this leaves one map of sums only.
-/

import HftLab.Lib.Int32
import HftLab.Lib.Sequence
import Mathlib.Algebra.Order.BigOperators.Group.List
import Mathlib.Algebra.Order.Field.Rat
import Mathlib.Algebra.Order.Ring.Cast
import Mathlib.Data.Finmap
import Mathlib.Data.Int.Cast.Lemmas

namespace HftLab.Lib

open List AList

variable {κ V γ : Type}

/-- A map from keys to values. -/
abbrev Table (κ V : Type) := AList fun _ : κ => V

def sumOver (m : Table κ V) (w : V → Int) : Int := (m.entries.map fun e => w e.2).sum

/-- A 32-bit sum over the entries with `p`. -/
def sum32 (m : Table κ V) (p : V → Bool) (w : V → Int) : Int := m.entries.foldl (fun s e => if p e.2 then i32 (s + w e.2) else s) 0

/-- It wraps as the exact sum does. -/
theorem sum32_eq (m : Table κ V) (p : V → Bool) (w : V → Int) : sum32 m p w = i32 (sumOver m fun v => if p v then w v else 0) := by
  suffices ∀ (l : List (Sigma fun _ : κ => V)) (x : Int), l.foldl (fun s e => if p e.2 then i32 (s + w e.2) else s) (i32 x) =
      i32 (x + (l.map fun e => if p e.2 then w e.2 else 0).sum) by
    have h := this m.entries 0
    rwa [i32_zero, Int.zero_add] at h
  intro l
  induction l with
  | nil =>
    intro x
    rw [foldl_nil, map_nil, sum_nil, Int.add_zero]
  | cons e l ih =>
    intro x
    rw [foldl_cons, map_cons, sum_cons]
    cases hp : p e.2 with
    | false =>
      rw [if_neg Bool.false_ne_true, if_neg Bool.false_ne_true, Int.zero_add]
      exact ih x
    | true =>
      rw [if_pos rfl, if_pos rfl, i32_add_left, ih, Int.add_assoc]

section

variable [DecidableEq κ] {m : Table κ V} {k : κ} {v : V} {P : V → Prop} {w : V → Int}

theorem lookup_insert_cases {k' : κ} {v' : V} (h : (m.insert k v).lookup k' = some v') :
    k' = k ∧ v' = v ∨ k' ≠ k ∧ m.lookup k' = some v' := by
  by_cases e : k' = k
  · rw [e, lookup_insert] at h
    exact .inl ⟨e, (Option.some.inj h).symm⟩
  · rw [lookup_insert_ne e] at h
    exact .inr ⟨e, h⟩

theorem forall_insert (h : ∀ k v, m.lookup k = some v → P v) (hv : P v) : ∀ k' v', (m.insert k v).lookup k' = some v' → P v' := by
  intro k' v' hk
  rcases lookup_insert_cases hk with ⟨-, rfl⟩ | ⟨-, hk⟩
  · exact hv
  · exact h k' v' hk

theorem forall_erase (h : ∀ k v, m.lookup k = some v → P v) (k : κ) : ∀ k' v', (m.erase k).lookup k' = some v' → P v' := by
  intro k' v' hk
  by_cases e : k' = k
  · rw [e, lookup_erase] at hk
    cases hk
  · rw [lookup_erase_ne e] at hk
    exact h k' v' hk

theorem entries_perm_erase (h : m.lookup k = some v) : m.entries.Perm (⟨k, v⟩ :: (m.erase k).entries) := by
  have hmem : (⟨k, v⟩ : Sigma fun _ : κ => V) ∈ m.entries := mem_lookup_iff.mp h
  obtain ⟨x, l1, l2, -, hl, he⟩ := exists_of_kerase (mem_keys_of_mem hmem)
  have hx : m.lookup k = some x := mem_lookup_iff.mpr (by rw [hl]; simp)
  obtain rfl : v = x := by
    rw [h] at hx
    exact Option.some.inj hx
  show m.entries.Perm (⟨k, v⟩ :: List.kerase k m.entries)
  rw [he]
  rw [hl]
  exact perm_middle

theorem sumOver_fresh (w : V → Int) (v : V) (h : m.lookup k = none) : sumOver (m.insert k v) w = sumOver m w + w v := by
  unfold sumOver
  rw [entries_insert_of_notMem (lookup_eq_none.mp h), map_cons, sum_cons, Int.add_comm]

theorem sumOver_erase (w : V → Int) (h : m.lookup k = some v) : sumOver (m.erase k) w = sumOver m w - w v := by
  have hsum := ((entries_perm_erase h).map fun e => w e.2).sum_eq
  rw [map_cons, sum_cons] at hsum
  unfold sumOver
  dsimp only at hsum ⊢
  omega

theorem sumOver_insert (w : V → Int) (v' : V) (h : m.lookup k = some v) :
    sumOver (m.insert k v') w = sumOver m w + (w v' - w v) := by
  have herase := sumOver_erase w h
  have hentries : (m.insert k v').entries = ⟨k, v'⟩ :: (m.erase k).entries := entries_insert
  unfold sumOver at herase ⊢
  rw [hentries, map_cons, sum_cons, herase]
  dsimp only
  omega

theorem sumOver_nonneg (h : ∀ k v, m.lookup k = some v → 0 ≤ w v) : 0 ≤ sumOver m w := by
  refine sum_nonneg fun x hx => ?_
  obtain ⟨e, he, rfl⟩ := mem_map.mp hx
  exact h e.1 e.2 (mem_lookup_iff.mpr he)

theorem sumOver_le {w' : V → Int} (h : ∀ k v, m.lookup k = some v → w v ≤ w' v) : sumOver m w ≤ sumOver m w' := by
  refine sum_le_sum fun e he => ?_
  exact h e.1 e.2 (mem_lookup_iff.mpr he)

/-- The sum over some of the entries, where the sum over more of them fits. -/
theorem sum32_le_sum32 {p q : V → Bool} (hpq : ∀ k v, m.lookup k = some v → p v → q v)
    (hw : ∀ k v, m.lookup k = some v → 0 ≤ w v) (hfits : (sumOver m fun v => if q v then w v else 0) ≤ int32Max) :
    0 ≤ sum32 m p w ∧ sum32 m p w ≤ sum32 m q w := by
  have hnonneg : 0 ≤ sumOver m fun v => if p v then w v else 0 := by
    refine sumOver_nonneg fun k v hv => ?_
    split
    · exact hw k v hv
    · exact Int.le_refl 0
  have hle : (sumOver m fun v => if p v then w v else 0) ≤ sumOver m fun v => if q v then w v else 0 := by
    refine sumOver_le fun k v hv => ?_
    by_cases hp : p v
    · rw [if_pos hp, if_pos (hpq k v hv hp)]
    · rw [if_neg hp]
      split
      · exact hw k v hv
      · exact Int.le_refl 0
  have hp : sum32 m p w = sumOver m fun v => if p v then w v else 0 := by
    rw [sum32_eq]
    exact i32_eq ⟨by simp only [int32Min]; omega, by omega⟩
  have hq : sum32 m q w = sumOver m fun v => if q v then w v else 0 := by
    rw [sum32_eq]
    exact i32_eq ⟨by simp only [int32Min]; omega, by omega⟩
  rw [hp, hq]
  exact ⟨hnonneg, hle⟩

theorem le_sumOver (h : ∀ k v, m.lookup k = some v → 0 ≤ w v) (hk : m.lookup k = some v) : w v ≤ sumOver m w := by
  have herase := sumOver_erase w hk
  have hrest : 0 ≤ sumOver (m.erase k) w := sumOver_nonneg fun k' v' h' => by
    by_cases e : k' = k
    · rw [e, lookup_erase] at h'
      cases h'
    · rw [lookup_erase_ne e] at h'
      exact h k' v' h'
  omega

end

/-- The part of a total that is not 0. -/
theorem fraction_bounds {x y : Int} (hx : 0 ≤ x) (hle : x ≤ y) :
    0 ≤ (if 0 < y then (x : ℚ) / y else 0) ∧ (if 0 < y then (x : ℚ) / y else 0) ≤ 1 := by
  have hx' : (0 : ℚ) ≤ x := Int.cast_nonneg hx
  have hle' : (x : ℚ) ≤ y := Int.cast_le.mpr hle
  split
  · exact ⟨div_nonneg hx' (hx'.trans hle'), div_le_one_of_le₀ hle' (hx'.trans hle')⟩
  · exact ⟨le_refl 0, zero_le_one⟩

/-! ## The map of sums -/

variable [DecidableEq γ]

/-- What a cell holds, 0 when it is missing. -/
def cell (sums : Table γ Int) (g : γ) : Int := (sums.lookup g).getD 0

def raise (sums : Table γ Int) (g : γ) (d : Int) : Table γ Int := sums.insert g (cell sums g + d)

def lower (sums : Table γ Int) (g : γ) (d : Int) : Table γ Int :=
  match sums.lookup g with
  | none => sums
  | some x => if x - d ≤ 0 then sums.erase g else sums.insert g (x - d)

variable {sums sums' : Table γ Int} {g g' : γ} {d : Int}

theorem cell_of_lookup {x : Int} (h : sums.lookup g = some x) : cell sums g = x := by
  unfold cell
  rw [h, Option.getD_some]

theorem cell_of_none (h : sums.lookup g = none) : cell sums g = 0 := by
  unfold cell
  rw [h, Option.getD_none]

theorem lookup_raise (sums : Table γ Int) (g : γ) (d : Int) (g' : γ) :
    (raise sums g d).lookup g' = if g' = g then some (cell sums g + d) else sums.lookup g' := by
  unfold raise
  split
  · rename_i e
    rw [e, lookup_insert]
  · rename_i e
    rw [lookup_insert_ne e]

theorem lookup_lower_ne (h : g' ≠ g) : (lower sums g d).lookup g' = sums.lookup g' := by
  unfold lower
  split
  · rfl
  · split
    · exact lookup_erase_ne h
    · exact lookup_insert_ne h

/-- The cell that was lowered by no more than it held. -/
theorem lookup_lower (hd : 0 ≤ d) (hle : d ≤ cell sums g) :
    (lower sums g d).lookup g = if cell sums g - d = 0 then none else some (cell sums g - d) := by
  unfold lower
  split
  · rename_i h
    have hcell := cell_of_none h
    rw [h, if_pos (by omega)]
  · rename_i x h
    have hcell := cell_of_lookup h
    split
    · rw [lookup_erase, if_pos (by omega)]
    · rw [lookup_insert, if_neg (by omega), hcell]

/-- What holds of every cell with something in it. -/
theorem forall_raise {P : γ → Int → Prop} (h : ∀ g x, sums.lookup g = some x → P g x) (hg : P g (cell sums g + d)) :
    ∀ g' x, (raise sums g d).lookup g' = some x → P g' x := by
  intro g' x hx
  rw [lookup_raise] at hx
  split at hx
  · rename_i e
    cases hx
    rw [e]
    exact hg
  · exact h g' x hx

theorem forall_lower {P : γ → Int → Prop} (h : ∀ g x, sums.lookup g = some x → P g x)
    (hg : ∀ x, sums.lookup g = some x → 0 < x - d → P g (x - d)) : ∀ g' x, (lower sums g d).lookup g' = some x → P g' x := by
  intro g' x hx
  by_cases e : g' = g
  · subst e
    unfold lower at hx
    split at hx
    · exact h g' x hx
    · rename_i y hy
      split at hx
      · rw [lookup_erase] at hx
        cases hx
      · rw [lookup_insert] at hx
        cases hx
        exact hg y hy (by omega)
  · rw [lookup_lower_ne e] at hx
    exact h g' x hx

theorem sumOver_raise (sums : Table γ Int) (g : γ) (d : Int) : sumOver (raise sums g d) id = sumOver sums id + d := by
  unfold raise
  cases h : sums.lookup g with
  | none =>
    rw [sumOver_fresh id _ h, cell_of_none h, Int.zero_add]
    rfl
  | some x =>
    rw [sumOver_insert id _ h, cell_of_lookup h]
    simp only [id]
    omega

theorem sumOver_lower (hd : 0 ≤ d) (hle : d ≤ cell sums g) : sumOver (lower sums g d) id = sumOver sums id - d := by
  unfold lower
  split
  · rename_i h
    have hcell := cell_of_none h
    omega
  · rename_i x h
    have hcell := cell_of_lookup h
    split
    · rw [sumOver_erase id h]
      simp only [id]
      omega
    · rw [sumOver_insert id _ h]
      simp only [id]
      omega

/-- `share g v` is what `v` weighs in group `g`. -/
structure Tallies (m : Table κ V) (share : γ → V → Int) (sums : Table γ Int) : Prop where
  sum : ∀ g, cell sums g = sumOver m (share g)
  pos : ∀ g x, sums.lookup g = some x → 0 < x

variable {m m' : Table κ V} {share : γ → V → Int}

theorem Tallies.empty (share : γ → V → Int) : Tallies (∅ : Table κ V) share ∅ where
  sum _ := rfl
  pos _ _ h := by cases h

/-- The weight in group `g` grew by `d`. -/
theorem Tallies.raise (h : Tallies m share sums) (hd : 0 < d) (hg : 0 ≤ sumOver m (share g))
    (hm : ∀ g', sumOver m' (share g') = sumOver m (share g') + if g' = g then d else 0) :
    Tallies m' share (Lib.raise sums g d) where
  sum g' := by
    unfold cell
    rw [lookup_raise, hm]
    split
    · rename_i e
      rw [e, Option.getD_some, h.sum]
    · rw [Int.add_zero]
      exact h.sum g'
  pos g' x hx := by
    rw [lookup_raise] at hx
    split at hx
    · have := h.sum g
      cases hx
      omega
    · exact h.pos g' x hx

/-- The weight in group `g` fell by `d`. -/
theorem Tallies.lower (h : Tallies m share sums) (hd : 0 ≤ d) (hg : 0 ≤ sumOver m' (share g))
    (hm : ∀ g', sumOver m' (share g') = sumOver m (share g') - if g' = g then d else 0) :
    Tallies m' share (Lib.lower sums g d) := by
  have hsum := h.sum g
  have hself := hm g
  rw [if_pos rfl] at hself
  have hlookup : (Lib.lower sums g d).lookup g = _ := lookup_lower hd (by omega)
  refine ⟨fun g' => ?_, fun g' x hx => ?_⟩
  · by_cases e : g' = g
    · rw [e, hself, ← hsum]
      unfold cell at hlookup ⊢
      rw [hlookup]
      split
      · rename_i hz
        exact hz.symm
      · rfl
    · unfold cell
      rw [lookup_lower_ne e, hm, if_neg e, Int.sub_zero]
      exact h.sum g'
  · by_cases e : g' = g
    · rw [e, hlookup] at hx
      split at hx
      · cases hx
      · cases hx
        omega
    · rw [lookup_lower_ne e] at hx
      exact h.pos g' x hx

/-- What changes no weight. -/
theorem Tallies.congr (h : Tallies m share sums) (hm : ∀ g, sumOver m' (share g) = sumOver m (share g)) : Tallies m' share sums where
  sum g := (h.sum g).trans (hm g).symm
  pos := h.pos

theorem Tallies.lookup_eq (h : Tallies m share sums) (g : γ) :
    sums.lookup g = if sumOver m (share g) = 0 then none else some (sumOver m (share g)) := by
  have hsum := h.sum g
  cases hx : sums.lookup g with
  | none =>
    rw [cell_of_none hx] at hsum
    rw [if_pos hsum.symm]
  | some x =>
    have := h.pos g x hx
    rw [cell_of_lookup hx] at hsum
    rw [← hsum, if_neg (by omega)]

theorem Tallies.unique (h : Tallies m share sums) (h' : Tallies m share sums') : sums.toFinmap = sums'.toFinmap := by
  refine Finmap.ext_lookup fun g => ?_
  rw [Finmap.lookup_toFinmap, Finmap.lookup_toFinmap, h.lookup_eq, h'.lookup_eq]

end HftLab.Lib
