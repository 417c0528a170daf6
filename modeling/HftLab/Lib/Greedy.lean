/-
  HftLab.Lib.Greedy — the cheapest first, and two ways to sort by price.

  Items have a capacity and a price per unit; an allocation takes some of each. An allocation that has a
  marginal price, below which items are taken whole and above which not at all, is the cheapest of its
  total (`Marginal.cheapest`). Handing out a quantity along a list sorted by price gives one
  (`allot_marginal`), whatever list it was sorted from (`Priced`).

  `exchangeSort` brings the best to the front by swapping it with whatever beats it, place by place.
  `picks` takes the first best of what is left, again and again; of equals the earlier comes first.
-/

import HftLab.Lib.Allotment
import Mathlib.Algebra.BigOperators.Ring.List
import Mathlib.Tactic.Linarith
import Mathlib.Tactic.Ring

namespace HftLab.Lib

open List

variable {ι K : Type}

/-! ## Allocations -/

/-- An allocation takes from the items of `l` only, and from each no more than there is. -/
structure Feasible (cap : ι → Int) (l : List ι) (a : ι → Int) : Prop where
  nonneg : ∀ i, 0 ≤ a i
  le : ∀ i ∈ l, a i ≤ cap i
  outside : ∀ i, i ∉ l → a i = 0

def totalOf (l : List ι) (a : ι → Int) : Int := (l.map a).sum

/-- What an allocation costs. -/
def costOf [Ring K] (price : ι → K) (l : List ι) (a : ι → Int) : K := (l.map fun i => (a i : K) * price i).sum

/-- Items cheaper than `m` are taken whole, items dearer than `m` not at all. -/
structure Marginal [LinearOrder K] (price : ι → K) (cap : ι → Int) (l : List ι) (a : ι → Int) (m : K) : Prop where
  below : ∀ i ∈ l, price i < m → a i = cap i
  above : ∀ i ∈ l, m < price i → a i = 0

/-- What a list of grants gives to `i`. -/
def share [DecidableEq ι] (ps : List (ι × Int)) (i : ι) : Int := ((ps.filter fun p => p.1 = i).map Prod.snd).sum

section Perm

variable [Ring K] {price : ι → K} {cap a : ι → Int} {l l' : List ι}

theorem totalOf_perm (h : l.Perm l') (a : ι → Int) : totalOf l a = totalOf l' a := (h.map a).sum_eq

theorem costOf_perm (h : l.Perm l') (a : ι → Int) : costOf price l a = costOf price l' a := (h.map _).sum_eq

theorem Feasible.perm (h : Feasible cap l a) (hp : l.Perm l') : Feasible cap l' a :=
  ⟨h.nonneg, fun i hi => h.le i (hp.mem_iff.mpr hi), fun i hi => h.outside i fun hc => hi (hp.mem_iff.mp hc)⟩

theorem costOf_neg (price : ι → K) (l : List ι) (a : ι → Int) : costOf (fun i => -price i) l a = -costOf price l a := by
  unfold costOf
  induction l with
  | nil => simp
  | cons i l ih =>
    rw [map_cons, sum_cons, ih, map_cons, sum_cons]
    rw [mul_neg, neg_add]

end Perm

section Cheapest

variable [CommRing K] [LinearOrder K] [IsStrictOrderedRing K] {price : ι → K} {cap a b : ι → Int} {l : List ι} {m : K}

/-- Whatever is taken instead costs at least the marginal price for each unit. -/
theorem costOf_shift (ha : Marginal price cap l a m) (hle : ∀ i ∈ l, 0 ≤ b i ∧ b i ≤ cap i) :
    costOf price l a - (totalOf l a : K) * m ≤ costOf price l b - (totalOf l b : K) * m := by
  induction l with
  | nil => exact le_rfl
  | cons i l ih =>
    have hrest := ih ⟨fun j hj => ha.below j (mem_cons_of_mem _ hj), fun j hj => ha.above j (mem_cons_of_mem _ hj)⟩
      fun j hj => hle j (mem_cons_of_mem _ hj)
    obtain ⟨h0, hcap⟩ := hle i mem_cons_self
    have hone : (a i : K) * (price i - m) ≤ (b i : K) * (price i - m) := by
      rcases lt_trichotomy (price i) m with hlt | heq | hgt
      · -- taken whole: less of it cannot be cheaper
        rw [ha.below i mem_cons_self hlt]
        refine mul_le_mul_of_nonpos_right ?_ (sub_nonpos.mpr hlt.le)
        exact_mod_cast hcap
      · rw [heq, sub_self, mul_zero, mul_zero]
      · rw [ha.above i mem_cons_self hgt]
        refine mul_le_mul_of_nonneg_right ?_ (sub_nonneg.mpr hgt.le)
        exact_mod_cast h0
    unfold costOf totalOf at hrest ⊢
    simp only [map_cons, sum_cons, Int.cast_add]
    linarith

/-- No allocation of the same total is cheaper than one with a marginal price. -/
theorem Marginal.cheapest (ha : Marginal price cap l a m) (hb : Feasible cap l b) (hsum : totalOf l a = totalOf l b) :
    costOf price l a ≤ costOf price l b := by
  have hshift := costOf_shift ha fun i hi => ⟨hb.nonneg i, hb.le i hi⟩
  rw [hsum] at hshift
  exact (sub_le_sub_iff_right _).mp hshift

end Cheapest

/-! ## Handing out along a list -/

section Share

variable [DecidableEq ι] {w : ι → Int} {l : List ι} {ps : List (ι × Int)} {rem : Int} {i : ι}

theorem share_cons (p : ι × Int) (ps : List (ι × Int)) (i : ι) :
    share (p :: ps) i = (if p.1 = i then p.2 else 0) + share ps i := by
  unfold share
  by_cases e : p.1 = i
  · rw [if_pos e, filter_cons_of_pos (by simpa using e), map_cons, sum_cons]
  · rw [if_neg e, filter_cons_of_neg (by simpa using e), Int.zero_add]

theorem share_none (h : ∀ p ∈ ps, p.1 ≠ i) : share ps i = 0 := by
  unfold share
  rw [filter_eq_nil_iff.mpr fun p hp hc => h p hp (of_decide_eq_true hc)]
  rfl

/-- Sums over the items are sums over the grants. -/
theorem sum_share [CommRing K] (f : ι → K) (hn : l.Nodup) (h : ∀ p ∈ ps, p.1 ∈ l) :
    (l.map fun i => (share ps i : K) * f i).sum = (ps.map fun p => (p.2 : K) * f p.1).sum := by
  induction ps with
  | nil =>
    have hzero : ∀ i, share ([] : List (ι × Int)) i = 0 := fun _ => rfl
    simp [hzero]
  | cons p ps ih =>
    have hrest := ih fun q hq => h q (mem_cons_of_mem _ hq)
    have hone : (l.map fun i => ((if p.1 = i then p.2 else 0 : Int) : K) * f i).sum = (p.2 : K) * f p.1 := by
      have hp := h p mem_cons_self
      clear ih hrest h
      induction l with
      | nil => cases hp
      | cons j l ihl =>
        obtain ⟨hj, hl⟩ := nodup_cons.mp hn
        rw [map_cons, sum_cons]
        by_cases e : p.1 = j
        · have hnone : (l.map fun i => ((if p.1 = i then p.2 else 0 : Int) : K) * f i).sum = 0 := by
            refine sum_eq_zero fun x hx => ?_
            obtain ⟨i, hi, rfl⟩ := mem_map.mp hx
            have hne : p.1 ≠ i := fun hc => hj (e ▸ hc ▸ hi)
            simp [hne]
          rw [hnone, if_pos e, e, add_zero]
        · rw [if_neg e, ihl hl ((mem_cons.mp hp).resolve_left e)]
          simp
    simp only [share_cons, Int.cast_add, add_mul, map_cons, sum_cons]
    rw [sum_map_add, hone, hrest]

/-- What each gets: the first one what there is, the others what is left. -/
theorem share_allot_cons (hi : i ∉ l) (h : 0 < rem) (j : ι) :
    share (allot w rem (i :: l)) j = if i = j then min (w i) rem else share (allot w (rem - min (w i) rem) l) j := by
  rw [allot_cons h, share_cons]
  by_cases e : i = j
  · have hnone : share (allot w (rem - min (w i) rem) l) j = 0 := by
      refine share_none fun p hp hc => hi ?_
      rw [e, ← hc]
      exact allot_fst_mem hp
    rw [if_pos e, if_pos e, hnone, Int.add_zero]
  · rw [if_neg e, if_neg e, Int.zero_add]

theorem allot_feasible (hn : l.Nodup) (hw : ∀ a ∈ l, 0 < w a) (rem : Int) : Feasible w l (share (allot w rem l)) := by
  have hout : ∀ i, i ∉ l → share (allot w rem l) i = 0 := by
    intro i hi
    refine share_none fun p hp hc => hi ?_
    rw [← hc]
    exact allot_fst_mem hp
  have hin : ∀ i ∈ l, 0 ≤ share (allot w rem l) i ∧ share (allot w rem l) i ≤ w i := by
    clear hout
    induction l generalizing rem with
    | nil => exact fun i hi => absurd hi not_mem_nil
    | cons j l ih =>
      obtain ⟨hj, hl⟩ := nodup_cons.mp hn
      intro i hi
      have hwi := hw i hi
      by_cases hr : 0 < rem
      · rw [share_allot_cons hj hr]
        split
        · rename_i e
          rw [e]
          omega
        · rename_i hne
          have hmem : i ∈ l := (mem_cons.mp hi).resolve_left fun e => hne e.symm
          exact ih hl (fun a ha => hw a (mem_cons_of_mem _ ha)) _ i hmem
      · rw [allot_nonpos (not_lt.mp hr)]
        exact ⟨le_rfl, hwi.le⟩
  refine ⟨fun i => ?_, fun i hi => (hin i hi).2, hout⟩
  by_cases hi : i ∈ l
  · exact (hin i hi).1
  · exact (hout i hi).ge

/-- Who gets something are those of the grants. -/
theorem filter_share_allot (hn : l.Nodup) (hw : ∀ a ∈ l, 0 < w a) (rem : Int) :
    (l.filter fun i => share (allot w rem l) i ≠ 0) = (allot w rem l).map Prod.fst := by
  induction l generalizing rem with
  | nil => rfl
  | cons i l ih =>
    obtain ⟨hi, hl⟩ := nodup_cons.mp hn
    have hwi := hw i mem_cons_self
    by_cases hr : 0 < rem
    · have hrest : (l.filter fun j => share (allot w rem (i :: l)) j ≠ 0) =
          l.filter fun j => share (allot w (rem - min (w i) rem) l) j ≠ 0 := by
        refine filter_congr fun j hj => ?_
        have hne : i ≠ j := by
          intro e
          exact hi (e ▸ hj)
        rw [share_allot_cons hi hr, if_neg hne]
      have hfirst : share (allot w rem (i :: l)) i ≠ 0 := by
        rw [share_allot_cons hi hr, if_pos rfl]
        omega
      rw [filter_cons_of_pos (by simpa using hfirst), hrest, ih hl fun a ha => hw a (mem_cons_of_mem _ ha)]
      rw [allot_cons hr, map_cons]
    · have hnone : allot w rem (i :: l) = [] := allot_nonpos (not_lt.mp hr) _
      rw [hnone]
      exact filter_eq_nil_iff.mpr fun j _ => by simp [share]

/-- Along a list sorted by price, the last one who gets something sets the marginal price. -/
theorem allot_marginal [LinearOrder K] [Inhabited K] {price : ι → K} (hn : l.Nodup) (hs : l.Pairwise fun i j => price i ≤ price j)
    (hw : ∀ a ∈ l, 0 < w a) (rem : Int) : ∃ m, Marginal price w l (share (allot w rem l)) m := by
  induction l generalizing rem with
  | nil => exact ⟨default, fun i hi => absurd hi not_mem_nil, fun i hi => absurd hi not_mem_nil⟩
  | cons i l ih =>
    obtain ⟨hi, hl⟩ := nodup_cons.mp hn
    obtain ⟨hfirst, hsl⟩ := pairwise_cons.mp hs
    have hcheapest : ∀ j ∈ i :: l, price i ≤ price j := by
      intro j hj
      rcases mem_cons.mp hj with rfl | hj
      · exact le_rfl
      · exact hfirst j hj
    by_cases hr : 0 < rem
    · by_cases hle : w i ≤ rem
      · obtain ⟨m, hbelow, habove⟩ := ih hl hsl (fun a ha => hw a (mem_cons_of_mem _ ha)) (rem - w i)
        refine ⟨max m (price i), fun j hj hlt => ?_, fun j hj hlt => ?_⟩
        · rw [share_allot_cons hi hr, min_eq_left hle]
          split
          · rename_i e
            rw [e]
          · rename_i hne
            have hjl : j ∈ l := (mem_cons.mp hj).resolve_left fun e => hne e.symm
            rcases lt_max_iff.mp hlt with hlt | hlt
            · exact hbelow j hjl hlt
            · exact absurd (hcheapest j hj) (not_le.mpr hlt)
        · obtain ⟨h1, h2⟩ := max_lt_iff.mp hlt
          rw [share_allot_cons hi hr, min_eq_left hle]
          have hne : i ≠ j := by
            rintro rfl
            exact lt_irrefl _ h2
          rw [if_neg hne]
          exact habove j ((mem_cons.mp hj).resolve_left fun e => hne e.symm) h1
      · -- the first one gets all of it
        refine ⟨price i, fun j hj hlt => absurd (hcheapest j hj) (not_le.mpr hlt), fun j hj hlt => ?_⟩
        have hne : i ≠ j := by
          rintro rfl
          exact lt_irrefl _ hlt
        rw [share_allot_cons hi hr, if_neg hne, allot_nonpos (by omega)]
        rfl
    · refine ⟨price i, fun j hj hlt => absurd (hcheapest j hj) (not_le.mpr hlt), fun j hj _ => ?_⟩
      rw [allot_nonpos (not_lt.mp hr)]
      rfl

theorem totalOf_allot (hn : l.Nodup) (hw : ∀ a ∈ l, 0 < w a) (h0 : 0 ≤ rem) :
    totalOf l (share (allot w rem l)) = min rem (l.map w).sum := by
  rw [← allot_sum hw h0]
  have hsum : (l.map fun i => (share (allot w rem l) i : Int) * 1).sum = ((allot w rem l).map fun p => (p.2 : Int) * 1).sum :=
    sum_share (fun _ => 1) hn fun p hp => allot_fst_mem hp
  simpa [totalOf] using hsum

theorem costOf_allot [CommRing K] (price : ι → K) (hn : l.Nodup) (rem : Int) :
    costOf price l (share (allot w rem l)) = ((allot w rem l).map fun p => (p.2 : K) * price p.1).sum :=
  sum_share price hn fun _ hp => allot_fst_mem hp

/-- `l'` is the list `l` of distinct items, each with something to give, by price. -/
structure Priced [LinearOrder K] (price : ι → K) (w : ι → Int) (l l' : List ι) : Prop where
  perm : l'.Perm l
  nodup : l.Nodup
  pos : ∀ i ∈ l, 0 < w i
  sorted : l'.Pairwise fun i j => price i ≤ price j

namespace Priced

variable [LinearOrder K] {price : ι → K} {l' : List ι} (h : Priced price w l l')

include h

omit [DecidableEq ι] in
theorem nodup' : l'.Nodup := h.perm.nodup_iff.mpr h.nodup

omit [DecidableEq ι] in
theorem pos' : ∀ i ∈ l', 0 < w i := fun i hi => h.pos i (h.perm.subset hi)

theorem feasible (rem : Int) : Feasible w l (share (allot w rem l')) := (allot_feasible h.nodup' h.pos' rem).perm h.perm

omit [DecidableEq ι] in
theorem granted (h0 : 0 ≤ rem) : ((allot w rem l').map Prod.snd).sum = min rem (totalOf l w) := by
  rw [allot_sum h.pos' h0, ← totalOf_perm h.perm]
  rfl

theorem total (h0 : 0 ≤ rem) : totalOf l (share (allot w rem l')) = min rem (totalOf l w) := by
  rw [← totalOf_perm h.perm, ← totalOf_perm h.perm w]
  exact totalOf_allot h.nodup' h.pos' h0

theorem cost [CommRing K] (f : ι → K) (rem : Int) :
    costOf f l (share (allot w rem l')) = ((allot w rem l').map fun p => (p.2 : K) * f p.1).sum := by
  rw [← costOf_perm h.perm]
  exact costOf_allot f h.nodup' rem

theorem count (rem : Int) : (l.filter fun i => share (allot w rem l') i ≠ 0).length = (allot w rem l').length := by
  rw [← (h.perm.filter _).length_eq, filter_share_allot h.nodup' h.pos', length_map]

/-- Handing out along a list sorted by price is the cheapest way. -/
theorem cheapest [CommRing K] [IsStrictOrderedRing K] {b : ι → Int} (hb : Feasible w l b)
    (hsum : totalOf l b = totalOf l (share (allot w rem l'))) : costOf price l (share (allot w rem l')) ≤ costOf price l b := by
  have : Inhabited K := ⟨0⟩
  obtain ⟨m, hm⟩ := allot_marginal h.nodup' h.sorted h.pos' rem
  rw [← totalOf_perm h.perm, ← totalOf_perm h.perm] at hsum
  rw [← costOf_perm h.perm, ← costOf_perm h.perm]
  exact hm.cheapest (hb.perm h.perm.symm) hsum.symm

end Priced

end Share

/-! ## Sorting by swaps -/

section Exchange

variable (better : ι → ι → Bool)

/-- The place of `x` is compared with each one behind it, and swapped if that is better. -/
def exchange : ι → List ι → ι × List ι
  | x, [] => (x, [])
  | x, y :: l =>
    if better y x then ((exchange y l).1, x :: (exchange y l).2) else ((exchange x l).1, y :: (exchange x l).2)

/-- The first `n` places in turn. -/
def exchangeSort : Nat → List ι → List ι
  | n + 1, x :: l => (exchange better x l).1 :: exchangeSort n (exchange better x l).2
  | _, l => l

variable {better} {x y : ι} {l : List ι}

theorem exchange_perm (x : ι) (l : List ι) : ((exchange better x l).1 :: (exchange better x l).2).Perm (x :: l) := by
  induction l generalizing x with
  | nil => exact List.Perm.refl _
  | cons y l ih =>
    unfold exchange
    split
    · refine (List.Perm.swap _ _ _).trans ?_
      exact (ih y).cons x
    · refine (List.Perm.swap _ _ _).trans (((ih x).cons y).trans ?_)
      exact List.Perm.swap _ _ _

/-- Whoever ends up in front is beaten by nobody, if better is what a rank says. -/
theorem exchange_best [LinearOrder K] {rank : ι → K} (hb : ∀ x y, better x y ↔ rank x < rank y) (x : ι) (l : List ι) :
    ∀ y ∈ x :: l, rank (exchange better x l).1 ≤ rank y := by
  induction l generalizing x with
  | nil =>
    intro y hy
    rw [mem_singleton.mp hy]
    exact le_rfl
  | cons z l ih =>
    intro y hy
    unfold exchange
    split
    · rename_i hc
      rcases mem_cons.mp hy with rfl | hy
      · exact (ih z z mem_cons_self).trans ((hb z y).mp hc).le
      · exact ih z y hy
    · rename_i hc
      have hxz : rank x ≤ rank z := not_lt.mp fun hlt => hc ((hb z x).mpr hlt)
      rcases mem_cons.mp hy with rfl | hy
      · exact ih y y mem_cons_self
      · rcases mem_cons.mp hy with rfl | hy
        · exact (ih x x mem_cons_self).trans hxz
        · exact ih x y (mem_cons_of_mem _ hy)

theorem exchangeSort_perm (n : Nat) (l : List ι) : (exchangeSort better n l).Perm l := by
  induction n generalizing l with
  | zero =>
    unfold exchangeSort
    cases l <;> exact List.Perm.refl _
  | succ n ih =>
    cases l with
    | nil => exact List.Perm.refl _
    | cons x l => exact ((ih _).cons _).trans (exchange_perm x l)

theorem exchangeSort_sorted [LinearOrder K] {rank : ι → K} (hb : ∀ x y, better x y ↔ rank x < rank y) {n : Nat}
    {l : List ι} (hn : l.length ≤ n + 1) : (exchangeSort better n l).Pairwise fun i j => rank i ≤ rank j := by
  induction n generalizing l with
  | zero =>
    cases l with
    | nil => exact List.Pairwise.nil
    | cons x l =>
      have hnil : l = [] := eq_nil_of_length_eq_zero (by simpa using hn)
      subst hnil
      exact pairwise_singleton _ _
  | succ n ih =>
    cases l with
    | nil => exact List.Pairwise.nil
    | cons x l =>
      have hperm : ((exchange better x l).1 :: (exchange better x l).2).Perm (x :: l) := exchange_perm x l
      have hlen := hperm.length_eq
      simp only [length_cons] at hn hlen
      refine pairwise_cons.mpr ⟨fun y hy => ?_, ih (by omega)⟩
      exact exchange_best hb x l y (hperm.subset (mem_cons_of_mem _ ((exchangeSort_perm n _).subset hy)))

end Exchange

/-! ## The best of a list -/

section Best

variable {better : ι → ι → Prop} [DecidableRel better] {rank : ι → K}

/-- Keeping the better of two along a list. -/
theorem foldl_best_mem (l : List ι) (i : ι) : l.foldl (fun b j => if better j b then j else b) i ∈ i :: l := by
  induction l generalizing i with
  | nil => exact mem_cons_self
  | cons j l ih =>
    rw [foldl_cons]
    rcases mem_cons.mp (ih (if better j i then j else i)) with h | h
    · rw [h]
      split
      · exact mem_cons_of_mem _ mem_cons_self
      · exact mem_cons_self
    · exact mem_cons_of_mem _ (mem_cons_of_mem _ h)

theorem foldl_best_le [LinearOrder K] (hb : ∀ i j, better i j ↔ rank i < rank j) (l : List ι) (i : ι) :
    ∀ j ∈ i :: l, rank (l.foldl (fun b j => if better j b then j else b) i) ≤ rank j := by
  induction l generalizing i with
  | nil =>
    intro j hj
    rw [mem_singleton.mp hj]
    exact le_rfl
  | cons k l ih =>
    intro j hj
    rw [foldl_cons]
    have hfirst := ih (if better k i then k else i) _ mem_cons_self
    have hboth : rank (if better k i then k else i) ≤ rank i ∧ rank (if better k i then k else i) ≤ rank k := by
      split
      · rename_i h
        exact ⟨((hb k i).mp h).le, le_rfl⟩
      · rename_i h
        exact ⟨le_rfl, not_lt.mp fun hc => h ((hb k i).mpr hc)⟩
    rcases mem_cons.mp hj with rfl | hj
    · exact hfirst.trans hboth.1
    · rcases mem_cons.mp hj with rfl | hj
      · exact hfirst.trans hboth.2
      · exact ih _ j (mem_cons_of_mem _ hj)

end Best

/-! ## Sorting by picking -/

section Picking

variable [LinearOrder K] (rank : ι → K)

/-- The choice so far and one more candidate. -/
def keepBest (best : Option ι) (i : ι) : Option ι :=
  match best with
  | none => some i
  | some b => if rank i < rank b then some i else some b

/-- The first of the best. -/
def firstBest (l : List ι) : Option ι := l.foldl (keepBest rank) none

variable {rank}

theorem firstBest_cons (i : ι) (l : List ι) :
    firstBest rank (i :: l) = some (l.foldl (fun b j => if rank j < rank b then j else b) i) := by
  change l.foldl (keepBest rank) (some i) = _
  induction l generalizing i with
  | nil => rfl
  | cons k l ih =>
    rw [foldl_cons, foldl_cons, keepBest]
    split
    · exact ih k
    · exact ih i

theorem firstBest_none (rank : ι → K) {l : List ι} : firstBest rank l = none ↔ l = [] := by
  cases l with
  | nil => exact ⟨fun _ => rfl, fun _ => rfl⟩
  | cons i l => simp [firstBest_cons]

theorem firstBest_best {l : List ι} {i : ι} (h : firstBest rank l = some i) : i ∈ l ∧ ∀ j ∈ l, rank i ≤ rank j := by
  cases l with
  | nil => cases h
  | cons k l =>
    rw [firstBest_cons] at h
    obtain rfl := Option.some.inj h
    exact ⟨foldl_best_mem l k, foldl_best_le (fun _ _ => Iff.rfl) l k⟩

variable (rank)

variable [LinearOrder ι]

/-- The first best of `l`, of the rest, and so on, up to `n` of them. -/
def picks : Nat → List ι → List ι
  | 0, _ => []
  | n + 1, l =>
    match firstBest rank l with
    | none => []
    | some i => i :: picks n (l.filter (· ≠ i))

/-- `i` is better than `j`, or as good and earlier. -/
def Ahead (i j : ι) : Prop := rank i < rank j ∨ rank i = rank j ∧ i < j

variable {rank} {l l' : List ι} {i j : ι} {n : Nat}

theorem foldl_keepBest (hl : l.Pairwise (· < ·)) (hb : ∀ j ∈ l, i < j) :
    ∃ b, l.foldl (keepBest rank) (some i) = some b ∧ b ∈ i :: l ∧ ∀ j ∈ i :: l, j ≠ b → Ahead rank b j := by
  induction l generalizing i with
  | nil => exact ⟨i, rfl, mem_cons_self, fun j hj hne => absurd (mem_singleton.mp hj) hne⟩
  | cons k l ih =>
    obtain ⟨hk, hl⟩ := pairwise_cons.mp hl
    have hik := hb k mem_cons_self
    by_cases hlt : rank k < rank i
    · obtain ⟨b, hfold, hmem, hbest⟩ := ih hl hk
      refine ⟨b, ?_, mem_cons_of_mem _ hmem, fun j hj hne => ?_⟩
      · rw [foldl_cons, show keepBest rank (some i) k = some k from if_pos hlt]
        exact hfold
      · rcases mem_cons.mp hj with rfl | hj
        · by_cases e : k = b
          · exact .inl (e ▸ hlt)
          · rcases hbest k mem_cons_self e with h | ⟨h, -⟩
            · exact .inl (h.trans hlt)
            · exact .inl (h ▸ hlt)
        · exact hbest j hj hne
    · obtain ⟨b, hfold, hmem, hbest⟩ := ih hl fun j hj => hb j (mem_cons_of_mem _ hj)
      refine ⟨b, ?_, ?_, fun j hj hne => ?_⟩
      · rw [foldl_cons, show keepBest rank (some i) k = some i from if_neg hlt]
        exact hfold
      · rcases mem_cons.mp hmem with h | h
        · exact mem_cons.mpr (.inl h)
        · exact mem_cons_of_mem _ (mem_cons_of_mem _ h)
      · rcases mem_cons.mp hj with rfl | hj
        · exact hbest j mem_cons_self hne
        · rcases mem_cons.mp hj with rfl | hj
          · -- `j` is passed over: `i` is as good, and earlier
            have hij : Ahead rank i j := by
              rcases (not_lt.mp hlt).lt_or_eq with h | h
              · exact .inl h
              · exact .inr ⟨h, hik⟩
            by_cases e : i = b
            · exact e ▸ hij
            · rcases hbest i mem_cons_self e with h | ⟨h, hbi⟩
              · rcases hij with h' | ⟨h', -⟩
                · exact .inl (h.trans h')
                · exact .inl (h' ▸ h)
              · rcases hij with h' | ⟨h', hij⟩
                · exact .inl (h ▸ h')
                · exact .inr ⟨h.trans h', hbi.trans hij⟩
          · exact hbest j (mem_cons_of_mem _ hj) hne

theorem firstBest_some (hl : l.Pairwise (· < ·)) (h : firstBest rank l = some i) :
    i ∈ l ∧ ∀ j ∈ l, j ≠ i → Ahead rank i j := by
  cases l with
  | nil => cases h
  | cons k l =>
    obtain ⟨hk, hl⟩ := pairwise_cons.mp hl
    obtain ⟨b, hfold, hmem, hbest⟩ := @foldl_keepBest _ _ _ rank _ _ _ hl hk
    have hb : some b = some i := hfold.symm.trans h
    cases hb
    exact ⟨hmem, hbest⟩

/-- Enough picks put the list in order. -/
theorem picks_sorted (hl : l.Pairwise (· < ·)) (hn : l.length ≤ n) :
    (picks rank n l).Perm l ∧ (picks rank n l).Pairwise (Ahead rank) := by
  induction n generalizing l with
  | zero =>
    have hnil : l = [] := eq_nil_of_length_eq_zero (by omega)
    rw [hnil]
    exact ⟨List.Perm.refl _, List.Pairwise.nil⟩
  | succ n ih =>
    unfold picks
    cases h : firstBest rank l with
    | none =>
      rw [(firstBest_none rank).mp h]
      exact ⟨List.Perm.refl _, List.Pairwise.nil⟩
    | some i =>
      obtain ⟨hi, hbest⟩ := firstBest_some hl h
      have hnodup : l.Nodup := hl.imp fun h => h.ne
      have herase : l.filter (· ≠ i) = l.erase i := by
        rw [hnodup.erase_eq_filter]
        refine filter_congr fun j _ => ?_
        by_cases e : j = i
        · simp [e]
        · simp [e]
      have hlen : (l.filter (· ≠ i)).length ≤ n := by
        rw [herase, length_erase_of_mem hi]
        omega
      obtain ⟨hperm, hsorted⟩ := ih (hl.sublist filter_sublist) hlen
      refine ⟨?_, pairwise_cons.mpr ⟨fun j hj => ?_, hsorted⟩⟩
      · refine (hperm.cons i).trans ?_
        rw [herase]
        exact (perm_cons_erase hi).symm
      · obtain ⟨hjl, hne⟩ := mem_filter.mp (hperm.subset hj)
        exact hbest j hjl (of_decide_eq_true hne)

end Picking

end HftLab.Lib
