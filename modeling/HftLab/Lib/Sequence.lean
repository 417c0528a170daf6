/-
  HftLab.Lib.Sequence — sequences kept in vectors: the unordered erase (`v[k] = v.back();
  v.pop_back()`), sums over a sequence and sums over the first `n` places.
-/

import Mathlib.Algebra.BigOperators.Group.Finset.Basic
import Mathlib.Tactic.Abel

namespace HftLab.Lib

open Function List

variable {α : Type} {l : List α} {k i n : Nat} {a : α} {f g : Nat → Int} {β : Type}

/-- `v[k] = v.back(); v.pop_back()`. -/
def swapErase (l : List α) (k : Nat) : List α :=
  match l.getLast? with
  | some x => (l.set k x).dropLast
  | none => l

/-- The erased element and the rest are what was there. -/
theorem swapErase_perm (h : l[k]? = some a) : l.Perm (a :: swapErase l k) := by
  obtain ⟨hk, ha⟩ := List.getElem?_eq_some_iff.mp h
  have hne : l ≠ [] := by
    rintro rfl
    simp at hk
  obtain ⟨init, x, rfl⟩ : ∃ init x, l = init ++ [x] := ⟨_, _, (dropLast_concat_getLast hne).symm⟩
  have hs : swapErase (init ++ [x]) k = ((init ++ [x]).set k x).dropLast := by simp [swapErase]
  rw [hs]
  by_cases e : k < init.length
  · rw [set_append_left _ _ e, dropLast_concat]
    have ha' : init[k] = a := by rw [← ha, getElem_append_left e]
    have h1 : (init.set k x).Perm (x :: init.eraseIdx k) := set_perm_cons_eraseIdx e x
    have h2 : (init[k] :: init.eraseIdx k).Perm init := getElem_cons_eraseIdx_perm e
    rw [ha'] at h2
    have h3 : (x :: init).Perm (a :: x :: init.eraseIdx k) := (h2.cons x).symm.trans (List.Perm.swap _ _ _)
    exact (perm_append_singleton x init).trans (h3.trans (h1.cons a).symm)
  · have hk' : k = init.length := by
      rw [length_append] at hk
      simp at hk
      omega
    subst hk'
    have hx : x = a := by simpa using ha
    subst hx
    simp

/-- One value changed: the sum over a sequence without repetitions changes by as much. -/
theorem sum_map_change [DecidableEq α] {f g : α → Int} (hn : l.Nodup) (ha : a ∈ l) (h : ∀ x, x ≠ a → g x = f x) :
    (l.map g).sum = (l.map f).sum + (g a - f a) := by
  have h1 := (perm_cons_erase ha).map g
  have h2 := (perm_cons_erase ha).map f
  have h3 : (l.erase a).map g = (l.erase a).map f :=
    map_congr_left fun x hx => h x fun e => hn.not_mem_erase (e ▸ hx)
  rw [h1.sum_eq, h2.sum_eq, map_cons, map_cons, sum_cons, sum_cons, h3]
  abel

theorem sum_map_erase [DecidableEq α] (f : α → Int) (ha : a ∈ l) : ((l.erase a).map f).sum = (l.map f).sum - f a := by
  rw [((perm_cons_erase ha).map f).sum_eq, map_cons, sum_cons]
  abel

theorem sum_map_set (f : α → Int) {b : α} (h : l[i]? = some a) : ((l.set i b).map f).sum = (l.map f).sum + (f b - f a) := by
  induction l generalizing i with
  | nil => cases h
  | cons x l ih =>
    cases i with
    | zero =>
      cases h
      rw [set_cons_zero, map_cons, map_cons, sum_cons, sum_cons]
      abel
    | succ i =>
      rw [set_cons_succ, map_cons, map_cons, sum_cons, sum_cons, ih h]
      abel

/-- What meets one of two conditions that exclude each other. -/
theorem sum_filter_or (f : α → Int) {P Q R : α → Bool} (hP : ∀ a ∈ l, P a = (Q a || R a))
    (hQR : ∀ a ∈ l, Q a → R a = false) :
    ((l.filter P).map f).sum = ((l.filter Q).map f).sum + ((l.filter R).map f).sum := by
  induction l with
  | nil => rfl
  | cons a l ih =>
    have hl := ih (fun x hx => hP x (mem_cons_of_mem _ hx)) fun x hx => hQR x (mem_cons_of_mem _ hx)
    have ha := hP a mem_cons_self
    have hx := hQR a mem_cons_self
    cases hq : Q a with
    | true =>
      rw [hq, Bool.true_or] at ha
      rw [filter_cons_of_pos ha, filter_cons_of_pos hq, filter_cons_of_neg (by simp [hx hq]), map_cons,
        map_cons, sum_cons, sum_cons, hl, Int.add_assoc]
    | false =>
      rw [hq, Bool.false_or] at ha
      cases hr : R a with
      | true =>
        rw [filter_cons_of_pos (ha.trans hr), filter_cons_of_neg (by simp [hq]), filter_cons_of_pos hr,
          map_cons, map_cons, sum_cons, sum_cons, hl]
        abel
      | false =>
        rw [filter_cons_of_neg (by simp [ha, hr]), filter_cons_of_neg (by simp [hq]),
          filter_cons_of_neg (by simp [hr]), hl]

theorem sum_filterMap (f : α → Option β) (g : β → Int) (l : List α) :
    ((l.filterMap f).map g).sum = (l.map fun a => ((f a).map g).getD 0).sum := by
  induction l with
  | nil => rfl
  | cons a l ih =>
    rw [map_cons, sum_cons, ← ih]
    cases hf : f a with
    | none => rw [filterMap_cons_none hf, Option.map_none, Option.getD_none, Int.zero_add]
    | some x => rw [filterMap_cons_some hf, map_cons, sum_cons, Option.map_some, Option.getD_some]

/-- One place changed: the sum changes by as much. -/
theorem sum_range_change (hi : i < n) (h : ∀ j, j ≠ i → g j = f j) :
    ∑ j ∈ Finset.range n, g j = ∑ j ∈ Finset.range n, f j + (g i - f i) := by
  have hm : i ∈ Finset.range n := Finset.mem_range.mpr hi
  rw [← Finset.add_sum_erase _ g hm, ← Finset.add_sum_erase _ f hm,
    Finset.sum_congr rfl fun j hj => h j (Finset.ne_of_mem_erase hj)]
  abel

/-- Two places changed. -/
theorem sum_range_change₂ (hi : i < n) (hk : k < n) (hne : i ≠ k) (h : ∀ j, j ≠ i → j ≠ k → g j = f j) :
    ∑ j ∈ Finset.range n, g j = ∑ j ∈ Finset.range n, f j + (g i - f i) + (g k - f k) := by
  have h1 : ∑ j ∈ Finset.range n, update f i (g i) j = ∑ j ∈ Finset.range n, f j + (g i - f i) := by
    rw [sum_range_change hi (fun j hj => update_of_ne hj _ f), update_self]
  have h2 : ∑ j ∈ Finset.range n, g j = ∑ j ∈ Finset.range n, update f i (g i) j + (g k - f k) := by
    rw [sum_range_change (f := update f i (g i)) hk, update_of_ne hne.symm]
    intro j hj
    by_cases e : j = i
    · rw [e, update_self]
    · rw [update_of_ne e, h j e hj]
  rw [h2, h1]

/-- A sum over sequences laid end to end. -/
theorem sum_map_flatMap (Q : β → List α) (w : α → Int) (l : List β) :
    ((l.flatMap Q).map w).sum = (l.map fun x => ((Q x).map w).sum).sum := by
  induction l with
  | nil => rfl
  | cons x l ih => rw [flatMap_cons, map_append, sum_append, ih, map_cons, sum_cons]

theorem sum_range_flatMap (Q : Nat → List α) (f : α → Bool) (w : α → Int) (n : Nat) :
    ((((List.range n).flatMap Q).filter f).map w).sum = ∑ k ∈ Finset.range n, (((Q k).filter f).map w).sum := by
  rw [filter_flatMap, sum_map_flatMap]
  induction n with
  | zero => rfl
  | succ n ih => rw [range_succ, map_append, sum_append, ih, Finset.sum_range_succ, map_singleton, sum_singleton]

end HftLab.Lib
