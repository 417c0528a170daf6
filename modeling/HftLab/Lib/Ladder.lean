/-
  HftLab.Lib.Ladder — a list kept in order of rank, as the rungs of a ladder one after another.

  `ks.flatMap f` lists the rungs `f k` for the keys `ks`, lowest rank first. `rungs`: changing one rung
  changes the list there and nowhere else, with all of lower rank before it and all of higher rank behind.
-/

import Mathlib.Data.List.Pairwise
import Mathlib.Algebra.BigOperators.Group.List.Basic

namespace HftLab.Lib

open List

variable {α κ : Type} {rank : κ → Int} {ks : List κ} {k : κ} {f : κ → List α}

/-- The list splits around the rung of `k`, the same way whatever the rung holds. -/
theorem rungs (hs : ks.Pairwise fun i j => rank i < rank j) (hk : k ∈ ks) (f : κ → List α) :
    ∃ X Y : List α, (∀ a ∈ X, ∃ j, rank j < rank k ∧ a ∈ f j) ∧ (∀ a ∈ Y, ∃ j, rank k < rank j ∧ a ∈ f j) ∧
      ∀ g : κ → List α, (∀ j, j ≠ k → g j = f j) → ks.flatMap g = X ++ g k ++ Y := by
  obtain ⟨A, C, rfl⟩ := append_of_mem hk
  obtain ⟨-, hkC, hA⟩ := pairwise_append.mp hs
  have hlo : ∀ j ∈ A, rank j < rank k := fun j hj => hA j hj k mem_cons_self
  have hhi : ∀ j ∈ C, rank k < rank j := (pairwise_cons.mp hkC).1
  refine ⟨A.flatMap f, C.flatMap f, fun a ha => ?_, fun a ha => ?_, fun g hg => ?_⟩
  · obtain ⟨j, hj, haj⟩ := mem_flatMap.mp ha
    exact ⟨j, hlo j hj, haj⟩
  · obtain ⟨j, hj, haj⟩ := mem_flatMap.mp ha
    exact ⟨j, hhi j hj, haj⟩
  · have h1 : A.flatMap g = A.flatMap f := by
      refine flatMap_congr fun j hj => hg j ?_
      rintro rfl
      exact absurd (hlo j hj) (by omega)
    have h2 : C.flatMap g = C.flatMap f := by
      refine flatMap_congr fun j hj => hg j ?_
      rintro rfl
      exact absurd (hhi j hj) (by omega)
    rw [flatMap_append, flatMap_cons, h1, h2, append_assoc]

/-- A list whose first part meets `P` and whose second part does not. -/
theorem takeWhile_split {P : α → Bool} {x y : List α} (hx : ∀ a ∈ x, P a) (hy : ∀ a ∈ y, P a = false) :
    (x ++ y).takeWhile P = x ∧ (x ++ y).dropWhile P = y := by
  have h0 : y.takeWhile P = [] ∧ y.dropWhile P = y := by
    cases y with
    | nil => exact ⟨rfl, rfl⟩
    | cons a y =>
      have ha := hy a mem_cons_self
      exact ⟨takeWhile_cons_of_neg (by simp [ha]), dropWhile_cons_of_neg (by simp [ha])⟩
  rw [takeWhile_append_of_pos hx, dropWhile_append_of_pos hx, h0.1, h0.2, append_nil]
  exact ⟨rfl, rfl⟩

end HftLab.Lib
