/-
  HftLab.Lib.Crossing — a list of positive weights, walked from its front until the weights sum up to a target.

  `Crosses` splits the list where that happens; the part before is the longest that stays short of the target, so the entry is at
  the least position that covers it (`Crosses.isLeast`).
-/

import Mathlib.Algebra.Order.BigOperators.Group.List
import Mathlib.Algebra.Order.Group.Unbundled.Int
import Mathlib.Algebra.Ring.Int.Defs
import Mathlib.Order.Bounds.Defs

namespace HftLab.Lib

open List

variable {α : Type} (w : α → Int) {l before after : List α} {x : α} {n : Int}

def weight (l : List α) : Int := (l.map w).sum

/-- The weights reach `n` at `x`, and not before. -/
structure Crosses (l before : List α) (x : α) (after : List α) (n : Int) : Prop where
  eq : l = before ++ x :: after
  short : weight w before < n
  covered : n ≤ weight w before + w x

variable {w}

@[simp] theorem weight_nil : weight w [] = 0 := rfl

@[simp] theorem weight_cons (x : α) (l : List α) : weight w (x :: l) = w x + weight w l := by
  simp [weight]

@[simp] theorem weight_append (l l' : List α) : weight w (l ++ l') = weight w l + weight w l' := by
  simp [weight]

theorem weight_nonneg (h : ∀ x ∈ l, 0 < w x) : 0 ≤ weight w l := by
  apply sum_nonneg
  intro y hy
  obtain ⟨x, hx, rfl⟩ := mem_map.mp hy
  exact Int.le_of_lt (h x hx)

theorem weight_take_mono (h : ∀ x ∈ l, 0 < w x) {i j : Nat} (hij : i ≤ j) : weight w (l.take i) ≤ weight w (l.take j) := by
  have hsplit : l.take j = l.take i ++ (l.take j).drop i := by
    have htake : (l.take j).take i = l.take i := by rw [take_take, Nat.min_eq_left hij]
    rw [← htake, take_append_drop]
  have hrest : 0 ≤ weight w ((l.take j).drop i) :=
    weight_nonneg fun x hx => h x (mem_of_mem_take (mem_of_mem_drop hx))
  rw [hsplit, weight_append]
  omega

theorem exists_crosses (hn : 0 < n) (hle : n ≤ weight w l) : ∃ before x after, Crosses w l before x after n := by
  induction l generalizing n with
  | nil =>
    rw [weight_nil] at hle
    omega
  | cons y l ih =>
    rw [weight_cons] at hle
    by_cases hy : n ≤ w y
    · exact ⟨[], y, l, rfl, hn, by simpa using hy⟩
    · obtain ⟨before, x, after, heq, hshort, hcovered⟩ := ih (n := n - w y) (by omega) (by omega)
      refine ⟨y :: before, x, after, ?_, ?_, ?_⟩
      · rw [heq, cons_append]
      · rw [weight_cons]
        omega
      · rw [weight_cons]
        omega

theorem Crosses.take_eq (h : Crosses w l before x after n) : l.take (before.length + 1) = before ++ [x] := by
  rw [h.eq, append_cons]
  exact take_left' (by simp)

/-- The least number of entries that covers the target. -/
theorem Crosses.isLeast (h : Crosses w l before x after n) (hpos : ∀ x ∈ l, 0 < w x) :
    IsLeast {k : Nat | n ≤ weight w (l.take k)} (before.length + 1) := by
  have htake := h.take_eq
  have hcovered := h.covered
  have hshort := h.short
  constructor
  · show n ≤ weight w (l.take (before.length + 1))
    rw [htake, weight_append, weight_cons, weight_nil]
    omega
  · intro k hk
    have hk : n ≤ weight w (l.take k) := hk
    by_contra hlt
    have hmono := weight_take_mono hpos (show k ≤ before.length by omega)
    have hbefore : l.take before.length = before := by rw [h.eq, take_left]
    rw [hbefore] at hmono
    omega

end HftLab.Lib
