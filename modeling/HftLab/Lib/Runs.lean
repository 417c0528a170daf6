/-
  HftLab.Lib.Runs — sets of numbers in order: erasing from the front, and runs of consecutive numbers.

  - `eraseFront`: the loop that erases the lowest number as long as it meets a condition;
  - `IsRuns s l`: the intervals `l` are sorted, do not touch, and cover `s`. There is one such list (`IsRuns.unique`), and a pass over
    the numbers builds it by `extend` and `opened`.
-/

import Mathlib.Data.Finset.Max

namespace HftLab.Lib

open List

variable {s : Finset Nat} {p : Nat → Bool} {n x : Nat}

/-! ## Erasing from the front -/

/-- How many numbers were erased, and what is left; `n` turns are enough for a set of `n` numbers. -/
def eraseFront (p : Nat → Bool) : Nat → Finset Nat → Nat × Finset Nat
  | 0, s => (0, s)
  | n + 1, s =>
    if h : s.Nonempty then
      if p (s.min' h) then
        let r := eraseFront p n (s.erase (s.min' h))
        (r.1 + 1, r.2)
      else (0, s)
    else (0, s)

/-- A condition that the lower number meets when a higher one does. -/
theorem eraseFront_eq (hp : ∀ a ∈ s, ∀ b ∈ s, a ≤ b → p b → p a) (hn : s.card ≤ n) :
    eraseFront p n s = ((s.filter (p ·)).card, s.filter (p · = false)) := by
  induction n generalizing s with
  | zero =>
    have hs : s = ∅ := Finset.card_eq_zero.mp (Nat.le_zero.mp hn)
    subst hs
    rfl
  | succ n ih =>
    unfold eraseFront
    split
    · rename_i h
      have hmin := s.min'_mem h
      split
      · rename_i hm
        have hcard := Finset.card_erase_of_mem hmin
        have hrest := ih (s := s.erase (s.min' h))
          (fun a ha b hb => hp a (Finset.mem_of_mem_erase ha) b (Finset.mem_of_mem_erase hb)) (by omega)
        dsimp only
        rw [hrest, Finset.filter_erase, Finset.filter_erase]
        have herased : s.min' h ∈ s.filter (p ·) := Finset.mem_filter.mpr ⟨hmin, hm⟩
        have hkept : s.min' h ∉ s.filter (p · = false) := by
          simp [hm]
        rw [Finset.card_erase_add_one herased, Finset.erase_eq_of_notMem hkept]
      · rename_i hm
        -- a number that met the condition would have the lowest one meet it
        have hnone : ∀ a ∈ s, p a = false := by
          intro a ha
          by_contra hpa
          exact hm (hp _ hmin a ha (s.min'_le a ha) (Bool.of_not_eq_false hpa))
        rw [Finset.filter_true_of_mem hnone, Finset.filter_false_of_mem fun a ha => by simp [hnone a ha], Finset.card_empty]
    · rename_i h
      rw [Finset.not_nonempty_iff_eq_empty] at h
      subst h
      rfl

/-! ## Runs -/

/-- An interval is its lowest and its highest number. -/
structure IsRuns (s : Finset Nat) (l : List (Nat × Nat)) : Prop where
  ordered : ∀ r ∈ l, r.1 ≤ r.2
  apart : l.Pairwise fun r r' => r.2 + 1 < r'.1
  mem : ∀ x, x ∈ s ↔ ∃ r ∈ l, r.1 ≤ x ∧ x ≤ r.2

namespace IsRuns

variable {l l' : List (Nat × Nat)} {r : Nat × Nat}

theorem empty : IsRuns ∅ [] := ⟨by simp, List.Pairwise.nil, by simp⟩

theorem single (x : Nat) : IsRuns {x} [(x, x)] := by
  refine ⟨by simp, pairwise_singleton .., fun y => ?_⟩
  simp
  omega

theorem nil_iff (h : IsRuns s l) : l = [] ↔ s = ∅ := by
  constructor
  · intro hl
    subst hl
    exact Finset.eq_empty_of_forall_notMem fun x hx => by simpa using (h.mem x).mp hx
  · intro hs
    subst hs
    cases l with
    | nil => rfl
    | cons r l => exact absurd ((h.mem r.1).mpr ⟨r, mem_cons_self, Nat.le_refl _, h.ordered r mem_cons_self⟩) (by simp)

/-! ### The first run -/

theorem first_mem (h : IsRuns s (r :: l)) (hlow : r.1 ≤ x) (hhigh : x ≤ r.2) : x ∈ s :=
  (h.mem x).mpr ⟨r, mem_cons_self, hlow, hhigh⟩

/-- Whatever is not in the first run lies behind it. -/
theorem behind (h : IsRuns s (r :: l)) (hx : x ∈ s) : (r.1 ≤ x ∧ x ≤ r.2) ∨ r.2 + 1 < x := by
  obtain ⟨r', hr', hlow, hhigh⟩ := (h.mem x).mp hx
  rcases mem_cons.mp hr' with rfl | hr'
  · exact .inl ⟨hlow, hhigh⟩
  · have := rel_of_pairwise_cons h.apart hr'
    exact .inr (by omega)

theorem tail (h : IsRuns s (r :: l)) : IsRuns (s.filter (r.2 < ·)) l := by
  refine ⟨fun r' hr' => h.ordered r' (mem_cons_of_mem _ hr'), h.apart.of_cons, fun x => ?_⟩
  rw [Finset.mem_filter, h.mem]
  constructor
  · intro hx
    obtain ⟨⟨r', hr', hlow, hhigh⟩, hx⟩ := hx
    rcases mem_cons.mp hr' with rfl | hr'
    · omega
    · exact ⟨r', hr', hlow, hhigh⟩
  · intro hx
    obtain ⟨r', hr', hlow, hhigh⟩ := hx
    have := rel_of_pairwise_cons h.apart hr'
    exact ⟨⟨r', mem_cons_of_mem _ hr', hlow, hhigh⟩, by omega⟩

theorem first_eq {r' : Nat × Nat} (h : IsRuns s (r :: l)) (h' : IsRuns s (r' :: l')) : r = r' := by
  have hr := h.ordered r mem_cons_self
  have hr' := h'.ordered r' mem_cons_self
  have hlow := h'.behind (h.first_mem (Nat.le_refl r.1) hr)
  have hlow' := h.behind (h'.first_mem (Nat.le_refl r'.1) hr')
  refine Prod.ext (by omega) ?_
  -- the number behind the shorter run would be in the longer one
  rcases Nat.lt_trichotomy r.2 r'.2 with hlt | heq | hgt
  · have := h.behind (h'.first_mem (x := r.2 + 1) (by omega) (by omega))
    omega
  · exact heq
  · have := h'.behind (h.first_mem (x := r'.2 + 1) (by omega) (by omega))
    omega

theorem unique (h : IsRuns s l) (h' : IsRuns s l') : l = l' := by
  induction l generalizing s l' with
  | nil => exact (h'.nil_iff.mpr (h.nil_iff.mp rfl)).symm
  | cons r l ih =>
    cases l' with
    | nil => exact absurd (h.nil_iff.mpr (h'.nil_iff.mp rfl)) (by simp)
    | cons r' l' =>
      have hfirst := h.first_eq h'
      subst hfirst
      rw [ih h.tail h'.tail]

/-! ### One more number -/

variable {start prev : Nat}

/-- Nothing is above the last run. -/
theorem le_last (h : IsRuns s (l ++ [(start, prev)])) (hx : x ∈ s) : x ≤ prev := by
  obtain ⟨r, hr, hlow, hhigh⟩ := (h.mem x).mp hx
  rcases mem_append.mp hr with hr | hr
  · have hapart := (pairwise_append.mp h.apart).2.2 r hr (start, prev) mem_cons_self
    have hordered := h.ordered (start, prev) (by simp)
    omega
  · rw [mem_singleton] at hr
    subst hr
    exact hhigh

theorem extend (h : IsRuns s (l ++ [(start, prev)])) : IsRuns (insert (prev + 1) s) (l ++ [(start, prev + 1)]) := by
  have hordered := h.ordered (start, prev) (by simp)
  obtain ⟨hl, -, hlast⟩ := pairwise_append.mp h.apart
  refine ⟨fun r hr => ?_, pairwise_append.mpr ⟨hl, pairwise_singleton .., fun r hr r' hr' => ?_⟩, fun x => ?_⟩
  · rcases mem_append.mp hr with hr | hr
    · exact h.ordered r (mem_append_left _ hr)
    · rw [mem_singleton] at hr
      subst hr
      exact Nat.le_succ_of_le hordered
  · rw [mem_singleton] at hr'
    subst hr'
    exact hlast r hr (start, prev) mem_cons_self
  · rw [Finset.mem_insert, h.mem]
    simp only [mem_append, mem_singleton, or_and_right, exists_or, exists_eq_left]
    constructor
    · intro hx
      rcases hx with rfl | hx | hx
      · exact .inr ⟨by omega, Nat.le_refl _⟩
      · exact .inl hx
      · exact .inr ⟨hx.1, by omega⟩
    · intro hx
      rcases hx with hx | hx
      · exact .inr (.inl hx)
      · by_cases e : x = prev + 1
        · exact .inl e
        · exact .inr (.inr ⟨hx.1, by omega⟩)

theorem opened (h : IsRuns s (l ++ [(start, prev)])) (hx : prev + 1 < x) :
    IsRuns (insert x s) (l ++ [(start, prev)] ++ [(x, x)]) := by
  refine ⟨fun r hr => ?_, pairwise_append.mpr ⟨h.apart, pairwise_singleton .., fun r hr r' hr' => ?_⟩, fun y => ?_⟩
  · rcases mem_append.mp hr with hr | hr
    · exact h.ordered r hr
    · rw [mem_singleton] at hr
      subst hr
      exact Nat.le_refl x
  · rw [mem_singleton] at hr'
    subst hr'
    have hend := h.le_last ((h.mem r.2).mpr ⟨r, hr, h.ordered r hr, Nat.le_refl _⟩)
    omega
  · rw [Finset.mem_insert, h.mem]
    constructor
    · intro hy
      rcases hy with rfl | hy
      · exact ⟨(y, y), by simp, Nat.le_refl _, Nat.le_refl _⟩
      · obtain ⟨r, hr, hin⟩ := hy
        exact ⟨r, mem_append_left _ hr, hin⟩
    · intro hy
      obtain ⟨r, hr, hlow, hhigh⟩ := hy
      rcases mem_append.mp hr with hr | hr
      · exact .inr ⟨r, hr, hlow, hhigh⟩
      · rw [mem_singleton] at hr
        subst hr
        exact .inl (Nat.le_antisymm hhigh hlow)

end IsRuns

end HftLab.Lib
