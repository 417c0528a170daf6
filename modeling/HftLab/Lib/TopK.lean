/-
  HftLab.Lib.TopK — the `k` entries of a list with the largest keys, kept in order while the list goes by.

  `TopOf key k S l r`: `r` are the best of `l`, the largest key first; entries with one key stand as `S` orders them, where `S` is the
  order in which they came. `TopOf.grow`, `TopOf.replace`, `TopOf.skip` are the three things a bounded insertion does with the next
  entry.
-/

import Mathlib.Data.List.Sort

namespace HftLab.Lib

open List

variable {α κ : Type} [LinearOrder κ] {key : α → κ} {S : α → α → Prop} {k : Nat} {l r : List α} {x z : α}

/-- `x` behind all entries whose key is as large. -/
def insertTop (key : α → κ) (x : α) (r : List α) : List α := r.orderedInsert (fun a b => key b < key a) x

/-- `a` may stand before `b`. -/
def Ranks (key : α → κ) (S : α → α → Prop) (a b : α) : Prop := key b < key a ∨ key b = key a ∧ S a b

theorem Ranks.key_le {a b : α} (h : Ranks key S a b) : key b ≤ key a := by
  rcases h with h | h
  · exact le_of_lt h
  · exact le_of_eq h.1

theorem perm_insertTop (x : α) (r : List α) : (insertTop key x r).Perm (x :: r) := perm_orderedInsert _ x r

theorem insertTop_length (x : α) (r : List α) : (insertTop key x r).length = r.length + 1 := (perm_insertTop x r).length_eq

/-- The next entry comes after all that are there. -/
theorem insertTop_pairwise (h : r.Pairwise (Ranks key S)) (hS : ∀ y ∈ r, S y x) : (insertTop key x r).Pairwise (Ranks key S) := by
  induction r with
  | nil => exact pairwise_singleton _ x
  | cons b r ih =>
    obtain ⟨hb, hr⟩ := pairwise_cons.mp h
    unfold insertTop
    rw [orderedInsert_cons]
    by_cases hlt : key b < key x
    · rw [if_pos hlt]
      refine pairwise_cons.mpr ⟨?_, h⟩
      intro c hc
      rcases mem_cons.mp hc with rfl | hc
      · exact .inl hlt
      · exact .inl (lt_of_le_of_lt (hb c hc).key_le hlt)
    · rw [if_neg hlt]
      refine pairwise_cons.mpr ⟨?_, ih hr fun y hy => hS y (mem_cons_of_mem _ hy)⟩
      intro c hc
      rcases mem_cons.mp ((perm_insertTop x r).mem_iff.mp hc) with rfl | hc
      · rcases lt_or_eq_of_le (not_lt.mp hlt) with hgt | heq
        · exact .inl hgt
        · exact .inr ⟨heq, hS b (mem_cons_self ..)⟩
      · exact hb c hc

theorem insertTop_concat (h : key z < key x) (r : List α) : insertTop key x (r ++ [z]) = insertTop key x r ++ [z] := by
  unfold insertTop
  induction r with
  | nil =>
    rw [nil_append, orderedInsert_cons, if_pos h]
    rfl
  | cons b r ih =>
    rw [cons_append, orderedInsert_cons, orderedInsert_cons, ih]
    by_cases hlt : key b < key x
    · rw [if_pos hlt, if_pos hlt]
      rfl
    · rw [if_neg hlt, if_neg hlt]
      rfl

theorem insertTop_last (h : ∀ y ∈ r, key x ≤ key y) : insertTop key x r = r ++ [x] := by
  unfold insertTop
  induction r with
  | nil => rfl
  | cons b r ih =>
    have hb : ¬key b < key x := not_lt.mpr (h b (mem_cons_self ..))
    rw [orderedInsert_cons, if_neg hb, ih fun y hy => h y (mem_cons_of_mem _ hy), cons_append]

/-! ## The best so far -/

/-- `r` are the `k` best of `l`. -/
structure TopOf (key : α → κ) (k : Nat) (S : α → α → Prop) (l r : List α) : Prop where
  length : r.length = min k l.length
  ranked : r.Pairwise (Ranks key S)
  best : ∃ rest, (r ++ rest).Perm l ∧ ∀ y ∈ rest, ∀ z ∈ r, key y ≤ key z

theorem TopOf.nil : TopOf key k S [] [] where
  length := (Nat.min_zero k).symm
  ranked := .nil
  best := ⟨[], .refl _, fun _ h => by cases h⟩

theorem TopOf.mem (h : TopOf key k S l r) (hz : z ∈ r) : z ∈ l := by
  obtain ⟨rest, hperm, -⟩ := h.best
  exact hperm.mem_iff.mp (mem_append_left _ hz)

/-- There is room for one more. -/
theorem TopOf.grow (h : TopOf key k S l r) (hroom : r.length < k) (hS : ∀ y ∈ l, S y x) :
    TopOf key k S (l ++ [x]) (insertTop key x r) := by
  have hlen := h.length
  obtain ⟨rest, hperm, hbest⟩ := h.best
  have hsum := hperm.length_eq
  rw [length_append] at hsum
  have hnone : rest = [] := length_eq_zero_iff.mp (by omega)
  subst hnone
  rw [append_nil] at hperm
  constructor
  · rw [insertTop_length, length_append, length_singleton]
    omega
  · exact insertTop_pairwise h.ranked fun y hy => hS y (h.mem hy)
  · refine ⟨[], ?_, fun _ hy => by cases hy⟩
    rw [append_nil]
    exact (perm_insertTop x r).trans ((hperm.cons x).trans (perm_append_singleton x l).symm)

/-- The last one gives way to a larger one. -/
theorem TopOf.replace (h : TopOf key k S l (r ++ [z])) (hfull : r.length + 1 = k) (hlt : key z < key x) (hS : ∀ y ∈ l, S y x) :
    TopOf key k S (l ++ [x]) (insertTop key x r) := by
  have hlen := h.length
  rw [length_append, length_singleton] at hlen
  obtain ⟨hr, -, hz⟩ := pairwise_append.mp h.ranked
  obtain ⟨rest, hperm, hbest⟩ := h.best
  constructor
  · rw [insertTop_length, length_append, length_singleton]
    omega
  · exact insertTop_pairwise hr fun y hy => hS y (h.mem (mem_append_left _ hy))
  · refine ⟨z :: rest, ?_, ?_⟩
    · have hmove : (insertTop key x r ++ z :: rest).Perm (x :: (r ++ [z] ++ rest)) := by
        rw [append_assoc]
        exact (perm_insertTop x r).append_right _
      exact hmove.trans ((hperm.cons x).trans (perm_append_singleton x l).symm)
    · intro y hy c hc
      have hyz : key y ≤ key z := by
        rcases mem_cons.mp hy with rfl | hy
        · exact le_refl _
        · exact hbest y hy z (mem_append_right _ (mem_singleton_self z))
      rcases mem_cons.mp ((perm_insertTop x r).mem_iff.mp hc) with rfl | hc
      · exact le_trans hyz (le_of_lt hlt)
      · exact le_trans hyz (hz c hc z (mem_singleton_self z)).key_le

/-- The next one is no larger than the last. -/
theorem TopOf.skip (h : TopOf key k S l (r ++ [z])) (hfull : r.length + 1 = k) (hle : key x ≤ key z) :
    TopOf key k S (l ++ [x]) (r ++ [z]) := by
  have hlen := h.length
  rw [length_append, length_singleton] at hlen
  obtain ⟨rest, hperm, hbest⟩ := h.best
  obtain ⟨-, -, hz⟩ := pairwise_append.mp h.ranked
  constructor
  · rw [length_append, length_singleton, length_append, length_singleton]
    omega
  · exact h.ranked
  · refine ⟨rest ++ [x], ?_, ?_⟩
    · rw [← append_assoc]
      exact hperm.append_right [x]
    · intro y hy c hc
      rcases mem_append.mp hy with hy | hy
      · exact hbest y hy c hc
      · rw [mem_singleton.mp hy]
        rcases mem_append.mp hc with hc | hc
        · exact le_trans hle (hz c hc z (mem_singleton_self z)).key_le
        · rw [mem_singleton.mp hc]
          exact hle

/-- The first of the best is the largest of all. -/
theorem TopOf.head_max (h : TopOf key k S l (z :: r)) : z ∈ l ∧ ∀ y ∈ l, key y ≤ key z := by
  obtain ⟨rest, hperm, hbest⟩ := h.best
  refine ⟨h.mem (mem_cons_self ..), ?_⟩
  intro y hy
  rcases mem_append.mp (hperm.mem_iff.mpr hy) with hy | hy
  · rcases mem_cons.mp hy with rfl | hy
    · exact le_refl _
    · exact ((pairwise_cons.mp h.ranked).1 y hy).key_le
  · exact hbest y hy z (mem_cons_self ..)

end HftLab.Lib
