/-
  HftLab.Lib.Ring — positions on a ring of `n` cells: position `i` lies in cell `i % n`. Positions less than `n` apart
  lie in different cells.

  `ringSpan n pos m` are the cells of the `m` positions from `pos` on, and `RingHolds` says that they hold the elements
  of a list. Where a list is written on past the ring's end, a cell holds the latest of its elements (`Latest`).
-/

import Mathlib.Data.Int.ModEq

namespace HftLab.Lib

open Function List

theorem ring_inj {n i j : Nat} (h : i % n = j % n) (hij : i < j + n) (hji : j < i + n) : i = j := by
  have hi := Nat.div_add_mod i n
  have hj := Nat.div_add_mod j n
  rcases Nat.lt_trichotomy (i / n) (j / n) with hlt | heq | hgt
  · have h1 := Nat.mul_le_mul_left n hlt
    rw [Nat.mul_succ] at h1
    omega
  · rw [heq] at hi
    omega
  · have h1 := Nat.mul_le_mul_left n hgt
    rw [Nat.mul_succ] at h1
    omega

theorem ring_inj_int {n i j : Int} (h : i % n = j % n) (hij : i < j + n) (hji : j < i + n) : i = j := by
  have hdvd : n ∣ i - j := Int.dvd_of_emod_eq_zero (Int.emod_eq_emod_iff_emod_sub_eq_zero.mp h)
  have hzero : i - j = 0 := Int.eq_zero_of_abs_lt_dvd hdvd (by rw [abs_lt]; omega)
  omega

/-! ## Lists on a ring -/

variable {α : Type} {buf : Nat → α} {n pos : Nat} {l : List α}

def ringSpan (n pos m : Nat) : List Nat := (List.range m).map fun i => (pos + i) % n

def RingHolds (buf : Nat → α) (n pos : Nat) (l : List α) : Prop := ∀ i x, l[i]? = some x → buf ((pos + i) % n) = x

theorem ringSpan_length (n pos m : Nat) : (ringSpan n pos m).length = m := by
  unfold ringSpan
  rw [length_map, length_range]

theorem ringSpan_get {n pos m i : Nat} (h : i < m) : (ringSpan n pos m)[i]? = some ((pos + i) % n) := by
  unfold ringSpan
  rw [List.getElem?_map, List.getElem?_range h]
  rfl

theorem ringSpan_add (n pos a b : Nat) : ringSpan n pos (a + b) = ringSpan n pos a ++ ringSpan n ((pos + a) % n) b := by
  unfold ringSpan
  rw [range_add, map_append, map_map]
  refine congrArg _ (map_congr_left fun i _ => ?_)
  show (pos + (a + i)) % n = ((pos + a) % n + i) % n
  rw [Nat.mod_add_mod, Nat.add_assoc]

/-- A span that does not reach the end of the ring. -/
theorem ringSpan_eq_range {n pos m : Nat} (h : pos + m ≤ n) : ringSpan n pos m = List.range' pos m := by
  rw [range'_eq_map_range]
  refine map_congr_left fun i hi => Nat.mod_eq_of_lt ?_
  have := mem_range.mp hi
  omega

theorem RingHolds.nil (buf : Nat → α) (n pos : Nat) : RingHolds buf n pos [] := fun _ _ h => (by cases h)

theorem ringHolds_append {l' : List α} :
    RingHolds buf n pos (l ++ l') ↔ RingHolds buf n pos l ∧ RingHolds buf n ((pos + l.length) % n) l' := by
  constructor
  · intro h
    refine ⟨fun i x hx => h i x ?_, fun i x hx => ?_⟩
    · rw [List.getElem?_append_left (List.getElem?_eq_some_iff.mp hx).1]
      exact hx
    · rw [Nat.mod_add_mod, Nat.add_assoc]
      refine h (l.length + i) x ?_
      rw [List.getElem?_append_right (Nat.le_add_right _ _), Nat.add_sub_cancel_left]
      exact hx
  · rintro ⟨h1, h2⟩ i x hx
    by_cases hi : i < l.length
    · rw [List.getElem?_append_left hi] at hx
      exact h1 i x hx
    · rw [List.getElem?_append_right (by omega)] at hx
      have h3 := h2 (i - l.length) x hx
      rw [Nat.mod_add_mod, Nat.add_assoc, Nat.add_sub_cancel' (by omega)] at h3
      exact h3

/-- A store to another cell. -/
theorem RingHolds.update (h : RingHolds buf n pos l) {j : Nat} (x : α) (hj : ∀ i < l.length, (pos + i) % n ≠ j) :
    RingHolds (update buf j x) n pos l := by
  intro i y hy
  rw [update_of_ne (hj i (List.getElem?_eq_some_iff.mp hy).1)]
  exact h i y hy

/-! ## Written over -/

/-- No later one of `n` entries went to the slot of the `i`-th. -/
def Fresh (slot : Nat → Nat) (n i : Nat) : Prop := ∀ j, i < j → j < n → slot j ≠ slot i

/-- A slot holds the last of the entries that went there. -/
def Latest (slot : Nat → Nat) (buf : Nat → α) (l : List α) : Prop := ∀ i x, l[i]? = some x → Fresh slot l.length i → buf (slot i) = x

variable {slot : Nat → Nat} {i m : Nat}

theorem latest_nil (slot : Nat → Nat) (buf : Nat → α) : Latest slot buf [] := fun _ _ h => (by cases h)

theorem Latest.append (h : Latest slot buf l) (x : α) : Latest slot (update buf (slot l.length) x) (l ++ [x]) := by
  intro i y hy hfresh
  rw [length_append, length_singleton] at hfresh
  by_cases hi : i < l.length
  · rw [List.getElem?_append_left hi] at hy
    rw [update_of_ne (hfresh l.length hi (by omega)).symm]
    exact h i y hy fun j hj hl => hfresh j hj (by omega)
  · obtain ⟨hlt, hget⟩ := List.getElem?_eq_some_iff.mp hy
    rw [length_append, length_singleton] at hlt
    obtain rfl : i = l.length := by omega
    rw [getElem_concat_length rfl] at hget
    rw [update_self, hget]

/-- Some entry is the last in its slot. -/
theorem exists_fresh (slot : Nat → Nat) (hi : i < m) : ∃ j, i ≤ j ∧ j < m ∧ slot j = slot i ∧ Fresh slot m j := by
  induction hd : m - i using Nat.strongRecOn generalizing i with
  | ind d ih =>
    by_cases hfresh : Fresh slot m i
    · exact ⟨i, Nat.le_refl i, hi, rfl, hfresh⟩
    · unfold Fresh at hfresh
      push Not at hfresh
      obtain ⟨j, hij, hjm, hslot⟩ := hfresh
      obtain ⟨j', hle, hlt, hslot', hfresh'⟩ := ih (m - j) (by omega) hjm rfl
      exact ⟨j', by omega, hlt, hslot'.trans hslot, hfresh'⟩

theorem fresh_id (n i : Nat) : Fresh id n i := fun j hj _ => (by simp only [id]; omega)

theorem fresh_mod_iff {n m i : Nat} (hn : 0 < n) : Fresh (· % n) m i ↔ m ≤ i + n := by
  constructor
  · intro h
    by_contra hlt
    exact h (i + n) (by omega) (by omega) (Nat.add_mod_right i n)
  · intro hle j hij hjm heq
    have := ring_inj heq (by omega) (by omega)
    omega

end HftLab.Lib
