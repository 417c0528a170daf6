/-
  HftLab.Lib.Allotment — a quantity handed out along a list, and the first best of a list.

  `allot w rem l`: each entry in turn gets what it asks for (`w`), as long as anything is left of `rem`. All of it is handed
  out if enough is asked for, and who gets something finds everyone before him served in full (`allot_prior`).

  `seek`: the entry with the largest value, of those the one with the least cost, of those the first.
-/

import Mathlib.Algebra.Order.BigOperators.Group.List
import Mathlib.Algebra.Order.Group.Unbundled.Int
import Mathlib.Algebra.Ring.Int.Defs
import Mathlib.Data.List.Induction
import Mathlib.Order.Bounds.Defs

namespace HftLab.Lib

open List

section Allot

variable {α : Type} (w : α → Int)

def allot : Int → List α → List (α × Int)
  | _, [] => []
  | rem, a :: l => if 0 < rem then (a, min (w a) rem) :: allot (rem - min (w a) rem) l else []

variable {w} {rem q : Int} {a x : α} {l : List α}

theorem allot_nonpos (h : rem ≤ 0) (l : List α) : allot w rem l = [] := by
  cases l with
  | nil => rfl
  | cons a l => exact if_neg (by omega)

theorem allot_cons (h : 0 < rem) (a : α) (l : List α) :
    allot w rem (a :: l) = (a, min (w a) rem) :: allot w (rem - min (w a) rem) l := if_pos h

theorem allot_congr {w' : α → Int} (h : ∀ a ∈ l, w' a = w a) : allot w' rem l = allot w rem l := by
  induction l generalizing rem with
  | nil => rfl
  | cons a l ih =>
    unfold allot
    rw [h a mem_cons_self, ih fun b hb => h b (mem_cons_of_mem _ hb)]

theorem mem_allot (hw : ∀ a ∈ l, 0 < w a) (h : (a, q) ∈ allot w rem l) : a ∈ l ∧ 0 < q ∧ q ≤ w a := by
  induction l generalizing rem with
  | nil => cases h
  | cons b l ih =>
    by_cases hr : 0 < rem
    · rw [allot_cons hr] at h
      have hb := hw b (mem_cons_self ..)
      rcases mem_cons.mp h with e | h
      · obtain ⟨rfl, rfl⟩ := Prod.mk.inj e
        exact ⟨mem_cons_self .., by omega, by omega⟩
      · have := ih (fun a ha => hw a (mem_cons_of_mem _ ha)) h
        exact ⟨mem_cons_of_mem _ this.1, this.2⟩
    · rw [allot_nonpos (by omega)] at h
      cases h

theorem allot_sublist (rem : Int) (l : List α) : ((allot w rem l).map Prod.fst).Sublist l := by
  induction l generalizing rem with
  | nil => exact List.Sublist.refl _
  | cons a l ih =>
    by_cases hr : 0 < rem
    · rw [allot_cons hr]
      exact (ih _).cons_cons a
    · rw [allot_nonpos (by omega)]
      exact nil_sublist _

theorem allot_fst_mem {p : α × Int} (h : p ∈ allot w rem l) : p.1 ∈ l :=
  (allot_sublist rem l).subset (mem_map_of_mem h)

/-- What is handed out: all of it, or all that is asked for. -/
theorem allot_sum (hw : ∀ a ∈ l, 0 < w a) (h0 : 0 ≤ rem) : ((allot w rem l).map Prod.snd).sum = min rem (l.map w).sum := by
  induction l generalizing rem with
  | nil => simpa [allot] using h0
  | cons a l ih =>
    have ha := hw a (mem_cons_self ..)
    have hsum : 0 ≤ (l.map w).sum := sum_nonneg (by
      intro x hx
      obtain ⟨b, hb, rfl⟩ := mem_map.mp hx
      exact Int.le_of_lt (hw b (mem_cons_of_mem _ hb)))
    by_cases hr : 0 < rem
    · rw [allot_cons hr, map_cons, sum_cons, map_cons, sum_cons,
        ih (fun b hb => hw b (mem_cons_of_mem _ hb)) (by omega)]
      omega
    · rw [allot_nonpos (by omega), map_cons, sum_cons]
      simp
      omega

/-- Who gets something finds everyone before him served in full. -/
theorem allot_prior {R : α → α → Prop} (hR : ∀ x y, R x y → ¬ R y x) (hl : l.Pairwise R) (hx : x ∈ l) (hxa : R x a)
    (hw : ∀ a ∈ l, 0 < w a) (h : (a, q) ∈ allot w rem l) : (x, w x) ∈ allot w rem l := by
  induction l generalizing rem with
  | nil => cases hx
  | cons b l ih =>
    obtain ⟨hb, hl⟩ := pairwise_cons.mp hl
    have hw' : ∀ a ∈ l, 0 < w a := fun a ha => hw a (mem_cons_of_mem _ ha)
    by_cases hr : 0 < rem
    · rw [allot_cons hr] at h ⊢
      rcases mem_cons.mp h with e | h
      · obtain ⟨rfl, -⟩ := Prod.mk.inj e
        rcases mem_cons.mp hx with rfl | hx
        · exact absurd hxa (hR _ _ hxa)
        · exact absurd hxa (hR _ _ (hb x hx))
      · rcases mem_cons.mp hx with rfl | hx
        · -- Something is left after `x`, so that `x` was served in full.
          have hleft : 0 < rem - min (w x) rem := by
            by_contra hn
            rw [allot_nonpos (by omega)] at h
            cases h
          rw [min_eq_left (by omega)]
          exact mem_cons_self ..
        · exact mem_cons_of_mem _ (ih hl hx hw' h)
    · rw [allot_nonpos (by omega)] at h
      cases h

/-- Everyone is served in full if there is enough. -/
theorem allot_full_iff (hn : l.Nodup) (hw : ∀ a ∈ l, 0 < w a) (h0 : 0 ≤ rem) :
    (∀ x ∈ l, (x, w x) ∈ allot w rem l) ↔ (l.map w).sum ≤ rem := by
  induction l generalizing rem with
  | nil => simpa using h0
  | cons a l ih =>
    obtain ⟨hal, hn⟩ := nodup_cons.mp hn
    have ha := hw a (mem_cons_self ..)
    have hw' : ∀ a ∈ l, 0 < w a := fun b hb => hw b (mem_cons_of_mem _ hb)
    have hsum : 0 ≤ (l.map w).sum := sum_nonneg (by
      intro x hx
      obtain ⟨b, hb, rfl⟩ := mem_map.mp hx
      exact Int.le_of_lt (hw' b hb))
    rw [map_cons, sum_cons]
    constructor
    · intro h
      have hr : 0 < rem := by
        by_contra hn
        have := h a (mem_cons_self ..)
        rw [allot_nonpos (by omega)] at this
        cases this
      rw [allot_cons hr] at h
      have hhead : w a ≤ rem := by
        rcases mem_cons.mp (h a (mem_cons_self ..)) with e | he
        · have := (Prod.mk.inj e).2
          omega
        · exact absurd (mem_allot hw' he).1 hal
      have hrest : 0 ≤ rem - min (w a) rem := by omega
      have htail := (ih hn hw' hrest).mp fun x hx => by
        rcases mem_cons.mp (h x (mem_cons_of_mem _ hx)) with e | he
        · exact absurd ((Prod.mk.inj e).1 ▸ hx) hal
        · exact he
      omega
    · intro h x hx
      have hr : 0 < rem := by omega
      rw [allot_cons hr, min_eq_left (by omega)]
      rcases mem_cons.mp hx with rfl | hx
      · exact mem_cons_self ..
      · exact mem_cons_of_mem _ ((ih hn hw' (by omega)).mpr (by omega) x hx)

theorem allot_append (hw : ∀ a ∈ l, 0 < w a) (rem : Int) (l' : List α) :
    allot w rem (l ++ l') = allot w rem l ++ allot w (rem - ((allot w rem l).map Prod.snd).sum) l' := by
  induction l generalizing rem with
  | nil => simp [allot]
  | cons a l ih =>
    by_cases hr : 0 < rem
    · rw [cons_append, allot_cons hr, allot_cons hr, ih (fun b hb => hw b (mem_cons_of_mem _ hb)), cons_append,
        map_cons, sum_cons]
      congr 3
      omega
    · rw [allot_nonpos (by omega), allot_nonpos (by omega), allot_nonpos (by simpa using by omega), append_nil]

theorem allot_sum_pos (hw : ∀ a ∈ l, 0 < w a) (h : allot w rem l ≠ []) : 0 < ((allot w rem l).map Prod.snd).sum := by
  obtain ⟨p, ps, hps⟩ := exists_cons_of_ne_nil h
  have hgrant : ∀ p ∈ allot w rem l, 0 < p.2 := fun p hp => (mem_allot hw hp).2.1
  rw [hps] at hgrant ⊢
  have hp := hgrant p mem_cons_self
  have hrest : 0 ≤ (ps.map Prod.snd).sum := by
    refine sum_nonneg fun y hy => ?_
    obtain ⟨r, hr, rfl⟩ := mem_map.mp hy
    exact (hgrant r (mem_cons_of_mem _ hr)).le
  rw [map_cons, sum_cons]
  omega

/-- If there is enough, the number of grants is the least number of first items that is. -/
theorem allot_length_isLeast (hw : ∀ a ∈ l, 0 < w a) (h : rem ≤ (l.map w).sum) :
    IsLeast {k : Nat | rem ≤ ((l.take k).map w).sum} (allot w rem l).length := by
  induction l generalizing rem with
  | nil =>
    refine ⟨?_, fun k _ => Nat.zero_le k⟩
    simpa using h
  | cons i l ih =>
    have hi := hw i mem_cons_self
    have hl : ∀ a ∈ l, 0 < w a := fun a ha => hw a (mem_cons_of_mem _ ha)
    have htake : ∀ k, 0 ≤ ((l.take k).map w).sum := by
      intro k
      refine sum_nonneg fun y hy => ?_
      obtain ⟨a, ha, rfl⟩ := mem_map.mp hy
      exact (hl a (mem_of_mem_take ha)).le
    by_cases hr : 0 < rem
    · have hrest : rem - min (w i) rem ≤ (l.map w).sum := by
        have hall := htake l.length
        rw [take_length] at hall
        rw [map_cons, sum_cons] at h
        omega
      obtain ⟨henough, hleast⟩ := ih hl hrest
      rw [allot_cons hr, length_cons]
      refine ⟨?_, fun k hk => ?_⟩
      · simp only [Set.mem_ofPred_eq, take_succ_cons, map_cons, sum_cons] at henough ⊢
        omega
      · cases k with
        | zero =>
          simp at hk
          omega
        | succ k =>
          simp only [Set.mem_ofPred_eq, take_succ_cons, map_cons, sum_cons] at hk
          refine Nat.succ_le_succ (hleast ?_)
          have hk0 := htake k
          simp only [Set.mem_ofPred_eq]
          omega
    · rw [allot_nonpos (not_lt.mp hr)]
      refine ⟨?_, fun k _ => Nat.zero_le k⟩
      simpa using hr

end Allot

section Seek

variable {α : Type} [LinearOrder α] (value cost : α → Int)

/-- The better of the choice so far and one more entry. -/
def prefer (best : Option α) (a : α) : Option α :=
  match best with
  | none => some a
  | some b => if value b < value a ∨ (value a = value b ∧ cost a < cost b) then some a else some b

def seek (l : List α) : Option α := l.foldl (prefer value cost) none

/-- Of the entries of `l`, the one of the largest value, the least cost, the lowest. -/
structure Chosen (l : List α) (a : α) : Prop where
  mem : a ∈ l
  best : ∀ x ∈ l, value x ≤ value a
  cheapest : ∀ x ∈ l, value x = value a → cost a ≤ cost x
  lowest : ∀ x ∈ l, value x = value a → cost x = cost a → a ≤ x

variable {value cost} {l : List α} {a x : α}

theorem Chosen.snoc (h : Chosen value cost l a) (hx : ∀ b ∈ l, b < x) :
    ∃ b, prefer value cost (some a) x = some b ∧ Chosen value cost (l ++ [x]) b := by
  unfold prefer
  dsimp only
  split
  · rename_i hbetter
    refine ⟨x, rfl, by simp, ?_, ?_, ?_⟩ <;> intro b hb
    · rcases mem_append.mp hb with hb | hb
      · have := h.best b hb
        omega
      · rw [mem_singleton.mp hb]
    · intro e
      rcases mem_append.mp hb with hb | hb
      · have h1 := h.best b hb
        rcases hbetter with hlt | ⟨he, hlt⟩
        · omega
        · have := h.cheapest b hb (by omega)
          omega
      · rw [mem_singleton.mp hb]
    · intro e e'
      rcases mem_append.mp hb with hb | hb
      · have h1 := h.best b hb
        rcases hbetter with hlt | ⟨he, hlt⟩
        · omega
        · have := h.cheapest b hb (by omega)
          omega
      · rw [mem_singleton.mp hb]
  · rename_i hworse
    push Not at hworse
    refine ⟨a, rfl, mem_append_left _ h.mem, ?_, ?_, ?_⟩ <;> intro b hb
    · rcases mem_append.mp hb with hb | hb
      · exact h.best b hb
      · rw [mem_singleton.mp hb]
        exact hworse.1
    · intro e
      rcases mem_append.mp hb with hb | hb
      · exact h.cheapest b hb e
      · rw [mem_singleton.mp hb] at e ⊢
        exact hworse.2 e
    · intro e e'
      rcases mem_append.mp hb with hb | hb
      · exact h.lowest b hb e e'
      · rw [mem_singleton.mp hb]
        exact le_of_lt (hx a h.mem)

/-- On an ascending list the search finds the choice. -/
theorem seek_chosen (hl : l.Pairwise (· < ·)) (hne : l ≠ []) : ∃ a, seek value cost l = some a ∧ Chosen value cost l a := by
  induction l using List.reverseRecOn with
  | nil => exact absurd rfl hne
  | append_singleton l x ih =>
    obtain ⟨hl, -, hx⟩ := pairwise_append.mp hl
    unfold seek
    rw [foldl_append]
    by_cases hn : l = []
    · subst hn
      exact ⟨x, rfl, by simp, by simp, by simp, by simp⟩
    · obtain ⟨a, ha, hc⟩ := ih hl hn
      unfold seek at ha
      rw [ha]
      exact hc.snoc fun b hb => hx b hb x (mem_singleton_self x)

end Seek

end HftLab.Lib
