/-
  HftLab.Lib.Streaks — what a list says when it is read entry by entry: the extremes of a quantity over its prefixes, the longest
  suffix and the longest segment of one kind, and the last change of a value.

  Each comes with what one more entry makes of it, which is what a program keeps of the entries it has seen.
-/

import Mathlib.Algebra.Order.Group.Unbundled.Int
import Mathlib.Data.List.Infix
import Mathlib.Order.Bounds.Basic

namespace HftLab.Lib

open List

variable {α β : Type} {l : List α} {x : α}

/-! ## Prefixes -/

/-- The values of `f` from the start of the list on. -/
def alongPrefixes (f : List α → β) (l : List α) : Set β := {d | ∃ p, p <+: l ∧ d = f p}

theorem alongPrefixes_nil (f : List α → β) : alongPrefixes f [] = {f []} := by
  ext d
  simp [alongPrefixes]

theorem alongPrefixes_concat (f : List α → β) (l : List α) (x : α) :
    alongPrefixes f (l ++ [x]) = insert (f (l ++ [x])) (alongPrefixes f l) := by
  ext d
  simp only [alongPrefixes, Set.mem_ofPred_eq, Set.mem_insert_iff, prefix_concat_iff]
  constructor
  · intro h
    obtain ⟨p, hp | hp, hd⟩ := h
    · left
      rw [hd, hp]
    · exact .inr ⟨p, hp, hd⟩
  · intro h
    rcases h with hd | ⟨p, hp, hd⟩
    · exact ⟨_, .inl rfl, hd⟩
    · exact ⟨p, .inr hp, hd⟩

theorem isGreatest_prefixes_concat [LinearOrder β] {f : List α → β} {m : β} (h : IsGreatest (alongPrefixes f l) m) :
    IsGreatest (alongPrefixes f (l ++ [x])) (max (f (l ++ [x])) m) := by
  rw [alongPrefixes_concat]
  exact h.insert _

theorem isLeast_prefixes_concat [LinearOrder β] {f : List α → β} {m : β} (h : IsLeast (alongPrefixes f l) m) :
    IsLeast (alongPrefixes f (l ++ [x])) (min (f (l ++ [x])) m) := by
  rw [alongPrefixes_concat]
  exact h.insert _

/-! ## Entries of one kind in a row -/

variable (kind : α → Bool)

/-- The longest suffix of the kind has `n` entries. -/
def Trailing (k : Bool) (l : List α) (n : Int) : Prop := IsGreatest {n : Int | ∃ s, s <:+ l ∧ (∀ y ∈ s, kind y = k) ∧ n = s.length} n

/-- The longest segment of the kind has `n` entries. -/
def Longest (k : Bool) (l : List α) (n : Int) : Prop := IsGreatest {n : Int | ∃ s, s <:+: l ∧ (∀ y ∈ s, kind y = k) ∧ n = s.length} n

/-- No segment of one kind is as long as `bound`. -/
def Brief (bound : Int) (l : List α) : Prop := ∀ k s, s <:+: l → (∀ y ∈ s, kind y = k) → (s.length : Int) < bound

variable {kind} {k : Bool} {m n : Int}

theorem trailing_nil : Trailing kind k [] 0 := by
  constructor
  · exact ⟨[], suffix_rfl, by simp, rfl⟩
  · intro n hn
    obtain ⟨s, hs, -, rfl⟩ := hn
    rw [suffix_nil.mp hs]
    simp

theorem longest_nil : Longest kind k [] 0 := by
  constructor
  · exact ⟨[], infix_rfl, by simp, rfl⟩
  · intro n hn
    obtain ⟨s, hs, -, rfl⟩ := hn
    rw [infix_nil.mp hs]
    simp

/-- One more of the kind. -/
theorem Trailing.concat (h : Trailing kind k l n) (hx : kind x = k) : Trailing kind k (l ++ [x]) (n + 1) := by
  constructor
  · obtain ⟨s, hs, hkind, rfl⟩ := h.1
    refine ⟨s ++ [x], suffix_concat_iff.mpr (.inr ⟨s, rfl, hs⟩), ?_, by simp⟩
    intro y hy
    rcases mem_append.mp hy with hy | hy
    · exact hkind y hy
    · rw [mem_singleton.mp hy]
      exact hx
  · intro n' hn'
    obtain ⟨s, hs, hkind, rfl⟩ := hn'
    rcases suffix_concat_iff.mp hs with rfl | ⟨t, rfl, ht⟩
    · obtain ⟨s, -, -, rfl⟩ := h.1
      rw [length_nil]
      omega
    · have hle := h.2 ⟨t, ht, fun y hy => hkind y (mem_append_left _ hy), rfl⟩
      rw [length_append, length_singleton]
      omega

/-- The other kind ends the suffix. -/
theorem trailing_broken (hx : kind x ≠ k) : Trailing kind k (l ++ [x]) 0 := by
  constructor
  · exact ⟨[], nil_suffix, by simp, rfl⟩
  · intro n hn
    obtain ⟨s, hs, hkind, rfl⟩ := hn
    rcases suffix_concat_iff.mp hs with rfl | ⟨s, rfl, -⟩
    · simp
    · exact absurd (hkind x (by simp)) hx

theorem Longest.concat (h : Longest kind k l m) (ht : Trailing kind k (l ++ [x]) n) : Longest kind k (l ++ [x]) (max m n) := by
  constructor
  · rcases max_choice m n with hmax | hmax
    · rw [hmax]
      obtain ⟨s, hs, hkind, hlen⟩ := h.1
      exact ⟨s, hs.trans (prefix_append l [x]).isInfix, hkind, hlen⟩
    · rw [hmax]
      obtain ⟨s, hs, hkind, hlen⟩ := ht.1
      exact ⟨s, hs.isInfix, hkind, hlen⟩
  · intro n' hn'
    obtain ⟨s, hs, hkind, hlen⟩ := hn'
    rcases infix_concat_iff.mp hs with hs | hs
    · exact le_max_of_le_right (ht.2 ⟨s, hs, hkind, hlen⟩)
    · exact le_max_of_le_left (h.2 ⟨s, hs, hkind, hlen⟩)

theorem Longest.nonneg (h : Longest kind k l n) : 0 ≤ n := by
  obtain ⟨s, -, -, rfl⟩ := h.1
  exact Int.natCast_nonneg _

theorem Brief.prefix {bound : Int} (h : Brief kind bound (l ++ [x])) : Brief kind bound l :=
  fun k s hs => h k s (hs.trans (prefix_append l [x]).isInfix)

theorem Trailing.lt {bound : Int} (h : Trailing kind k l n) (hb : Brief kind bound l) : n < bound := by
  obtain ⟨s, hs, hkind, rfl⟩ := h.1
  exact hb k s hs.isInfix hkind

/-! ## The last change -/

/-- The sign of the last change between neighbours, 0 when there is none. -/
def LastChange (values : List Int) (d : Int) : Prop :=
  (∀ x ∈ values, ∀ y ∈ values, x = y) ∧ d = 0 ∨
  ∃ before x y after, values = before ++ x :: y :: after ∧ x ≠ y ∧ (∀ z ∈ after, z = y) ∧ d = (y - x).sign

variable {values : List Int} {d y z : Int}

theorem lastChange_nil : LastChange [] 0 := .inl ⟨by simp, rfl⟩

theorem lastChange_singleton (y : Int) : LastChange [y] 0 := .inl ⟨by simp, rfl⟩

theorem LastChange.same (h : LastChange values d) (hlast : values.getLast? = some y) : LastChange (values ++ [y]) d := by
  rcases h with ⟨hsame, hd⟩ | ⟨before, x, z, after, rfl, hne, hafter, hd⟩
  · left
    have hy : ∀ x ∈ values ++ [y], x = y := by
      intro x hx
      rcases mem_append.mp hx with hx | hx
      · exact hsame x hx y (mem_of_getLast? hlast)
      · exact mem_singleton.mp hx
    exact ⟨fun x hx x' hx' => (hy x hx).trans (hy x' hx').symm, hd⟩
  · right
    have hmem : y ∈ z :: after := by
      rw [List.getLast?_append_of_ne_nil _ (by simp), List.getLast?_cons_cons] at hlast
      exact mem_of_getLast? hlast
    have hy : y = z := by
      rcases mem_cons.mp hmem with hy | hy
      · exact hy
      · exact hafter y hy
    refine ⟨before, x, z, after ++ [y], by simp, hne, ?_, hd⟩
    intro w hw
    rcases mem_append.mp hw with hw | hw
    · exact hafter w hw
    · exact (mem_singleton.mp hw).trans hy

theorem lastChange_changed (hlast : values.getLast? = some y) (hne : y ≠ z) : LastChange (values ++ [z]) (z - y).sign := by
  obtain ⟨init, rfl⟩ := List.getLast?_eq_some_iff.mp hlast
  exact .inr ⟨init, y, z, [], by simp, hne, by simp, rfl⟩

end HftLab.Lib
