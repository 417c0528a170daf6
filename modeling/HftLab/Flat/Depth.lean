/-
  HftLab.Flat.Depth — what an aggregated book is for: a quantity for each price on each side, and the
  uncrossing of a book whose sides overlap, best level against best level until they do not.

  `Uncrosses d n v d'` is the specification that the engines refine: `n` exchanges of levels that
  trade `v` in all take `d` to `d'`. It leaves no choice (`Uncrosses.unique`), so two engines that
  meet it from the same depth end in the same depth.
-/

import HftLab.Lib.Int32

namespace HftLab.Flat

open Function

variable {f : Nat → Int} {p q : Nat} {d : Depth} {x : Int}

/-- The quantity shown at each price. -/
@[ext] structure Depth where
  bid : Nat → Int
  ask : Nat → Int

def Depth.empty : Depth := ⟨fun _ => 0, fun _ => 0⟩

/-- `p` is the highest price with a quantity. -/
def Highest (f : Nat → Int) (p : Nat) : Prop := 0 < f p ∧ ∀ q, p < q → f q = 0

/-- `p` is the lowest price with a quantity. -/
def Lowest (f : Nat → Int) (p : Nat) : Prop := 0 < f p ∧ ∀ q, q < p → f q = 0

namespace Depth

/-- No bid at or above an ask. -/
def Uncrossed (d : Depth) : Prop := ∀ p q, 0 < d.bid p → 0 < d.ask q → p < q

/-- The bid level `p` and the ask level `q` trade as much as both have. -/
def cross (d : Depth) (p q : Nat) : Depth where
  bid := Function.update d.bid p (d.bid p - min (d.bid p) (d.ask q))
  ask := Function.update d.ask q (d.ask q - min (d.bid p) (d.ask q))

/-- `qty` more at price `p`. -/
def add (d : Depth) (isBuy : Bool) (p : Nat) (qty : Int) : Depth :=
  if isBuy then { d with bid := Function.update d.bid p (d.bid p + qty) }
  else { d with ask := Function.update d.ask p (d.ask p + qty) }

end Depth

inductive Uncrosses : Depth → Nat → Int → Depth → Prop
  | done {d : Depth} : d.Uncrossed → Uncrosses d 0 0 d
  | step {d d' : Depth} {p q n : Nat} {v : Int} : Highest d.bid p → Lowest d.ask q → q ≤ p →
      Uncrosses (d.cross p q) n v d' → Uncrosses d (n + 1) (min (d.bid p) (d.ask q) + v) d'

theorem Highest.unique (hp : Highest f p) (hq : Highest f q) : p = q := by
  rcases Nat.lt_trichotomy p q with h | h | h
  · have := hp.2 q h
    have := hq.1
    omega
  · exact h
  · have := hq.2 p h
    have := hp.1
    omega

theorem Lowest.unique (hp : Lowest f p) (hq : Lowest f q) : p = q := by
  rcases Nat.lt_trichotomy p q with h | h | h
  · have := hq.2 p h
    have := hp.1
    omega
  · exact h
  · have := hp.2 q h
    have := hq.1
    omega

/-- The uncrossing of a depth leaves no choice. -/
theorem Uncrosses.unique {d1 d2 : Depth} {n1 n2 : Nat} {v1 v2 : Int} (h₁ : Uncrosses d n1 v1 d1) (h₂ : Uncrosses d n2 v2 d2) :
    n1 = n2 ∧ v1 = v2 ∧ d1 = d2 := by
  induction h₁ generalizing n2 v2 d2 with
  | done hu =>
    cases h₂ with
    | done => exact ⟨rfl, rfl, rfl⟩
    | step hp hq hle _ =>
      have := hu _ _ hp.1 hq.1
      omega
  | step hp hq hle _ ih =>
    cases h₂ with
    | done hu =>
      have := hu _ _ hp.1 hq.1
      omega
    | step hp2 hq2 _ hrest =>
      obtain rfl := hp.unique hp2
      obtain rfl := hq.unique hq2
      obtain ⟨h1, h2, h3⟩ := ih hrest
      exact ⟨by rw [h1], by rw [h2], h3⟩

theorem Highest.shrink (h : Highest f p) (hx : x < f p) : Highest (update f p (f p - x)) p := by
  refine ⟨?_, fun q hq => ?_⟩
  · rw [update_self]
    omega
  · rw [update_of_ne (by omega)]
    exact h.2 q hq

theorem Lowest.shrink (h : Lowest f p) (hx : x < f p) : Lowest (update f p (f p - x)) p := by
  refine ⟨?_, fun q hq => ?_⟩
  · rw [update_self]
    omega
  · rw [update_of_ne (by omega)]
    exact h.2 q hq

/-- The best levels may trade bit by bit: what they trade first is part of their exchange. -/
theorem Uncrosses.absorb {d' : Depth} {n : Nat} {v : Int} (hp : Highest d.bid p) (hq : Lowest d.ask q) (hle : q ≤ p)
    (hxp : x ≤ d.bid p) (hxq : x ≤ d.ask q)
    (h : Uncrosses ⟨update d.bid p (d.bid p - x), update d.ask q (d.ask q - x)⟩ n v d') :
    ∃ m, Uncrosses d m (x + v) d' := by
  by_cases hx : x = min (d.bid p) (d.ask q)
  · refine ⟨n + 1, ?_⟩
    rw [hx] at h ⊢
    exact .step hp hq hle h
  · have hp' := hp.shrink (x := x) (by omega)
    have hq' := hq.shrink (x := x) (by omega)
    cases h with
    | done hu =>
      have := hu p q hp'.1 hq'.1
      omega
    | @step _ _ p2 q2 m w hp2 hq2 _ hrest =>
      obtain rfl := hp'.unique hp2
      obtain rfl := hq'.unique hq2
      refine ⟨m + 1, ?_⟩
      -- the same exchange, less what was traded before it
      have hcross : Depth.cross ⟨update d.bid p (d.bid p - x), update d.ask q (d.ask q - x)⟩ p q = d.cross p q := by
        unfold Depth.cross
        simp only [update_self, update_idem]
        congr 2 <;> omega
      have hsum : x + (min (update d.bid p (d.bid p - x) p) (update d.ask q (d.ask q - x) q) + w) =
          min (d.bid p) (d.ask q) + w := by
        rw [update_self, update_self]
        omega
      rw [hcross] at hrest
      rw [hsum]
      exact .step hp hq hle hrest

end HftLab.Flat
