/-
  HftLab.Lib.Owners — a table whose entries move from key to key, and the number that each entry was given when it came.

  `owner` maps a key to the number of the entry under it; numbers below `next` are given. `Owned` says that no two keys share one,
  and the three ways of writing the table keep it: a new entry, an entry changed in place, an entry moved to another key.
-/

import HftLab.Lib.Tally

namespace HftLab.Lib

open Function

variable {κ V : Type} [DecidableEq κ] {m : Table κ V} {owner : κ → Nat} {next : Nat} {k k' : κ} {v v' : V}

structure Owned (m : Table κ V) (owner : κ → Nat) (next : Nat) : Prop where
  given : ∀ k v, m.lookup k = some v → owner k < next
  apart : ∀ k k' v v', m.lookup k = some v → m.lookup k' = some v' → owner k = owner k' → k = k'

theorem Owned.empty (owner : κ → Nat) : Owned (∅ : Table κ V) owner next where
  given _ _ h := by cases h
  apart _ _ _ _ h := by cases h

theorem Owned.fresh (h : Owned m owner next) (k : κ) (v : V) : Owned (m.insert k v) (update owner k next) (next + 1) := by
  have hlow : ∀ {k' v'}, k' ≠ k → m.lookup k' = some v' → update owner k next k' < next := by
    intro k' v' hne hk
    rw [update_of_ne hne]
    exact h.given k' v' hk
  constructor
  · intro k1 v1 h1
    rcases lookup_insert_cases h1 with ⟨rfl, -⟩ | ⟨hne, h1⟩
    · rw [update_self]
      exact Nat.lt_succ_self next
    · exact Nat.lt_succ_of_lt (hlow hne h1)
  · intro k1 k2 v1 v2 h1 h2 heq
    rcases lookup_insert_cases h1 with ⟨rfl, -⟩ | ⟨hne1, hold1⟩
    · rcases lookup_insert_cases h2 with ⟨rfl, -⟩ | ⟨hne2, hold2⟩
      · rfl
      · have hlt := hlow hne2 hold2
        rw [← heq, update_self] at hlt
        exact absurd hlt (Nat.lt_irrefl next)
    · rcases lookup_insert_cases h2 with ⟨rfl, -⟩ | ⟨hne2, hold2⟩
      · have hlt := hlow hne1 hold1
        rw [heq, update_self] at hlt
        exact absurd hlt (Nat.lt_irrefl next)
      · rw [update_of_ne hne1, update_of_ne hne2] at heq
        exact h.apart k1 k2 v1 v2 hold1 hold2 heq

theorem Owned.change (h : Owned m owner next) (hk : m.lookup k = some v) (v' : V) : Owned (m.insert k v') owner next := by
  have hold : ∀ {k' v1}, (m.insert k v').lookup k' = some v1 → ∃ v2, m.lookup k' = some v2 := by
    intro k' v1 h1
    rcases lookup_insert_cases h1 with ⟨rfl, -⟩ | ⟨-, h1⟩
    · exact ⟨v, hk⟩
    · exact ⟨v1, h1⟩
  constructor
  · intro k1 v1 h1
    obtain ⟨v2, h2⟩ := hold h1
    exact h.given k1 v2 h2
  · intro k1 k2 v1 v2 h1 h2 heq
    obtain ⟨v3, h3⟩ := hold h1
    obtain ⟨v4, h4⟩ := hold h2
    exact h.apart k1 k2 v3 v4 h3 h4 heq

/-- Where an entry of the table after a move was before. -/
theorem lookup_move_cases {x : κ} {v1 : V} (h : ((m.erase k).insert k' v').lookup x = some v1) :
    x = k' ∧ v1 = v' ∨ x ≠ k' ∧ x ≠ k ∧ m.lookup x = some v1 := by
  rcases lookup_insert_cases h with ⟨rfl, rfl⟩ | ⟨hne, h⟩
  · exact .inl ⟨rfl, rfl⟩
  · by_cases e : x = k
    · rw [e, AList.lookup_erase] at h
      cases h
    · rw [AList.lookup_erase_ne e] at h
      exact .inr ⟨hne, e, h⟩

/-- An entry that was under `k'` is gone. -/
theorem Owned.move (h : Owned m owner next) (hk : m.lookup k = some v) (k' : κ) (v' : V) :
    Owned ((m.erase k).insert k' v') (update owner k' (owner k)) next := by
  constructor
  · intro k1 v1 h1
    rcases lookup_move_cases h1 with ⟨rfl, -⟩ | ⟨hne, -, h1⟩
    · rw [update_self]
      exact h.given k v hk
    · rw [update_of_ne hne]
      exact h.given k1 v1 h1
  · intro k1 k2 v1 v2 h1 h2 heq
    rcases lookup_move_cases h1 with ⟨rfl, -⟩ | ⟨hne1, hk1, hold1⟩
    · rcases lookup_move_cases h2 with ⟨rfl, -⟩ | ⟨hne2, hk2, hold2⟩
      · rfl
      · rw [update_self, update_of_ne hne2] at heq
        exact absurd (h.apart k k2 v v2 hk hold2 heq).symm hk2
    · rcases lookup_move_cases h2 with ⟨rfl, -⟩ | ⟨hne2, hk2, hold2⟩
      · rw [update_self, update_of_ne hne1] at heq
        exact absurd (h.apart k1 k v1 v hold1 hk heq) hk1
      · rw [update_of_ne hne1, update_of_ne hne2] at heq
        exact h.apart k1 k2 v1 v2 hold1 hold2 heq

theorem sumOver_put (m : Table κ V) (w : V → Int) (k : κ) (v : V) :
    sumOver (m.insert k v) w = sumOver m w + w v - (m.lookup k).elim 0 w := by
  cases h : m.lookup k with
  | none =>
    rw [sumOver_fresh w v h]
    show _ = _ - 0
    omega
  | some v0 =>
    rw [sumOver_insert w v h]
    show _ = _ - w v0
    omega

theorem sumOver_move (w : V → Int) (hk : m.lookup k = some v) (k' : κ) (v' : V) :
    sumOver ((m.erase k).insert k' v') w = sumOver m w - w v + w v' - if k' = k then 0 else (m.lookup k').elim 0 w := by
  rw [sumOver_put, sumOver_erase w hk]
  split
  · rename_i e
    rw [e, AList.lookup_erase]
    rfl
  · rename_i e
    rw [AList.lookup_erase_ne e]

end HftLab.Lib
