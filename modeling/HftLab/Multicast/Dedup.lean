/-
  HftLab.Multicast.Dedup — the deduplication window (gap_recovery.hpp): each number passes at most once.

  `DedupWindow` remembers the accepted numbers less than `window` below the highest one and takes every lower number for a repeated
  one. What it forgets it can therefore not accept again (`Offered.accept`), and it never remembers more than `window` numbers.
-/

import HftLab.Lib.Int32
import HftLab.Lib.Runs
import Mathlib.Order.Interval.Finset.Nat

namespace HftLab.Multicast

open Lib List

structure DedupWindow where
  window : Nat
  high : Nat := 0
  init : Bool := false
  seen : Finset Nat := ∅
  duplicates : Nat := 0
  accepted : Nat := 0
  window_pos : 0 < window

namespace DedupWindow

def create (window : Nat) : DedupWindow where
  window := if window ≠ 0 then window else 1
  window_pos := by
    split
    · exact Nat.pos_of_ne_zero ‹_›
    · exact Nat.one_pos

/-- `true` when the number is new. The loop at the end forgets what fell out of the window. -/
def accept (d : DedupWindow) (seq : Nat) : Bool × DedupWindow :=
  if !d.init then (true, { d with init := true, high := seq, seen := insert seq d.seen, accepted := d.accepted + 1 })
  else if uint64 (seq + d.window) ≤ d.high then (false, { d with duplicates := d.duplicates + 1 })
  else if seq ∈ d.seen then (false, { d with duplicates := d.duplicates + 1 })
  else
    let seen := insert seq d.seen
    let high := if d.high < seq then seq else d.high
    let kept := (eraseFront (fun s => uint64 (s + d.window) ≤ high) seen.card seen).2
    (true, { d with seen := kept, high, accepted := d.accepted + 1 })

/-- The numbers accepted so far, and the window, after one more is offered. -/
def offer (x : List Nat × DedupWindow) (seq : Nat) : List Nat × DedupWindow :=
  match x.2.accept seq with
  | (true, d) => (x.1 ++ [seq], d)
  | (false, d) => (x.1, d)

def offerAll (window : Nat) (seqs : List Nat) : List Nat × DedupWindow := seqs.foldl offer ([], create window)

/-- After the numbers `seqs`. -/
structure Offered (window : Nat) (seqs : List Nat) (x : List Nat × DedupWindow) : Prop where
  window_eq : x.2.window = window
  started : x.2.init = decide (x.1 ≠ [])
  once : x.1.Nodup
  offered : ∀ m ∈ x.1, m ∈ seqs
  high_mem : x.1 ≠ [] → x.2.high ∈ x.1
  le_high : ∀ m ∈ x.1, m ≤ x.2.high
  seen : ∀ m, m ∈ x.2.seen ↔ m ∈ x.1 ∧ x.2.high < m + window
  fits : ∀ m ∈ x.1, m + window < 18446744073709551616

variable {window seq : Nat} {seqs : List Nat} {x : List Nat × DedupWindow}

/-- A number is accepted if it is in the window and was not accepted before. -/
theorem Offered.accept_iff (h : Offered window seqs x) (hfits : seq + window < 18446744073709551616) :
    (x.2.accept seq).1 = true ↔ (∀ m ∈ x.1, m < seq + window) ∧ seq ∉ x.1 := by
  have hend : uint64 (seq + window) = seq + window := uint64_eq hfits
  by_cases hx : x.1 = []
  · have hinit : x.2.init = false := by
      rw [h.started, hx]
      rfl
    simp [accept, hinit, hx]
  · have hinit : x.2.init := by
      rw [h.started]
      exact decide_eq_true hx
    have hhigh : x.2.high < seq + window ↔ ∀ m ∈ x.1, m < seq + window := by
      constructor
      · intro hlt m hm
        have := h.le_high m hm
        omega
      · intro hall
        exact hall _ (h.high_mem hx)
    rw [← hhigh]
    by_cases hout : seq + window ≤ x.2.high
    · simp [accept, hinit, h.window_eq, hend, hout]
    · have hin : x.2.high < seq + window := by omega
      have hseen : seq ∈ x.2.seen ↔ seq ∈ x.1 := by
        rw [h.seen]
        exact and_iff_left hin
      by_cases hm : seq ∈ x.1
      · simp [accept, hinit, h.window_eq, hend, hout, hseen, hm]
      · simp [accept, hinit, h.window_eq, hend, hout, hseen, hm, hin]

/-- What the loop forgets is what fell out of the window. -/
theorem mem_kept {s : Finset Nat} {high : Nat} (hfits : ∀ m ∈ s, m + window < 18446744073709551616) (m : Nat) :
    m ∈ (eraseFront (fun s => uint64 (s + window) ≤ high) s.card s).2 ↔ m ∈ s ∧ high < m + window := by
  have hwrap : ∀ a ∈ s, uint64 (a + window) = a + window := fun a ha => uint64_eq (hfits a ha)
  have hlow : ∀ a ∈ s, ∀ b ∈ s, a ≤ b → decide (uint64 (b + window) ≤ high) = true →
      decide (uint64 (a + window) ≤ high) = true := by
    intro a ha b hb hab hle
    rw [decide_eq_true_eq, hwrap b hb] at hle
    rw [decide_eq_true_eq, hwrap a ha]
    omega
  rw [eraseFront_eq hlow (Nat.le_refl _)]
  rw [Finset.mem_filter]
  refine and_congr_right fun hm => ?_
  rw [decide_eq_false_iff_not, hwrap m hm, Nat.not_le]

theorem accept_old {d : DedupWindow} (h : (d.accept seq).1 = false) : (d.accept seq).2 = { d with duplicates := d.duplicates + 1 } := by
  unfold accept at h ⊢
  split at h
  · cases h
  · rename_i hinit
    rw [if_neg hinit]
    split at h
    · rename_i hout
      rw [if_pos hout]
    · rename_i hout
      rw [if_neg hout]
      split at h
      · rename_i hseen
        rw [if_pos hseen]
      · cases h

theorem Offered.refused (h : Offered window seqs x) (hold : (x.2.accept seq).1 = false) : Offered window (seqs ++ [seq]) (offer x seq) := by
  have hx : offer x seq = (x.1, { x.2 with duplicates := x.2.duplicates + 1 }) := by
    unfold offer
    rw [show x.2.accept seq = (false, { x.2 with duplicates := x.2.duplicates + 1 }) from Prod.ext hold (accept_old hold)]
  rw [hx]
  exact { h with offered := fun m hm => mem_append_left _ (h.offered m hm) }

/-- The number `seq` was accepted, and `d` is the window after it. -/
theorem Offered.taken (h : Offered window seqs x) {d : DedupWindow} (hfits : seq + window < 18446744073709551616) (hnew : seq ∉ x.1)
    (hwindow : d.window = window) (hinit : d.init) (hmem : d.high ∈ x.1 ++ [seq]) (hhigh : ∀ m ∈ x.1 ++ [seq], m ≤ d.high)
    (hseen : ∀ m, m ∈ d.seen ↔ (m = seq ∨ m ∈ x.2.seen) ∧ d.high < m + window) (hmono : x.1 ≠ [] → x.2.high ≤ d.high)
    (hin : d.high < seq + window) : Offered window (seqs ++ [seq]) (x.1 ++ [seq], d) where
  window_eq := hwindow
  started := by
    rw [hinit]
    simp
  once := by
    refine nodup_append.mpr ⟨h.once, nodup_singleton _, fun m hm m' hm' heq => ?_⟩
    rw [mem_singleton] at hm'
    exact hnew (hm' ▸ heq ▸ hm)
  offered m hm := by
    rcases mem_append.mp hm with hm | hm
    · exact mem_append_left _ (h.offered m hm)
    · exact mem_append_right _ hm
  high_mem _ := hmem
  le_high := hhigh
  seen m := by
    rw [hseen, h.seen, mem_append, mem_singleton]
    constructor
    · intro hm
      rcases hm with ⟨rfl | hm, hlt⟩
      · exact ⟨.inr rfl, hlt⟩
      · exact ⟨.inl hm.1, hlt⟩
    · intro hm
      rcases hm with ⟨hm | rfl, hlt⟩
      · have hbelow : x.2.high < m + window := Nat.lt_of_le_of_lt (hmono (ne_nil_of_mem hm)) hlt
        exact ⟨.inr ⟨hm, hbelow⟩, hlt⟩
      · exact ⟨.inl rfl, hlt⟩
  fits m hm := by
    rcases mem_append.mp hm with hm | hm
    · exact h.fits m hm
    · rw [mem_singleton.mp hm]
      exact hfits

theorem Offered.offer (h : Offered window seqs x) (hfits : seq + window < 18446744073709551616) :
    Offered window (seqs ++ [seq]) (offer x seq) := by
  cases hok : (x.2.accept seq).1 with
  | false => exact h.refused hok
  | true =>
    obtain ⟨hall, hnew⟩ := (h.accept_iff hfits).mp hok
    have hpos : 0 < window := h.window_eq ▸ x.2.window_pos
    have hx : DedupWindow.offer x seq = (x.1 ++ [seq], (x.2.accept seq).2) := by
      unfold DedupWindow.offer
      rw [show x.2.accept seq = (true, (x.2.accept seq).2) from Prod.ext hok rfl]
    rw [hx]
    by_cases hne : x.1 = []
    · have hinit : x.2.init = false := by
        rw [h.started, hne]
        rfl
      have hempty : x.2.seen = ∅ := by
        refine Finset.eq_empty_of_forall_notMem fun m hm => ?_
        have hm := ((h.seen m).mp hm).1
        rw [hne] at hm
        cases hm
      have hafter : (x.2.accept seq).2 =
          { x.2 with init := true, high := seq, seen := insert seq x.2.seen, accepted := x.2.accepted + 1 } := by
        simp [accept, hinit]
      rw [hafter]
      refine h.taken hfits hnew h.window_eq rfl (by simp) (by simp [hne]) (fun m => ?_) (fun hc => absurd hne hc) ?_
      · rw [Finset.mem_insert, hempty]
        simp
        omega
      · show seq < seq + window
        omega
    · have hinit : x.2.init := by
        rw [h.started]
        exact decide_eq_true hne
      have hmax := h.high_mem hne
      have hlt := hall _ hmax
      have hseen : seq ∉ x.2.seen := fun hm => hnew ((h.seen seq).mp hm).1
      have hend : uint64 (seq + window) = seq + window := uint64_eq hfits
      have hout : ¬seq + window ≤ x.2.high := by omega
      have hafter : (x.2.accept seq).2 =
          { x.2 with
            seen := (eraseFront (fun s => uint64 (s + window) ≤ if x.2.high < seq then seq else x.2.high)
              (insert seq x.2.seen).card (insert seq x.2.seen)).2
            high := if x.2.high < seq then seq else x.2.high
            accepted := x.2.accepted + 1 } := by
        simp [accept, hinit, h.window_eq, hend, hout, hseen]
      rw [hafter]
      generalize hhigh : (if x.2.high < seq then seq else x.2.high) = high
      have hcase : high = seq ∧ x.2.high < seq ∨ high = x.2.high ∧ seq ≤ x.2.high := by
        split at hhigh
        · exact .inl ⟨hhigh.symm, ‹_›⟩
        · exact .inr ⟨hhigh.symm, by omega⟩
      refine h.taken hfits hnew h.window_eq hinit ?_ (fun m hm => ?_) (fun m => ?_) (fun _ => ?_) ?_
      · rcases hcase with ⟨rfl, -⟩ | ⟨rfl, -⟩
        · simp
        · exact mem_append_left _ hmax
      · show m ≤ high
        rcases mem_append.mp hm with hm | hm
        · have := h.le_high m hm
          omega
        · rw [mem_singleton.mp hm]
          omega
      · refine (mem_kept (fun a ha => ?_) m).trans (by rw [Finset.mem_insert])
        rcases Finset.mem_insert.mp ha with rfl | ha
        · exact hfits
        · exact h.fits a ((h.seen a).mp ha).1
      · show x.2.high ≤ high
        omega
      · show high < seq + window
        omega

theorem offerAll_offered (hpos : 1 ≤ window) (seqs : List Nat) (h : ∀ seq ∈ seqs, seq + window < 18446744073709551616) :
    Offered window seqs (offerAll window seqs) := by
  induction seqs using List.reverseRecOn with
  | nil =>
    have hwindow : (create window).window = window := if_pos (Nat.ne_of_gt hpos)
    exact ⟨hwindow, rfl, nodup_nil, nofun, fun hc => absurd rfl hc, nofun, fun m => iff_of_false (by simp [offerAll, create]) nofun, nofun⟩
  | append_singleton seqs seq ih =>
    unfold offerAll
    rw [foldl_append]
    exact (ih fun s hs => h s (mem_append_left _ hs)).offer (h seq (by simp))

/-- The numbers remembered lie in the window. -/
theorem Offered.card_le (h : Offered window seqs x) : x.2.seen.card ≤ window := by
  have hsub : x.2.seen ⊆ Finset.Ico (x.2.high + 1 - window) (x.2.high + 1) := by
    intro m hm
    obtain ⟨hmem, hlt⟩ := (h.seen m).mp hm
    have := h.le_high m hmem
    rw [Finset.mem_Ico]
    omega
  have hcard := Finset.card_le_card hsub
  rw [Nat.card_Ico] at hcard
  omega

/-- After any numbers: none was accepted twice, the memory is bounded, and the next number is accepted if it is in the window and was
    not offered before. -/
theorem accepted_at_most_once (window : Nat) (hpos : 1 ≤ window) (seqs : List Nat) (h : ∀ seq ∈ seqs, seq + window < 2 ^ 64) :
    (offerAll window seqs).1.Nodup ∧ (offerAll window seqs).2.seen.card ≤ window ∧
    ∀ seq, seq + window < 2 ^ 64 → seq ∉ seqs → (∀ m ∈ (offerAll window seqs).1, m < seq + window) →
      ((offerAll window seqs).2.accept seq).1 = true := by
  have hall := offerAll_offered hpos seqs h
  refine ⟨hall.once, hall.card_le, fun seq hfits hnew hlt => ?_⟩
  exact (hall.accept_iff hfits).mpr ⟨hlt, fun hm => hnew (hall.offered seq hm)⟩

/-- A window of 3: 9 drives 5 out, a late 7 still passes. -/
theorem accepted_at_most_once_small :
    (offerAll 3 [5, 9, 5, 9]).1.Nodup ∧ (offerAll 3 [5, 9, 5, 9]).2.seen.card ≤ 3 ∧ ((offerAll 3 [5, 9, 5, 9]).2.accept 7).1 = true := by
  obtain ⟨honce, hcard, hnew⟩ := accepted_at_most_once 3 (by decide) [5, 9, 5, 9] (by decide)
  exact ⟨honce, hcard, hnew 7 (by decide) (by decide) (by decide +kernel)⟩

end DedupWindow

end HftLab.Multicast
