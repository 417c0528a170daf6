/-
  HftLab.Multicast.Conflation — the buffer that keeps the latest value of each key for a consumer that falls behind
  (gap_recovery.hpp, `ConflationBuffer`).

  Counters are plain numbers. `handed` is ghost state: how many values the drains took.
-/

import HftLab.Lib.Streaks
import Mathlib.Data.List.AList

namespace HftLab.Multicast

open Lib

structure ConflationBuffer (D : Type) where
  latest : AList (fun _ : Nat => D) := ∅
  conflated : Nat := 0
  received : Nat := 0
  peakPending : Nat := 0
  handed : Nat := 0

namespace ConflationBuffer

variable {D : Type} (b : ConflationBuffer D)

def pending : Nat := b.latest.keys.length

def get (key : Nat) : Option D := b.latest.lookup key

def update (key : Nat) (value : D) : ConflationBuffer D :=
  let inserted := key ∉ b.latest
  let latest := b.latest.insert key value
  { b with
    latest
    received := b.received + 1
    conflated := if inserted then b.conflated else b.conflated + 1
    peakPending := max latest.keys.length b.peakPending }

def drain : ConflationBuffer D := { b with latest := ∅, handed := b.handed + b.pending }

/-- A call: an update, or a drain. -/
def exec (b : ConflationBuffer D) : Option (Nat × D) → ConflationBuffer D
  | some (key, value) => b.update key value
  | none => b.drain

def run (calls : List (Option (Nat × D))) : ConflationBuffer D := calls.foldl exec {}

/-- The updates since the last drain, the latest first. -/
def sinceDrain (calls : List (Option (Nat × D))) : List (Nat × D) :=
  calls.foldl (fun l c => c.elim [] (· :: l)) []

variable {b}

theorem update_pending (key : Nat) (value : D) :
    (b.update key value).pending = if key ∈ b.latest then b.pending else b.pending + 1 := by
  unfold pending update
  split
  · rename_i h
    have := List.length_erase_of_mem (AList.mem_keys.mp h)
    have := List.length_pos_of_mem (AList.mem_keys.mp h)
    simp [AList.keys_insert]
    omega
  · rename_i h
    simp [AList.keys_insert, List.erase_of_not_mem (mt AList.mem_keys.mpr h)]

/-- After any updates and drains the buffer holds, of each key, the last value since the last drain, and every update is either held,
or was handed over, or was overwritten before a drain. -/
theorem conflation_exact {D : Type} (calls : List (Option (Nat × D))) :
    (∀ key, (run calls).get key = ((sinceDrain calls).find? (·.1 = key)).map Prod.snd) ∧
    (run calls).received = calls.countP Option.isSome ∧
    (run calls).received = (run calls).conflated + (run calls).handed + (run calls).pending ∧
    IsGreatest (alongPrefixes (fun l => (run l).pending) calls) (run calls).peakPending := by
  induction calls using List.reverseRecOn with
  | nil => exact ⟨fun _ => rfl, rfl, rfl, by simp [alongPrefixes_nil, run, pending]⟩
  | append_singleton calls c ih =>
    obtain ⟨hget, hrec, hsum, hpeak⟩ := ih
    have hrun : run (calls ++ [c]) = (run calls).exec c := by simp [run]
    have hsince : sinceDrain (calls ++ [c]) = c.elim [] (· :: sinceDrain calls) := by simp [sinceDrain]
    have hpeak := isGreatest_prefixes_concat (x := c) hpeak
    rw [hrun] at hpeak ⊢
    rw [hsince]
    cases c with
    | none =>
      refine ⟨fun key => rfl, by simpa [exec, drain] using hrec, ?_, ?_⟩
      · show (run calls).received = (run calls).conflated + ((run calls).handed + (run calls).pending) + 0
        omega
      · rw [max_eq_right (show ((run calls).exec none).pending ≤ _ from Nat.zero_le _)] at hpeak
        exact hpeak
    | some c =>
      obtain ⟨key, value⟩ := c
      have hpend := update_pending (b := run calls) key value
      refine ⟨fun k => ?_, ?_, ?_, hpeak⟩
      · show AList.lookup k ((run calls).latest.insert key value) = _
        by_cases hk : key = k
        · simp [hk]
        · rw [AList.lookup_insert_ne (Ne.symm hk)]
          exact (hget k).trans (by simp [hk])
      · simp [exec, update, hrec]
      · show (run calls).received + 1 = (if key ∉ (run calls).latest then _ else _) + (run calls).handed + ((run calls).update key value).pending
        rw [hpend]
        split_ifs <;> omega

end ConflationBuffer

end HftLab.Multicast
