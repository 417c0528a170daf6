/-
  HftLab.Ouch.Heartbeat — the clocks of a session (`HeartbeatTimer` of soupbin_session.hpp).

  `peer_timed_out` measures from the last receipt, and from 0 when nothing was received. So a session that has only sent is timed
  out as soon as the clock itself is past the timeout (`never_premature_iff`).
-/

import HftLab.Lib.Int32
import Mathlib.Data.List.Induction

namespace HftLab.Ouch

open Lib List

structure HeartbeatTimer where
  lastTx : Int := 0
  lastRx : Int := 0
  started : Bool := false
  deriving DecidableEq, Repr

inductive HeartbeatEvent where
  | tx (now : Int)
  | rx (now : Int)
  | reset
  deriving DecidableEq, Repr

namespace HeartbeatTimer

def onTx (t : HeartbeatTimer) (now : Int) : HeartbeatTimer := { t with lastTx := now, started := true }

def onRx (t : HeartbeatTimer) (now : Int) : HeartbeatTimer := { t with lastRx := now, started := true }

def needSend (t : HeartbeatTimer) (now interval : Int) : Bool := t.started && decide (interval ≤ i64 (now - t.lastTx))

def peerTimedOut (t : HeartbeatTimer) (now timeout : Int) : Bool := t.started && decide (timeout < i64 (now - t.lastRx))

def apply (t : HeartbeatTimer) : HeartbeatEvent → HeartbeatTimer
  | .tx now => t.onTx now
  | .rx now => t.onRx now
  | .reset => {}

def run (events : List HeartbeatEvent) : HeartbeatTimer := events.foldl apply {}

end HeartbeatTimer

/-! ## What was sent and received -/

/-- The events since the last reset. -/
def sinceReset (events : List HeartbeatEvent) : List HeartbeatEvent :=
  events.foldl (fun l e => if e = .reset then [] else l ++ [e]) []

def HeartbeatEvent.txTime : HeartbeatEvent → Option Int
  | tx now => some now
  | _ => none

def HeartbeatEvent.rxTime : HeartbeatEvent → Option Int
  | rx now => some now
  | _ => none

def HeartbeatEvent.time : HeartbeatEvent → Option Int
  | tx now | rx now => some now
  | reset => none

def firstTx (events : List HeartbeatEvent) : Option Int := ((sinceReset events).filterMap HeartbeatEvent.txTime).head?

def lastRx (events : List HeartbeatEvent) : Option Int := ((sinceReset events).filterMap HeartbeatEvent.rxTime).getLast?

/-- More than `timeout` has passed since the last receipt, or since the first sending when nothing was received. -/
def Silent (events : List HeartbeatEvent) (now timeout : Int) : Prop :=
  match lastRx events, firstTx events with
  | some t, _ => timeout < now - t
  | none, some t => timeout < now - t
  | none, none => False

/-- Times of the clock: 64 bits, never back. -/
def Lawful (events : List HeartbeatEvent) (now : Int) : Prop :=
  (events.filterMap HeartbeatEvent.time ++ [now]).Pairwise (· ≤ ·) ∧ ∀ t ∈ events.filterMap HeartbeatEvent.time ++ [now], IsInt64 t

instance (events : List HeartbeatEvent) (now : Int) : Decidable (Lawful events now) := inferInstanceAs (Decidable (_ ∧ _))

/-! ## The fields -/

section

variable (events : List HeartbeatEvent) (e : HeartbeatEvent)

theorem sinceReset_append : sinceReset (events ++ [e]) = if e = .reset then [] else sinceReset events ++ [e] := by
  unfold sinceReset
  rw [foldl_append]
  rfl

theorem run_append : HeartbeatTimer.run (events ++ [e]) = (HeartbeatTimer.run events).apply e := by
  unfold HeartbeatTimer.run
  rw [foldl_append]
  rfl

/-- The last receipt, 0 when there is none. -/
theorem run_fields : (HeartbeatTimer.run events).lastRx = (lastRx events).getD 0 ∧
    ((HeartbeatTimer.run events).started = true ↔ lastRx events ≠ none ∨ firstTx events ≠ none) := by
  induction events using List.reverseRecOn with
  | nil => simp [HeartbeatTimer.run, lastRx, firstTx, sinceReset]
  | append_singleton events e ih =>
    obtain ⟨hrx, hstarted⟩ := ih
    rw [run_append]
    unfold lastRx firstTx at *
    rw [sinceReset_append]
    cases e with
    | tx now =>
      simp [HeartbeatTimer.apply, HeartbeatTimer.onTx, HeartbeatEvent.txTime, HeartbeatEvent.rxTime, hrx]
    | rx now => simp [HeartbeatTimer.apply, HeartbeatTimer.onRx, HeartbeatEvent.txTime, HeartbeatEvent.rxTime]
    | reset => simp [HeartbeatTimer.apply]

theorem mem_of_mem_sinceReset (he : e ∈ sinceReset events) : e ∈ events := by
  induction events using List.reverseRecOn with
  | nil => exact he
  | append_singleton events last ih =>
    rw [sinceReset_append] at he
    split at he
    · cases he
    · rcases mem_append.mp he with he | he
      · exact mem_append_left _ (ih he)
      · exact mem_append_right _ he

end

variable {events : List HeartbeatEvent} {now timeout t : Int}

/-- The last receipt is not after now. -/
theorem Lawful.lastRx_le (h : Lawful events now) (ht : lastRx events = some t) : t ≤ now := by
  obtain ⟨e, he, hrx⟩ := mem_filterMap.mp (mem_of_getLast? ht)
  have htime : e.time = some t := by
    cases e with
    | rx r => exact hrx
    | tx r => cases hrx
    | reset => cases hrx
  have hmem := mem_filterMap.mpr ⟨e, mem_of_mem_sinceReset events e he, htime⟩
  exact (pairwise_append.mp h.1).2.2 t hmem now (mem_singleton.mpr rfl)

theorem Lawful.firstTx_int64 (h : Lawful events now) (ht : firstTx events = some t) : IsInt64 t := by
  obtain ⟨e, he, htx⟩ := mem_filterMap.mp (mem_of_mem_head? ht)
  have htime : e.time = some t := by
    cases e with
    | tx r => exact htx
    | rx r => cases htx
    | reset => cases htx
  exact h.2 t (mem_append_left _ (mem_filterMap.mpr ⟨e, mem_of_mem_sinceReset events e he, htime⟩))

theorem Lawful.now_int64 (h : Lawful events now) : IsInt64 now := h.2 now (mem_append_right _ (mem_singleton.mpr rfl))

/-- A lawful run can be asked at the last moment of the clock. -/
theorem Lawful.latest (h : Lawful events now) : Lawful events 9223372036854775807 := by
  obtain ⟨horder, hrange⟩ := h
  obtain ⟨hevents, -, -⟩ := pairwise_append.mp horder
  have hin : ∀ t ∈ events.filterMap HeartbeatEvent.time, IsInt64 t := fun t ht => hrange t (mem_append_left _ ht)
  refine ⟨pairwise_append.mpr ⟨hevents, pairwise_singleton _ _, fun t ht last hlast => ?_⟩, fun t ht => ?_⟩
  · rw [mem_singleton.mp hlast]
    exact (hin t ht).2
  · rcases mem_append.mp ht with ht | ht
    · exact hin t ht
    · rw [mem_singleton.mp ht]
      exact ⟨by decide, by decide⟩

theorem i64_le {x : Int} (h : 0 ≤ x) : i64 x ≤ x := by
  unfold i64
  rw [Int.bmod_eq_emod]
  split <;> omega

theorem peerTimedOut_iff (events : List HeartbeatEvent) (now timeout : Int) :
    (HeartbeatTimer.run events).peerTimedOut now timeout = true ↔
      (lastRx events ≠ none ∨ firstTx events ≠ none) ∧ timeout < i64 (now - (lastRx events).getD 0) := by
  obtain ⟨hrx, hstarted⟩ := run_fields events
  unfold HeartbeatTimer.peerTimedOut
  rw [Bool.and_eq_true, decide_eq_true_eq, hstarted, hrx]

/-- Something was received since the last reset, nothing was sent, or the first sending was not after the origin of the clock. -/
def Anchored (events : List HeartbeatEvent) : Prop := lastRx events = none → ∀ t, firstTx events = some t → t ≤ 0

theorem silent_of_timedOut (h : Lawful events now) (hanchored : Anchored events)
    (hout : (HeartbeatTimer.run events).peerTimedOut now timeout) : Silent events now timeout := by
  obtain ⟨hstarted, hpast⟩ := (peerTimedOut_iff events now timeout).mp hout
  unfold Silent
  cases hrx : lastRx events with
  | some t =>
    rw [hrx, Option.getD_some] at hpast
    have hle := h.lastRx_le hrx
    have hwrap := i64_le (show 0 ≤ now - t by omega)
    omega
  | none =>
    rw [hrx, Option.getD_none, Int.sub_zero, i64_eq h.now_int64] at hpast
    cases htx : firstTx events with
    | some t =>
      have hneg := hanchored hrx t htx
      omega
    | none =>
      rcases hstarted with hsome | hsome
      · exact hsome hrx
      · exact hsome htx

/-- Only sent since `t`, and the clock is past the timeout. -/
theorem premature (h : Lawful events now) (hrx : lastRx events = none) (htx : firstTx events = some t) (ht : 0 < t) :
    (HeartbeatTimer.run events).peerTimedOut now (now - t) = true ∧ ¬Silent events now (now - t) := by
  constructor
  · rw [peerTimedOut_iff, hrx, Option.getD_none, Int.sub_zero, i64_eq h.now_int64, htx]
    exact ⟨.inr (by simp), by omega⟩
  · unfold Silent
    rw [hrx, htx]
    exact Int.lt_irrefl _

/-- At no later time and for no timeout does the timer call the peer dead too early. -/
def NeverPremature (events : List HeartbeatEvent) : Prop :=
  ∀ now timeout, Lawful events now → 0 ≤ timeout → IsInt64 timeout →
    (HeartbeatTimer.run events).peerTimedOut now timeout = true → Silent events now timeout

theorem never_premature_iff (h : Lawful events now) : NeverPremature events ↔ Anchored events := by
  constructor
  · intro hnever hrx t htx
    by_contra hpos
    obtain ⟨hout, hnot⟩ := premature h.latest hrx htx (by omega)
    have hrange := h.firstTx_int64 htx
    exact hnot (hnever _ _ h.latest (by have := hrange.2; omega) ⟨by have := hrange.2; omega, by omega⟩ hout)
  · intro hanchored now timeout hlaw _ _ hout
    exact silent_of_timedOut hlaw hanchored hout

theorem never_premature_iff_sample : NeverPremature [.rx 1000, .tx 2000] ∧ ¬NeverPremature [.rx 1000, .reset, .tx 2000] := by
  constructor
  · rw [never_premature_iff (show Lawful [.rx 1000, .tx 2000] 3000 by decide)]
    intro hrx
    cases hrx
  · rw [never_premature_iff (show Lawful [.rx 1000, .reset, .tx 2000] 3000 by decide)]
    intro h
    exact absurd (h rfl 2000 rfl) (by decide)

/-- A frame was sent 1 ns ago, and the timeout is 15 s. -/
theorem sent_only_timed_out : ¬NeverPremature [.tx 15000000000] := by
  intro h
  have hsilent : (15000000000 : Int) < 15000000001 - 15000000000 :=
    h 15000000001 15000000000 (by decide) (by decide) (by decide) (by decide)
  omega

end HftLab.Ouch
