/-
  HftLab.Fix.Liveness — the heartbeat timer of FIXSession (fix_session.hpp): when a silent counterparty is dropped.

  After two intervals of silence a test request is sent, and another interval without a reply is to end the session. The session keeps
  a flag and not the time of its request, so the next `tick` ends it however soon it comes (`dropped_at_once`); and a message that
  is not passed to `observe_inbound` leaves the flag on, so that the next silence ends the session with no request of its own.
  `disciplined_iff` says which runs meet neither.

  Differences of times are taken as exact: they are milliseconds of a clock that does not go back.
-/

import HftLab.Fix.Session

namespace HftLab.Fix

open List

namespace FIXSession

inductive Action where
  | none
  | sendHeartbeat
  | sendTestRequest
  | disconnect
  deriving DecidableEq, Repr

variable (s : FIXSession)

/-- HeartBtInt. -/
def heartbeatMs : Int := s.heartbeatIntSec * 1000

def tick (nowMs : Int) : Action × FIXSession :=
  if s.state ≠ .loggedIn then (.none, s)
  else if 2 * s.heartbeatMs < nowMs - s.lastInboundMs then
    if s.testRequestPending then (.disconnect, s) else (.sendTestRequest, { s with testRequestPending := true })
  else if s.heartbeatMs < nowMs - s.lastOutboundMs then
    (.sendHeartbeat, { s with heartbeatsSent := s.heartbeatsSent + 1, lastOutboundMs := nowMs })
  else (.none, s)

/-- Logged in, and nothing came for two intervals. -/
def SilentAt (nowMs : Int) : Prop := s.state = .loggedIn ∧ 2 * s.heartbeatMs < nowMs - s.lastInboundMs

def markOutbound (nowMs : Int) : FIXSession := { s with lastOutboundMs := nowMs }

end FIXSession

/-! ## Runs -/

inductive SessionEvent where
  | processInbound (m : FIXMessage) (nowMs : Int)
  | observeInbound (msgSeqNum : UInt32) (nowMs : Int)
  | markOutbound (nowMs : Int)
  | markLogonReceived (hbIntSec nowMs : Int)
  | tick (nowMs : Int)

namespace SessionEvent

def time : SessionEvent → Int
  | .processInbound _ nowMs => nowMs
  | .observeInbound _ nowMs => nowMs
  | .markOutbound nowMs => nowMs
  | .markLogonReceived _ nowMs => nowMs
  | .tick nowMs => nowMs

/-- A message came from the counterparty. -/
def IsInbound : SessionEvent → Prop
  | .processInbound _ _ => True
  | .observeInbound _ _ => True
  | .markLogonReceived _ _ => True
  | .markOutbound _ => False
  | .tick _ => False

end SessionEvent

namespace FIXSession

def exec (s : FIXSession) : SessionEvent → FIXSession
  | .processInbound m nowMs => (s.processInbound m nowMs).1
  | .observeInbound msgSeqNum nowMs => (s.observeInbound msgSeqNum nowMs).1
  | .markOutbound nowMs => s.markOutbound nowMs
  | .markLogonReceived hbIntSec nowMs => s.markLogonReceived hbIntSec nowMs
  | .tick nowMs => (s.tick nowMs).2

def run (events : List SessionEvent) : FIXSession := events.foldl exec {}

/-- A tick sent a test request at `t0`, and no message came since. -/
def Unanswered (events : List SessionEvent) (t0 : Int) : Prop :=
  ∃ before after, events = before ++ .tick t0 :: after ∧ ((run before).tick t0).1 = .sendTestRequest ∧ ∀ e ∈ after, ¬e.IsInbound

/-- The session is only ever dropped an interval after a test request that was not answered. -/
def Disciplined (events : List SessionEvent) : Prop :=
  ∀ before t after, events = before ++ .tick t :: after → ((run before).tick t).1 = .disconnect →
    ∃ t0, Unanswered before t0 ∧ (run before).heartbeatMs ≤ t - t0

/-- A tick at `t0` found the session silent and the flag off, and no message came since. -/
def FlaggedAt (events : List SessionEvent) (t0 : Int) : Prop :=
  ∃ before after, events = before ++ .tick t0 :: after ∧ (run before).SilentAt t0 ∧ (run before).testRequestPending = false ∧
    ∀ e ∈ after, ¬e.IsInbound

/-- No tick comes within an interval of the one that put the flag on; and while a flag is on that a message should have put off, no
    tick finds the session silent. -/
structure Patient (events : List SessionEvent) : Prop where
  waits : ∀ before t after t0, events = before ++ .tick t :: after → FlaggedAt before t0 → (run before).heartbeatMs ≤ t - t0
  stale : ∀ before t after, events = before ++ .tick t :: after → (run before).testRequestPending = true →
    (∀ t0, ¬FlaggedAt before t0) → ¬(run before).SilentAt t

variable {s : FIXSession} {events : List SessionEvent} {e : SessionEvent} {t t0 : Int}

/-! ## One tick -/

theorem tick_iffs (s : FIXSession) (t : Int) : ((s.tick t).1 = .disconnect ↔ s.SilentAt t ∧ s.testRequestPending) ∧
    ((s.tick t).1 = .sendTestRequest ↔ s.SilentAt t ∧ s.testRequestPending = false) := by
  unfold tick SilentAt
  by_cases hin : s.state = .loggedIn
  · rw [if_neg (not_not.mpr hin)]
    by_cases hsilent : 2 * s.heartbeatMs < t - s.lastInboundMs
    · rw [if_pos hsilent]
      cases s.testRequestPending <;> simp [hin, hsilent]
    · rw [if_neg hsilent]
      split <;> simp [hsilent]
  · rw [if_pos hin]
    simp [hin]

theorem tick_disconnect_iff (s : FIXSession) (t : Int) :
    (s.tick t).1 = .disconnect ↔ s.SilentAt t ∧ s.testRequestPending := (tick_iffs s t).1

theorem tick_sendTestRequest_iff (s : FIXSession) (t : Int) :
    (s.tick t).1 = .sendTestRequest ↔ s.SilentAt t ∧ s.testRequestPending = false := (tick_iffs s t).2

theorem tick_sendTestRequest (h : s.SilentAt t) (hp : s.testRequestPending = false) :
    (s.tick t).2 = { s with testRequestPending := true } := by
  unfold tick
  rw [if_neg (not_not.mpr h.1), if_pos h.2, hp]
  rfl

/-- A test request was sent at `t0`, and the session waits. -/
structure Waiting (s : FIXSession) (t0 : Int) : Prop where
  silent : s.SilentAt t0
  pending : s.testRequestPending = true

theorem Waiting.exec (h : s.Waiting t0) (he : ¬e.IsInbound) : (s.exec e).Waiting t0 := by
  obtain ⟨⟨hin, hsilent⟩, hpending⟩ := h
  cases e with
  | processInbound m nowMs => exact absurd trivial he
  | observeInbound msgSeqNum nowMs => exact absurd trivial he
  | markLogonReceived hbIntSec nowMs => exact absurd trivial he
  | markOutbound nowMs => exact ⟨⟨hin, hsilent⟩, hpending⟩
  | tick nowMs =>
    simp only [FIXSession.exec, FIXSession.tick, hin, hpending, ne_eq, not_true_eq_false, if_false, if_true]
    split
    · exact ⟨⟨hin, hsilent⟩, hpending⟩
    · split
      · exact ⟨⟨rfl, hsilent⟩, rfl⟩
      · exact ⟨⟨hin, hsilent⟩, hpending⟩

theorem Waiting.foldl (h : s.Waiting t0) (hl : ∀ e ∈ events, ¬e.IsInbound) : (events.foldl FIXSession.exec s).Waiting t0 := by
  induction events generalizing s with
  | nil => exact h
  | cons e events ih => exact ih (h.exec (hl e mem_cons_self)) fun e' he' => hl e' (mem_cons_of_mem _ he')

/-! ## A run -/

/-- The flag is put on by the tick that sends the request, and no other. -/
theorem unanswered_iff_flaggedAt : Unanswered events t0 ↔ FlaggedAt events t0 := by
  constructor
  · intro h
    obtain ⟨before, after, heq, hsent, hafter⟩ := h
    obtain ⟨hsilent, hoff⟩ := (tick_sendTestRequest_iff _ _).mp hsent
    exact ⟨before, after, heq, hsilent, hoff, hafter⟩
  · intro h
    obtain ⟨before, after, heq, hsilent, hoff, hafter⟩ := h
    exact ⟨before, after, heq, (tick_sendTestRequest_iff _ _).mpr ⟨hsilent, hoff⟩, hafter⟩

theorem FlaggedAt.waiting (h : FlaggedAt events t0) : (run events).Waiting t0 := by
  obtain ⟨before, after, rfl, hsilent, hoff, hafter⟩ := h
  have hstart : ((run before).exec (.tick t0)).Waiting t0 := by
    show ((run before).tick t0).2.Waiting t0
    rw [tick_sendTestRequest hsilent hoff]
    exact ⟨hsilent, rfl⟩
  have hrun : run (before ++ .tick t0 :: after) = after.foldl FIXSession.exec ((run before).exec (.tick t0)) := by
    unfold run
    rw [foldl_append, foldl_cons]
  rw [hrun]
  exact hstart.foldl hafter

theorem FlaggedAt.mem (h : FlaggedAt events t0) : .tick t0 ∈ events := by
  obtain ⟨before, after, rfl, -⟩ := h
  simp

theorem flaggedAt_concat (events : List SessionEvent) (e : SessionEvent) (t0 : Int) :
    FlaggedAt (events ++ [e]) t0 ↔
      e = .tick t0 ∧ (run events).SilentAt t0 ∧ (run events).testRequestPending = false ∨ ¬e.IsInbound ∧ FlaggedAt events t0 := by
  constructor
  · intro h
    obtain ⟨before, after, heq, hsilent, hoff, hafter⟩ := h
    rcases eq_nil_or_concat after with rfl | ⟨after, e', rfl⟩
    · obtain ⟨rfl, he⟩ := append_inj' heq rfl
      exact .inl ⟨singleton_inj.mp he, hsilent, hoff⟩
    · rw [concat_eq_append] at heq hafter
      rw [← cons_append, ← append_assoc] at heq
      obtain ⟨rfl, he⟩ := append_inj' heq rfl
      obtain rfl := singleton_inj.mp he
      exact .inr ⟨hafter e (by simp), before, after, rfl, hsilent, hoff, fun e' he' => hafter e' (mem_append_left _ he')⟩
  · intro h
    rcases h with ⟨rfl, hsilent, hoff⟩ | ⟨he, before, after, rfl, hsilent, hoff, hafter⟩
    · exact ⟨events, [], rfl, hsilent, hoff, nofun⟩
    · refine ⟨before, after ++ [e], by simp, hsilent, hoff, fun e' he' => ?_⟩
      rcases mem_append.mp he' with he' | he'
      · exact hafter e' he'
      · rw [mem_singleton.mp he']
        exact he

/-- While the session waits it sends no second request. -/
theorem FlaggedAt.unique {t1 : Int} (h : FlaggedAt events t0) (h' : FlaggedAt events t1) : t0 = t1 := by
  have hon : ∀ {events : List SessionEvent} {t : Int}, FlaggedAt events t → ¬(run events).testRequestPending = false := by
    intro events t hw hoff
    rw [hw.waiting.pending] at hoff
    cases hoff
  induction events using List.reverseRecOn with
  | nil =>
    have hmem := h.mem
    cases hmem
  | append_singleton events e ih =>
    rcases (flaggedAt_concat events e t0).mp h with ⟨he, -, hoff⟩ | ⟨-, hold⟩
    · rcases (flaggedAt_concat events e t1).mp h' with ⟨he', -⟩ | ⟨-, hold'⟩
      · rw [he] at he'
        exact SessionEvent.tick.inj he'
      · exact absurd hoff (hon hold')
    · rcases (flaggedAt_concat events e t1).mp h' with ⟨-, -, hoff'⟩ | ⟨-, hold'⟩
      · exact absurd hoff' (hon hold)
      · exact ih hold hold'

/-- Over every run of a fresh session on a clock that does not go back. -/
theorem disciplined_iff (events : List SessionEvent) (htimes : (events.map SessionEvent.time).Pairwise (· ≤ ·)) :
    Disciplined events ↔ Patient events := by
  constructor
  · intro h
    refine ⟨fun before t after t0 heq hflag => ?_, fun before t after heq hpending hnone hsilent => ?_⟩
    · -- the tick ends the session, so the claimed request is there, and it is this one
      have hle : t0 ≤ t := by
        rw [heq, List.map_append, List.map_cons] at htimes
        have hbefore := (List.pairwise_append.mp htimes).2.2
        exact hbefore _ (List.mem_map.mpr ⟨_, hflag.mem, rfl⟩) _ List.mem_cons_self
      obtain ⟨⟨hin, hsilent⟩, hpending⟩ := hflag.waiting
      have hsilent' : (run before).SilentAt t := ⟨hin, by omega⟩
      obtain ⟨t1, hsent, hwait⟩ := h before t after heq ((tick_disconnect_iff _ _).mpr ⟨hsilent', hpending⟩)
      rw [hflag.unique (unanswered_iff_flaggedAt.mp hsent)]
      exact hwait
    · obtain ⟨t0, hsent, -⟩ := h before t after heq ((tick_disconnect_iff _ _).mpr ⟨hsilent, hpending⟩)
      exact hnone t0 (unanswered_iff_flaggedAt.mp hsent)
  · intro h before t after heq hdropped
    obtain ⟨hsilent, hpending⟩ := (tick_disconnect_iff _ _).mp hdropped
    by_cases hsome : ∃ t0, FlaggedAt before t0
    · obtain ⟨t0, hflag⟩ := hsome
      exact ⟨t0, unanswered_iff_flaggedAt.mpr hflag, h.waits before t after t0 heq hflag⟩
    · exact absurd hsilent (h.stale before t after heq hpending (not_exists.mp hsome))

def sampleDropped : List SessionEvent := [.markLogonReceived 30 0, .tick 60001, .tick 60002]

/-- The test request goes out at 60001, and the session ends a millisecond later. -/
theorem dropped_at_once : ¬Disciplined sampleDropped := by
  intro h
  obtain ⟨t0, ⟨before, after, heq, -, -⟩, hwait⟩ := h [.markLogonReceived 30 0, .tick 60001] 60002 [] rfl (by decide +kernel)
  have hmem : SessionEvent.tick t0 ∈ [SessionEvent.markLogonReceived 30 0, .tick 60001] := by
    rw [heq]
    simp
  have ht0 : t0 = 60001 := by simpa using hmem
  have hinterval : (run [.markLogonReceived 30 0, .tick 60001]).heartbeatMs = 30000 := by decide +kernel
  omega

/-- A logon, and a test request that is given its interval. -/
theorem disciplined_iff_sample :
    Disciplined [.markLogonReceived 30 0, .tick 60001, .tick 90001] ↔ Patient [.markLogonReceived 30 0, .tick 60001, .tick 90001] :=
  disciplined_iff _ (by decide)

end FIXSession

end HftLab.Fix
