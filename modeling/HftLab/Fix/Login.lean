/-
  HftLab.Fix.Login — when a session is logged in.

  A Logon is a message of type `A` and a Logout one of type `5`; a type of more characters, such as the `AE` of a trade capture
  report, is neither. `process_inbound` looks at the first character alone, so a report logs a session in that nobody logged into
  (`capture_report_logs_in`). `login_right_iff` says for which runs that makes no difference: those in which such a message only
  comes where the state it leads to is the state already.
-/

import HftLab.Fix.Session

namespace HftLab.Fix

open Lib

namespace FIXMessage

def IsLogon (m : FIXMessage) : Prop := m.getMsgType = ascii "A"

def IsLogout (m : FIXMessage) : Prop := m.getMsgType = ascii "5"

/-- A type of several characters. -/
def IsLong (m : FIXMessage) : Prop := 2 ≤ m.getMsgType.length

instance (m : FIXMessage) : Decidable m.IsLogon := inferInstanceAs (Decidable (_ = _))

instance (m : FIXMessage) : Decidable m.IsLogout := inferInstanceAs (Decidable (_ = _))

instance (m : FIXMessage) : Decidable m.IsLong := inferInstanceAs (Decidable (_ ≤ _))

end FIXMessage

/-- A message and the time at which it arrives. -/
abbrev Arrival := FIXMessage × Int

/-- The last message that is exactly a Logon or exactly a Logout. -/
def lastBoundary (ms : List Arrival) : Option Arrival := (ms.filter fun m => m.1.IsLogon ∨ m.1.IsLogout).getLast?

namespace FIXSession

variable {m : FIXMessage} {ms : List Arrival}

def receive (s : FIXSession) (ms : List Arrival) : FIXSession := ms.foldl (fun s m => (s.processInbound m.1 m.2).1) s

/-- What the state of a fresh session ought to be after `ms`, and that no message of a long type changed it. -/
structure LoginRight (ms : List Arrival) : Prop where
  loggedIn : (receive {} ms).state = .loggedIn → ∃ m, lastBoundary ms = some m ∧ m.1.IsLogon
  long : ∀ before m after, ms = before ++ m :: after → m.1.IsLong →
    ((receive {} before).processInbound m.1 m.2).1.state = (receive {} before).state

/-- No message of a long type arrives where its first character leads to another state. -/
def Unmistaken (ms : List Arrival) : Prop :=
  ∀ before m after, ms = before ++ m :: after → m.1.IsLong →
    (firstChar m.1.getMsgType = 'A'.toUInt8 → (receive {} before).state = .loggedIn) ∧
    (firstChar m.1.getMsgType = '5'.toUInt8 → (receive {} before).state = .logout)

/-! ## One message -/

@[simp] theorem observeInbound_state (s : FIXSession) (n : UInt32) (now : Int) : (s.observeInbound n now).1.state = s.state := by
  unfold observeInbound
  dsimp only
  split
  · rfl
  · split
    · rfl
    · rfl

@[simp] theorem applyInboundSequenceReset_state (s : FIXSession) (n : UInt32) : (s.applyInboundSequenceReset n).state = s.state := by
  unfold applyInboundSequenceReset
  split
  · rfl
  · rfl

@[simp] theorem observeSeqNum_state (s : FIXSession) (m : FIXMessage) (now : Int) : (s.observeSeqNum m now).1.state = s.state := by
  unfold observeSeqNum
  cases m.getField 34 with
  | none => rfl
  | some seq => exact observeInbound_state ..

/-- The state that the first character of a type leads to. -/
def stateAfter (c : UInt8) (state : SessionState) : SessionState :=
  if c = 'A'.toUInt8 then .loggedIn else if c = '5'.toUInt8 then .logout else state

theorem processInbound_state (s : FIXSession) (m : FIXMessage) (now : Int) :
    (s.processInbound m now).1.state = stateAfter (firstChar m.getMsgType) s.state := by
  unfold processInbound stateAfter
  dsimp only
  by_cases h4 : firstChar m.getMsgType = '4'.toUInt8
  · rw [if_pos h4, h4, if_neg (by decide), if_neg (by decide)]
    cases m.getField 36 with
    | none => rfl
    | some ns => exact applyInboundSequenceReset_state ..
  · rw [if_neg h4]
    rw [← observeSeqNum_state s m now]
    split
    · rfl
    · split
      · rfl
      · split
        · cases m.getField 112 with
          | none => rfl
          | some tri => rfl
        · rfl

theorem receive_append (s : FIXSession) (ms ms' : List Arrival) : s.receive (ms ++ ms') = (s.receive ms).receive ms' :=
  List.foldl_append

theorem receive_concat (s : FIXSession) (ms : List Arrival) (m : Arrival) :
    s.receive (ms ++ [m]) = ((s.receive ms).processInbound m.1 m.2).1 := receive_append s ms [m]

/-- A type of several characters keeps the state exactly when its first character does not lead away from it. -/
theorem stateAfter_eq_self_iff (c : UInt8) (state : SessionState) :
    stateAfter c state = state ↔ (c = 'A'.toUInt8 → state = .loggedIn) ∧ (c = '5'.toUInt8 → state = .logout) := by
  unfold stateAfter
  split
  · rename_i hA
    rw [hA]
    constructor
    · intro h
      exact ⟨fun _ => h.symm, fun h5 => absurd h5 (by decide)⟩
    · intro h
      exact (h.1 rfl).symm
  · rename_i hA
    split
    · rename_i h5
      constructor
      · intro h
        exact ⟨fun h' => absurd h' hA, fun _ => h.symm⟩
      · intro h
        exact (h.2 h5).symm
    · rename_i h5
      exact ⟨fun _ => ⟨fun h' => absurd h' hA, fun h' => absurd h' h5⟩, fun _ => rfl⟩

/-- A type of one character is told by it. -/
theorem isLogon_of_short (h : ¬m.IsLong) (hA : firstChar m.getMsgType = 'A'.toUInt8) : m.IsLogon := by
  unfold FIXMessage.IsLong at h
  unfold FIXMessage.IsLogon
  generalize m.getMsgType = t at h hA
  match t with
  | [] => exact absurd hA (by decide)
  | [c] =>
    have hc : c = 'A'.toUInt8 := hA
    rw [hc]
    rfl
  | _ :: _ :: _ => exact absurd (Nat.le_add_left ..) h

/-! ## A run -/

theorem lastBoundary_concat_logon {m : Arrival} (h : m.1.IsLogon) : lastBoundary (ms ++ [m]) = some m := by
  simp [lastBoundary, h]

theorem lastBoundary_concat_other {m : Arrival} (h : ¬(m.1.IsLogon ∨ m.1.IsLogout)) :
    lastBoundary (ms ++ [m]) = lastBoundary ms := by
  rw [not_or] at h
  simp [lastBoundary, h]

theorem not_boundary_of_long (h : m.IsLong) : ¬(m.IsLogon ∨ m.IsLogout) := by
  unfold FIXMessage.IsLong at h
  intro hb
  rcases hb with hb | hb
  · rw [hb] at h
    exact absurd h (by decide)
  · rw [hb] at h
    exact absurd h (by decide)

theorem not_boundary_of_first (hA : firstChar m.getMsgType ≠ 'A'.toUInt8) (h5 : firstChar m.getMsgType ≠ '5'.toUInt8) :
    ¬(m.IsLogon ∨ m.IsLogout) := by
  intro hb
  rcases hb with hb | hb
  · rw [hb] at hA
    exact hA rfl
  · rw [hb] at h5
    exact h5 rfl

theorem Unmistaken.of_concat {m : Arrival} (h : Unmistaken (ms ++ [m])) : Unmistaken ms := by
  intro before m' after heq
  exact h before m' (after ++ [m]) (by rw [heq]; simp)

/-- The last message decides, or the run before it does. -/
theorem loggedIn_last (h : Unmistaken ms) (hin : (receive {} ms).state = .loggedIn) :
    ∃ m, lastBoundary ms = some m ∧ m.1.IsLogon := by
  induction ms using List.reverseRecOn with
  | nil => exact absurd hin (by decide)
  | append_singleton ms m ih =>
    rw [receive_concat, processInbound_state] at hin
    by_cases hlong : m.1.IsLong
    · -- A long type leaves the state alone and is no boundary.
      rw [(stateAfter_eq_self_iff _ _).mpr (h ms m [] rfl hlong)] at hin
      rw [lastBoundary_concat_other (not_boundary_of_long hlong)]
      exact ih h.of_concat hin
    · by_cases hA : firstChar m.1.getMsgType = 'A'.toUInt8
      · have hlogon := isLogon_of_short hlong hA
        exact ⟨m, lastBoundary_concat_logon hlogon, hlogon⟩
      · by_cases h5 : firstChar m.1.getMsgType = '5'.toUInt8
        · rw [stateAfter, if_neg hA, if_pos h5] at hin
          exact absurd hin (by decide)
        · rw [stateAfter, if_neg hA, if_neg h5] at hin
          rw [lastBoundary_concat_other (not_boundary_of_first hA h5)]
          exact ih h.of_concat hin

/-- Over every run of a fresh session. -/
theorem login_right_iff (ms : List Arrival) : LoginRight ms ↔ Unmistaken ms := by
  have hlong : ∀ before : List Arrival, ∀ m : Arrival,
      ((receive {} before).processInbound m.1 m.2).1.state = (receive {} before).state ↔
        (firstChar m.1.getMsgType = 'A'.toUInt8 → (receive {} before).state = .loggedIn) ∧
        (firstChar m.1.getMsgType = '5'.toUInt8 → (receive {} before).state = .logout) := by
    intro before m
    rw [processInbound_state]
    exact stateAfter_eq_self_iff ..
  constructor
  · intro h before m after heq hm
    exact (hlong before m).mp (h.long before m after heq hm)
  · intro h
    exact ⟨loggedIn_last h, fun before m after heq hm => (hlong before m).mpr (h before m after heq hm)⟩

/-- A trade capture report, of type `AE`, logs a fresh session in. -/
theorem capture_report_logs_in :
    ¬LoginRight [(FIXMessage.parse (buildMessage 1000 (ascii "35=AE|34=1|571=T1|") (ascii "FIX.4.2") '|'.toUInt8), 0)] := by
  intro h
  obtain ⟨m, hm, -⟩ := h.loggedIn (by decide +kernel)
  have hnone : lastBoundary [(FIXMessage.parse (buildMessage 1000 (ascii "35=AE|34=1|571=T1|") (ascii "FIX.4.2") '|'.toUInt8), 0)] = none := by
    decide +kernel
  rw [hnone] at hm
  exact absurd hm nofun

end FIXSession

end HftLab.Fix
