/-
  HftLab.Fix.Session — FIXSession (fix_session.hpp): the state of a session, its sequence numbers, and what `process_inbound` does
  with a message.

  Sequence numbers are 32-bit and wrap; times are the caller's and are only stored here. The fields that hold a C string are
  `Text31`, which has neither a NUL nor more characters than the array. The file that keeps the sequence numbers is left
  out; the heartbeat timer is in Liveness.
-/

import HftLab.Fix.Message

namespace HftLab.Fix

open Lib

namespace FIXMessage

def getField (m : FIXMessage) (tag : Int) : Option (List UInt8) := (m.findField tag).map (·.value)

def getMsgType (m : FIXMessage) : List UInt8 := (m.getField 35).getD (ascii "UNKNOWN")

end FIXMessage

inductive SessionState where
  | disconnected
  | logonSent
  | loggedIn
  | logout
  deriving DecidableEq, Repr

structure GapDetected where
  expected : UInt32
  received : UInt32
  valid : Bool
  deriving DecidableEq, Repr

/-- What a `char[32]` that ends in a NUL holds. -/
structure Text31 where
  text : List UInt8
  no_nul : 0 ∉ text
  length_le : text.length ≤ 31
  deriving DecidableEq

theorem zero_not_mem_cString (s : List UInt8) : 0 ∉ cString s := by
  intro h
  have hall := List.mem_takeWhile_imp h
  simp at hall

/-- `strncpy` of 31 characters. -/
def Text31.copy (s : List UInt8) : Text31 where
  text := (cString s).take 31
  no_nul := fun h => zero_not_mem_cString s (List.mem_of_mem_take h)
  length_le := by
    rw [List.length_take]
    exact Nat.min_le_left ..

structure FIXSession where
  state : SessionState := .disconnected
  expectedInSeq : UInt32 := 1
  nextOutSeq : UInt32 := 1
  heartbeatIntSec : Int := 30
  lastInboundMs : Int := 0
  lastOutboundMs : Int := 0
  testRequestPending : Bool := false
  senderComp : Text31 := .copy (ascii "SENDER")
  targetComp : Text31 := .copy (ascii "TARGET")
  pendingTestReqId : Text31 := .copy []
  gapsDetected : Nat := 0
  heartbeatsSent : Nat := 0
  resendsRequested : Nat := 0
  deriving DecidableEq

namespace FIXSession

def observeInbound (s : FIXSession) (msgSeqNum : UInt32) (nowMs : Int) : FIXSession × GapDetected :=
  let s := { s with lastInboundMs := nowMs, testRequestPending := false }
  if msgSeqNum = s.expectedInSeq then ({ s with expectedInSeq := s.expectedInSeq + 1 }, ⟨0, msgSeqNum, false⟩)
  else if s.expectedInSeq < msgSeqNum then
    ({ s with gapsDetected := s.gapsDetected + 1, expectedInSeq := msgSeqNum + 1 }, ⟨s.expectedInSeq, msgSeqNum, true⟩)
  else (s, ⟨0, msgSeqNum, false⟩)

def applyInboundSequenceReset (s : FIXSession) (newSeqNo : UInt32) : FIXSession :=
  if s.expectedInSeq ≤ newSeqNo then { s with expectedInSeq := newSeqNo } else s

def markLogonReceived (s : FIXSession) (hbIntSec : Int) (nowMs : Int) : FIXSession :=
  { s with state := .loggedIn, heartbeatIntSec := if 0 < hbIntSec then hbIntSec else 30, lastInboundMs := nowMs }

def markLogout (s : FIXSession) (nowMs : Int) : FIXSession := { s with state := .logout, lastOutboundMs := nowMs }

/-- `mt[0]`, which is NUL for an empty text. -/
def firstChar (mt : List UInt8) : UInt8 := mt.headD 0

/-- What `process_inbound` does with tag 34. -/
def observeSeqNum (s : FIXSession) (m : FIXMessage) (nowMs : Int) : FIXSession × GapDetected :=
  match m.getField 34 with
  | some seq => s.observeInbound (UInt32.ofInt (atoi seq)) nowMs
  | none => ({ s with lastInboundMs := nowMs }, ⟨0, 0, false⟩)

/-- Every type is told by its first character. -/
def processInbound (s : FIXSession) (m : FIXMessage) (nowMs : Int) : FIXSession × GapDetected :=
  let mt := firstChar m.getMsgType
  if mt = '4'.toUInt8 then
    let s := match m.getField 36 with
      | some ns => s.applyInboundSequenceReset (UInt32.ofInt (atoi ns))
      | none => s
    ({ s with lastInboundMs := nowMs }, ⟨0, 0, false⟩)
  else
    let (s, gap) := s.observeSeqNum m nowMs
    let s :=
      if mt = 'A'.toUInt8 then s.markLogonReceived (((m.getField 108).map atoi).getD 30) nowMs
      else if mt = '5'.toUInt8 then s.markLogout nowMs
      else if mt = '1'.toUInt8 then
        match m.getField 112 with
        | some tri => { s with pendingTestReqId := .copy tri }
        | none => s
      else s
    (s, gap)

end FIXSession

end HftLab.Fix
