/-
  HftLab.Logger.TradeLogger — the buffer of `TradeLogger` and `log` (trade_logger.hpp).

  In linear mode a full buffer refuses, in ring mode the oldest event is written over. `Recorded` says what the buffer holds of the
  events that were logged: each slot has the latest of those that went there.
-/

import HftLab.Logger.AuditLog

namespace HftLab.Logger

open Lib List

/-- A call of `log`, with what the clocks say. -/
structure Call (D : Type) where
  entry : Entry D
  monoNs : Int
  wallNs : Int

def Call.event {D : Type} (c : Call D) (sequenceNo : Nat) : TradeEvent D := c.entry.event sequenceNo c.monoNs c.wallNs

structure TradeLogger (D : Type) where
  events : Nat → TradeEvent D
  maxEvents : Nat
  ringMode : Bool
  head : Nat := 0
  sequence : Nat := 0
  totalLogged : Nat := 0
  counters : EventType → Int := fun _ => 0

namespace TradeLogger

variable {D : Type} (s : TradeLogger D)

/-- Where the `i`-th event goes. -/
def slot (i : Nat) : Nat := if s.ringMode then i % s.maxEvents else i

/-- `log` refuses. -/
def full : Bool := !s.ringMode && s.maxEvents ≤ s.head

/-- The record is filled and counted; the flush thread does not see it yet. -/
def write (c : Call D) : TradeLogger D :=
  let sequence := s.sequence + 1
  { s with
    events := Function.update s.events (s.slot s.head) (c.event sequence)
    sequence
    counters := Function.update s.counters c.entry.type (i32 (s.counters c.entry.type + 1))
    totalLogged := s.totalLogged + 1 }

def publish : TradeLogger D := { s with head := s.head + 1 }

/-- With the number that is returned, 0 when the event is refused. -/
def log (c : Call D) : Nat × TradeLogger D := if s.full then (0, s) else (s.sequence + 1, (s.write c).publish)

def totalEvents : Nat := if s.ringMode then min s.head s.maxEvents else s.head

/-- What is kept of the events that were written, in order. -/
structure Recorded (l : List (TradeEvent D)) : Prop where
  sequence : s.sequence = l.length
  numbers : l.map TradeEvent.sequenceNo = List.range' 1 l.length
  total : s.totalLogged = l.length
  room : s.ringMode = false → l.length ≤ s.maxEvents
  latest : Latest s.slot s.events l

variable {s} {l : List (TradeEvent D)} {c : Call D} {i j : Nat}

theorem recorded_fresh (events : Nat → TradeEvent D) (maxEvents : Nat) (ringMode : Bool) :
    Recorded { events, maxEvents, ringMode } [] where
  sequence := rfl
  numbers := rfl
  total := rfl
  room _ := Nat.zero_le _
  latest := latest_nil _ _

theorem Recorded.write (h : s.Recorded l) (hhead : s.head = l.length) (hfull : s.full = false) (c : Call D) :
    (s.write c).Recorded (l ++ [c.event (l.length + 1)]) where
  sequence := by
    show s.sequence + 1 = _
    rw [h.sequence, length_append, length_singleton]
  numbers := by
    rw [map_append, h.numbers, length_append, length_singleton, range'_concat, map_singleton, Nat.one_mul,
      Nat.add_comm 1]
    rfl
  total := by
    show s.totalLogged + 1 = _
    rw [h.total, length_append, length_singleton]
  room hlinear := by
    have hlinear : s.ringMode = false := hlinear
    unfold full at hfull
    rw [hlinear, hhead] at hfull
    have hlt : l.length < s.maxEvents := by simpa using hfull
    rw [length_append, length_singleton]
    exact hlt
  latest := by
    have hlatest := h.latest.append (c.event (l.length + 1))
    show Latest s.slot (Function.update s.events (s.slot s.head) (c.event (s.sequence + 1))) _
    rw [hhead, h.sequence]
    exact hlatest

/-- The events are numbered from 1 on. -/
theorem Recorded.number (h : s.Recorded l) (hi : i < l.length) : l[i].sequenceNo = i + 1 := by
  have hget : (l.map TradeEvent.sequenceNo)[i]? = some l[i].sequenceNo := by
    rw [List.getElem?_map, List.getElem?_eq_getElem hi, Option.map_some]
  rw [h.numbers, List.getElem?_range' hi] at hget
  have hnum := Option.some.inj hget
  omega

theorem fresh_iff (hcap : s.ringMode → 0 < s.maxEvents) {m : Nat} :
    Fresh s.slot m i ↔ (s.ringMode = true → m ≤ i + s.maxEvents) := by
  cases hr : s.ringMode with
  | false =>
    have hslot : s.slot = id := by
      funext i
      simp [slot, hr]
    rw [hslot]
    exact ⟨fun _ h => (by cases h), fun _ => fresh_id m i⟩
  | true =>
    have hslot : s.slot = (· % s.maxEvents) := by
      funext i
      simp [slot, hr]
    rw [hslot, fresh_mod_iff (hcap hr)]
    exact ⟨fun h _ => h, fun h => h rfl⟩

/-- An event that was not written over. -/
theorem Recorded.get (h : s.Recorded l) (hi : i < l.length) (hfresh : Fresh s.slot l.length i) : s.events (s.slot i) = l[i] :=
  h.latest i l[i] (List.getElem?_eq_getElem hi) hfresh

/-- Whatever was written over it, the number tells. -/
theorem Recorded.eq_iff (h : s.Recorded l) (hi : i < l.length) : s.events (s.slot i) = l[i] ↔ Fresh s.slot l.length i := by
  constructor
  · intro heq
    obtain ⟨j, hij, hj, hslot, hfresh⟩ := exists_fresh s.slot hi
    have hlast := h.get hj hfresh
    rw [hslot, heq] at hlast
    have hnumber := congrArg TradeEvent.sequenceNo hlast
    rw [h.number hi, h.number hj] at hnumber
    obtain rfl : i = j := by omega
    exact hfresh
  · exact h.get hi

end TradeLogger

end HftLab.Logger
