/-
  HftLab.Multicast.Feed — the sequence numbers of a market-data feed (gap_recovery.hpp, multicast.hpp): gaps and
  their recovery, the cumulative acknowledgement, the reordering buffer, two redundant lines, and the join of a
  snapshot with the increments.

  Sequence numbers are 64-bit and wrap where the source adds to them; a `std::set` is a `Finset`. The counters of
  events are plain numbers.
-/

import HftLab.Lib.Int32
import Mathlib.Data.Finset.Max
import Mathlib.Data.List.AList

namespace HftLab.Multicast

open Lib

/-! ## Gap recovery -/

structure GapRecovery where
  missing : Finset Nat := ∅
  expected : Nat := 0
  primaryPackets : Nat := 0
  initialized : Bool := false
  gapEvents : Nat := 0
  recovered : Nat := 0
  duplicates : Nat := 0
  maxGapBurst : Nat := 0

namespace GapRecovery

variable (g : GapRecovery)

/-- The primary feed: in order, ahead (a gap opens), or behind (a late packet fills a gap, or is a duplicate). -/
def observe (seq : Nat) : GapRecovery :=
  let g := { g with primaryPackets := g.primaryPackets + 1 }
  if !g.initialized then { g with initialized := true, expected := uint64 (seq + 1) }
  else if seq = g.expected then { g with expected := uint64 (g.expected + 1) }
  else if g.expected < seq then
    let burst := seq - g.expected
    { g with
      maxGapBurst := max g.maxGapBurst burst
      missing := (List.range' g.expected burst).foldl (fun m s => insert s m) g.missing
      gapEvents := g.gapEvents + 1
      expected := uint64 (seq + 1) }
  else if seq ∈ g.missing then { g with missing := g.missing.erase seq, recovered := g.recovered + 1 }
  else { g with duplicates := g.duplicates + 1 }

/-- A packet of the recovery server: it counts only if it fills a known gap. -/
def onRetransmit (seq : Nat) : Bool × GapRecovery :=
  if seq ∈ g.missing then (true, { g with missing := g.missing.erase seq, recovered := g.recovered + 1 }) else (false, g)

/-- The lowest number that is awaited, 0 if there is none. -/
def oldestMissing : Nat := if h : g.missing.Nonempty then g.missing.min' h else 0

def headOfLineLag : Nat := if h : g.missing.Nonempty then g.expected - g.missing.min' h else 0

end GapRecovery

/-! ## The highest number with no gap below -/

structure ContiguousTracker where
  nextExpected : Nat := 1
  ahead : Finset Nat := ∅
  maxLookahead : Nat := 0

namespace ContiguousTracker

/-- The loop that takes in what was set aside; each pass erases one number of `ahead`. -/
def catchUp : Nat → ContiguousTracker → ContiguousTracker
  | 0, c => c
  | n + 1, c =>
    if c.nextExpected ∈ c.ahead then
      catchUp n { c with ahead := c.ahead.erase c.nextExpected, nextExpected := uint64 (c.nextExpected + 1) }
    else c

def receive (c : ContiguousTracker) (seq : Nat) : ContiguousTracker :=
  if seq < c.nextExpected then c
  else if seq = c.nextExpected then
    catchUp c.ahead.card { c with nextExpected := uint64 (c.nextExpected + 1) }
  else { c with maxLookahead := max c.maxLookahead (seq - c.nextExpected), ahead := insert seq c.ahead }

end ContiguousTracker

/-! ## The reordering buffer -/

structure ReorderBuffer (T : Type) where
  expected : Nat := 0
  initialized : Bool := false
  pending : AList (fun _ : Nat => T) := ∅
  out : List T := []
  duplicates : Nat := 0
  maxBuffered : Nat := 0

namespace ReorderBuffer

variable {T : Type}

/-- The loop that delivers what follows without a gap; each pass erases one packet of `pending`. -/
def drain : Nat → ReorderBuffer T → ReorderBuffer T
  | 0, r => r
  | n + 1, r =>
    match r.pending.lookup r.expected with
    | none => r
    | some v =>
      drain n { r with
        out := r.out ++ [v]
        pending := r.pending.erase r.expected
        expected := uint64 (r.expected + 1) }

def push (r : ReorderBuffer T) (seq : Nat) (val : T) : ReorderBuffer T :=
  let r := if r.initialized then r else { r with expected := seq, initialized := true }
  if seq < r.expected then { r with duplicates := r.duplicates + 1 }
  else
    let r := { r with pending := r.pending.insert seq val }
    let r := { r with maxBuffered := max r.maxBuffered r.pending.entries.length }
    drain r.pending.entries.length r

end ReorderBuffer

/-! ## Two lines -/

structure ABLineArbitrator where
  recovery : GapRecovery := {}
  aFirst : Nat := 0
  bFirst : Nat := 0
  dups : Nat := 0

/-- `true` when the packet is new and forwarded. -/
def ABLineArbitrator.onPacket (a : ABLineArbitrator) (seq : Nat) (fromLineA : Bool) : Bool × ABLineArbitrator :=
  let isNew := !a.recovery.initialized || a.recovery.expected ≤ seq || seq ∈ a.recovery.missing
  if !isNew then (false, { a with dups := a.dups + 1 })
  else
    let a := { a with recovery := a.recovery.observe seq }
    (true, if fromLineA then { a with aFirst := a.aFirst + 1 } else { a with bFirst := a.bFirst + 1 })

inductive Status where
  | ok
  | gap
  | duplicate
  deriving DecidableEq, Repr

structure SequenceTracker where
  expectedSeq : Nat := 0
  received : Nat := 0
  gaps : Nat := 0
  lost : Nat := 0
  duplicates : Nat := 0
  initialized : Bool := false

/-- One message: in order, behind a gap, or a duplicate. -/
def SequenceTracker.observe (t : SequenceTracker) (seq : Nat) : Status × SequenceTracker :=
  if !t.initialized then (.ok, { t with initialized := true, expectedSeq := uint64 (seq + 1), received := t.received + 1 })
  else if seq = t.expectedSeq then
    (.ok, { t with expectedSeq := uint64 (t.expectedSeq + 1), received := t.received + 1 })
  else if t.expectedSeq < seq then
    (.gap, { t with
      gaps := t.gaps + 1
      lost := t.lost + (seq - t.expectedSeq)
      expectedSeq := uint64 (seq + 1)
      received := t.received + 1 })
  else (.duplicate, { t with duplicates := t.duplicates + 1 })

/-- A packet of `count` messages from `packetSeq` on. -/
def SequenceTracker.observePacket (t : SequenceTracker) (packetSeq count : Nat) : Status × SequenceTracker :=
  if !t.initialized then
    (.ok, { t with initialized := true, expectedSeq := uint64 (packetSeq + count), received := t.received + count })
  else if packetSeq = t.expectedSeq then
    (.ok, { t with expectedSeq := uint64 (t.expectedSeq + count), received := t.received + count })
  else if t.expectedSeq < packetSeq then
    (.gap, { t with
      gaps := t.gaps + 1
      lost := t.lost + (packetSeq - t.expectedSeq)
      expectedSeq := uint64 (packetSeq + count)
      received := t.received + count })
  else
    let packetEnd := uint64 (packetSeq + count)
    if packetEnd ≤ t.expectedSeq then (.duplicate, { t with duplicates := t.duplicates + 1 })
    -- a part of the packet is new
    else (.duplicate, { t with
      received := t.received + (packetEnd - t.expectedSeq)
      expectedSeq := packetEnd
      duplicates := t.duplicates + 1 })

inductive Line where
  | a
  | b
  deriving DecidableEq, Repr

inductive Result where
  | fresh
  | duplicate
  | gap
  deriving DecidableEq, Repr

structure ArbitratedReceiver where
  tracker : SequenceTracker := {}
  fromA : Nat := 0
  fromB : Nat := 0
  deduped : Nat := 0

/-- One more packet arrived first on `line`. -/
def ArbitratedReceiver.credit (r : ArbitratedReceiver) : Line → ArbitratedReceiver
  | .a => { r with fromA := r.fromA + 1 }
  | .b => { r with fromB := r.fromB + 1 }

def ArbitratedReceiver.observe (r : ArbitratedReceiver) (line : Line) (packetSeq count : Nat) : Result × ArbitratedReceiver :=
  match r.tracker.observePacket packetSeq count with
  | (.ok, t) => (.fresh, { r with tracker := t }.credit line)
  | (.duplicate, t) => (.duplicate, { r with tracker := t, deduped := r.deduped + 1 })
  | (.gap, t) => (.gap, { r with tracker := t }.credit line)

/-! ## Snapshot and increments -/

structure SnapshotSyncBuffer where
  applied : Bool := false
  snapshotSeq : Nat := 0
  buffered : Finset Nat := ∅
  dropped : Nat := 0

/-- `true` when the caller is to apply the increment now. -/
def SnapshotSyncBuffer.onIncrement (s : SnapshotSyncBuffer) (seq : Nat) : Bool × SnapshotSyncBuffer :=
  if s.applied then (true, s) else (false, { s with buffered := insert seq s.buffered })

/-- The number of increments that are left to replay. -/
def SnapshotSyncBuffer.applySnapshot (s : SnapshotSyncBuffer) (snapSeq : Nat) : Nat × SnapshotSyncBuffer :=
  let kept := s.buffered.filter (snapSeq < ·)
  (kept.card, { s with
    snapshotSeq := snapSeq
    applied := true
    dropped := s.dropped + (s.buffered.filter (· ≤ snapSeq)).card
    buffered := kept })

end HftLab.Multicast
