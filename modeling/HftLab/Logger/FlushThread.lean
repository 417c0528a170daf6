/-
  HftLab.Logger.FlushThread — `TradeLogger` with its flush thread, which writes the buffer to the file span by span (trade_logger.hpp).

  A step is one access to shared memory, with the local work that follows it: the trading thread fills a record, then stores `head_`;
  the flush thread loads `head_`, writes one span, stores `flush_tail_`. In ring mode the trading thread does not wait, so a span that
  is written late has records that are newer than their place; the file is right exactly when no span is (`audit_file_iff`).

  A step that its thread cannot take changes nothing. `returned` is ghost state: each finished call of `log` with what it returned.
-/

import HftLab.Logger.TradeLogger

namespace HftLab.Logger

open Lib List

/-- Where the trading thread stands: in `log`, or waiting for the flush thread in `stop_async_flush`. -/
inductive WriterPc (D : Type) where
  | idle
  | writing (c : Call D)
  | storing (c : Call D) (sequenceNo : Nat)
  | joining

/-- Where the flush thread stands, `last` in the drain after the stop signal; a span from `t` on is written up to `h`. -/
inductive DrainPc where
  | load (last : Bool)
  | span (last : Bool) (t h : Nat)
  | store (last : Bool) (t : Nat)
  | check
  | done
  deriving DecidableEq

structure FlushedLogger (D : Type) where
  buffer : TradeLogger D
  flushTail : Nat := 0
  flushRunning : Bool := false
  flushFile : Bool := false
  file : List (FileItem D) := []
  pc : WriterPc D := .idle
  /-- `flush_thread_`, as long as it can be joined. -/
  flushThread : Option DrainPc := none
  returned : List (Call D × Nat) := []

inductive FlushAction (D : Type) where
  | log (c : Call D)
  | startAsyncFlush (opened : Bool) (wallNs : Int)
  | stopAsyncFlush
  /-- The next step of the trading thread, and of the flush thread. -/
  | producer
  | flusher

/-- The events of the calls of `log` that did not return 0. -/
def accepted {D : Type} (returned : List (Call D × Nat)) : List (TradeEvent D) :=
  returned.filterMap fun x => if x.2 ≠ 0 then some (x.1.event x.2) else none

theorem accepted_concat {D : Type} (returned : List (Call D × Nat)) (c : Call D) (n : Nat) :
    accepted (returned ++ [(c, n)]) = accepted returned ++ if n ≠ 0 then [c.event n] else [] := by
  unfold accepted
  rw [filterMap_append]
  split <;> simp_all

namespace FlushedLogger

variable {D : Type} (s : FlushedLogger D)

def logged : List (TradeEvent D) := accepted s.returned

def log (c : Call D) : FlushedLogger D :=
  match s.pc with
  | .idle => if s.buffer.full then { s with returned := s.returned ++ [(c, 0)] } else { s with pc := .writing c }
  | _ => s

/-- Starting a second thread ends the program. -/
def startAsyncFlush (opened : Bool) (wallNs : Int) : FlushedLogger D :=
  match s.pc, s.flushThread with
  | .idle, none =>
    if opened then
      { s with
        flushFile := true
        file := s.file ++ [.header { createdWallNs := wallNs }]
        flushRunning := true
        flushThread := some (.load false) }
    else { s with flushFile := false }
  | _, _ => s

def stopAsyncFlush : FlushedLogger D :=
  match s.pc, s.flushThread with
  | .idle, some _ => { s with flushRunning := false, pc := .joining }
  | .idle, none => { s with flushFile := false }
  | _, _ => s

def producer : FlushedLogger D :=
  match s.pc with
  | .writing c => { s with buffer := s.buffer.write c, pc := .storing c (s.buffer.sequence + 1) }
  | .storing c sequenceNo => { s with buffer := s.buffer.publish, pc := .idle, returned := s.returned ++ [(c, sequenceNo)] }
  | .joining => if s.flushThread = some .done then { s with flushThread := none, flushFile := false, pc := .idle } else s
  | .idle => s

/-- The records from `t` on that are written at once. -/
def contig (t h : Nat) : Nat := if s.buffer.ringMode then min (s.buffer.maxEvents - s.buffer.slot t) (h - t) else h - t

/-- What is written of them. -/
def chunk (t h : Nat) : List (TradeEvent D) := (List.range (s.contig t h)).map fun i => s.buffer.events (s.buffer.slot t + i)

/-- `flush_loop`, with `drain_to_file` span by span. -/
def flusher : FlushedLogger D :=
  match s.flushThread with
  | some (.load last) =>
    let h := s.buffer.head
    let t := s.flushTail
    { s with flushThread := some (if t ≠ h then .span last t h else if last then .store last t else .check) }
  | some (.span last t h) =>
    let t' := t + s.contig t h
    { s with
      file := s.file ++ (s.chunk t h).map .record
      flushThread := some (if t' ≠ h then .span last t' h else .store last t') }
  | some (.store last t) => { s with flushTail := t, flushThread := some (if last then .done else .check) }
  | some .check => { s with flushThread := some (.load (!s.flushRunning)) }
  | some .done | none => s

def exec : FlushAction D → FlushedLogger D
  | .log c => s.log c
  | .startAsyncFlush opened wallNs => s.startAsyncFlush opened wallNs
  | .stopAsyncFlush => s.stopAsyncFlush
  | .producer => s.producer
  | .flusher => s.flusher

def start (ringMode : Bool) (maxEvents : Nat) (events : Nat → TradeEvent D) : FlushedLogger D :=
  { buffer := { events, maxEvents, ringMode } }

/-- What the file is to hold: the logged events, numbered from 1 on. -/
structure Gapless : Prop where
  records : records s.file = s.logged
  numbers : s.logged.map TradeEvent.sequenceNo = List.range' 1 s.logged.length

/-- The span that is written now has not been written over: no more than `max_events_` records were filled from its start on. -/
def InTime : FlushAction D → Prop
  | .flusher => ∀ last t h, s.flushThread = some (.span last t h) → s.buffer.ringMode = true →
      s.buffer.sequence ≤ t + s.buffer.maxEvents
  | _ => True

/-! ## The invariant -/

/-- The record that is filled but not yet seen by the flush thread. -/
def pending : List (TradeEvent D) :=
  match s.pc with
  | .storing c sequenceNo => [c.event sequenceNo]
  | _ => []

/-- How many records were taken out of the buffer. -/
def position : Nat :=
  match s.flushThread with
  | some (.span _ t _) | some (.store _ t) => t
  | _ => s.flushTail

/-- The flush thread has seen the stop signal. -/
def lastDrain : Bool :=
  match s.flushThread with
  | some (.load last) | some (.span last _ _) | some (.store last _) => last
  | some .done => true
  | some .check | none => false

/-- Up to where the flush thread goes before it loads `head_` again. -/
def goal : Nat :=
  match s.flushThread with
  | some (.span _ _ h) => h
  | _ => s.position

structure Sound : Prop where
  recorded : s.buffer.Recorded (s.logged ++ s.pending)
  head : s.buffer.head = s.logged.length
  cap : 0 < s.buffer.maxEvents
  writing : ∀ c, s.pc = .writing c → s.buffer.full = false
  storing : ∀ c n, s.pc = .storing c n → n ≠ 0
  reached : s.position ≤ s.goal
  ahead : ∀ last t h, s.flushThread = some (.span last t h) → t < h
  goal : s.goal ≤ s.logged.length
  size : (Logger.records s.file).length = s.position
  stopped : s.flushThread.isSome = true → s.flushRunning = false → s.pc = .joining
  last : s.lastDrain = true → s.flushRunning = false
  /-- The last drain goes up to the last record. -/
  final : (∀ last, s.flushThread ≠ some (.load last)) → s.lastDrain = true → s.goal = s.logged.length

variable {s} {s' : FlushedLogger D} {a : FlushAction D} {c : Call D}

theorem start_sound (ringMode : Bool) {maxEvents : Nat} (hcap : 0 < maxEvents) (events : Nat → TradeEvent D) :
    (start ringMode maxEvents events).Sound where
  recorded := TradeLogger.recorded_fresh events maxEvents ringMode
  head := rfl
  cap := hcap
  writing _ h := by cases h
  storing _ _ h := by cases h
  reached := Nat.le_refl _
  ahead _ _ _ h := by cases h
  goal := Nat.le_refl _
  size := rfl
  stopped h := by cases h
  last h := by cases h
  final _ h := by cases h

/-! ## Steps -/

/-- While the trading thread is in a call nothing was stopped. -/
theorem Sound.running (h : s.Sound) (hpc : s.pc ≠ .joining) : s.lastDrain = false := by
  cases hlast : s.lastDrain with
  | false => rfl
  | true =>
    have hsome : s.flushThread.isSome := by
      cases hth : s.flushThread with
      | none =>
        unfold lastDrain at hlast
        rw [hth] at hlast
        cases hlast
      | some _ => rfl
    exact absurd (h.stopped hsome (h.last hlast)) hpc

/-- A call of `log` goes on, and the flush thread is left as it is. -/
theorem Sound.calling (h : s.Sound) (hpc : s.pc ≠ .joining) {buffer : TradeLogger D} {pc : WriterPc D} {returned : List (Call D × Nat)}
    (s' : FlushedLogger D) (hs' : s' = { s with buffer, pc, returned }) (hrecorded : buffer.Recorded (s'.logged ++ s'.pending))
    (hhead : buffer.head = s'.logged.length) (hcap : 0 < buffer.maxEvents) (hwriting : ∀ c, pc = .writing c → buffer.full = false)
    (hstoring : ∀ c n, pc = .storing c n → n ≠ 0) (hlogged : s.logged <+: s'.logged) : s'.Sound := by
  subst hs'
  have hrun := h.running hpc
  exact
    { recorded := hrecorded
      head := hhead
      cap := hcap
      writing := hwriting
      storing := hstoring
      reached := h.reached
      ahead := h.ahead
      goal := h.goal.trans hlogged.length_le
      size := h.size
      stopped := fun hsome hfalse => absurd (h.stopped hsome hfalse) hpc
      last := h.last
      final := fun _ hlast => by
        have hlast : s.lastDrain := hlast
        rw [hrun] at hlast
        cases hlast }

theorem Sound.log (h : s.Sound) (c : Call D) : (s.log c).Sound := by
  unfold FlushedLogger.log
  split
  · rename_i hpc
    have hne : s.pc ≠ .joining := by
      rw [hpc]
      exact nofun
    have hrecorded := h.recorded
    have hpending : s.pending = [] := by simp [pending, hpc]
    rw [hpending, append_nil] at hrecorded
    split
    · have haccepted : accepted (s.returned ++ [(c, 0)]) = s.logged := by
        rw [accepted_concat]
        exact append_nil _
      refine h.calling hne _ rfl ?_ ?_ h.cap (fun _ hw => by rw [hpc] at hw; cases hw) (fun _ _ hw => by rw [hpc] at hw; cases hw) ?_
      · show s.buffer.Recorded (accepted (s.returned ++ [(c, 0)]) ++ s.pending)
        rwa [haccepted, hpending, append_nil]
      · show s.buffer.head = (accepted (s.returned ++ [(c, 0)])).length
        rw [haccepted, h.head]
      · exact haccepted ▸ prefix_rfl
    · rename_i hfull
      refine h.calling hne _ rfl ?_ h.head h.cap (fun _ _ => Bool.eq_false_iff.mpr hfull) (fun _ _ hw => by cases hw) prefix_rfl
      show s.buffer.Recorded (s.logged ++ [])
      rwa [append_nil]
  · exact h

theorem Sound.producer (h : s.Sound) : s.producer.Sound := by
  unfold FlushedLogger.producer
  split
  · rename_i c hpc
    have hne : s.pc ≠ .joining := by
      rw [hpc]
      exact nofun
    have hrecorded := h.recorded
    have hpending : s.pending = [] := by simp [pending, hpc]
    rw [hpending, append_nil] at hrecorded
    have hwrite := hrecorded.write h.head (h.writing c hpc) c
    rw [← hrecorded.sequence] at hwrite
    exact h.calling hne _ rfl hwrite h.head h.cap (fun _ hw => by cases hw)
      (fun _ _ hw => by cases hw; exact Nat.succ_ne_zero _) prefix_rfl
  · rename_i c n hpc
    have hne : s.pc ≠ .joining := by
      rw [hpc]
      exact nofun
    have hrecorded := h.recorded
    have hpending : s.pending = [c.event n] := by simp [pending, hpc]
    rw [hpending] at hrecorded
    have haccepted : accepted (s.returned ++ [(c, n)]) = s.logged ++ [c.event n] := by
      rw [accepted_concat, if_pos (h.storing c n hpc)]
      rfl
    refine h.calling hne _ rfl ?_ ?_ h.cap (fun _ hw => by cases hw) (fun _ _ hw => by cases hw) ?_
    · show s.buffer.publish.Recorded (accepted (s.returned ++ [(c, n)]) ++ [])
      rw [haccepted, append_nil]
      exact { hrecorded with }
    · show s.buffer.head + 1 = (accepted (s.returned ++ [(c, n)])).length
      rw [haccepted, h.head, length_append, length_singleton]
    · show s.logged <+: accepted (s.returned ++ [(c, n)])
      rw [haccepted]
      exact prefix_append _ _
  · rename_i hpc
    split
    · rename_i hth
      have hrecorded := h.recorded
      have hpending : s.pending = [] := by simp [pending, hpc]
      rw [hpending] at hrecorded
      have hgoal := h.goal
      have hsize := h.size
      simp only [FlushedLogger.goal, position, hth] at hgoal hsize
      exact
        { recorded := hrecorded
          head := h.head
          cap := h.cap
          writing := fun _ hw => (by cases hw)
          storing := fun _ _ hw => (by cases hw)
          reached := Nat.le_refl _
          ahead := fun _ _ _ ht => (by cases ht)
          goal := hgoal
          size := hsize
          stopped := fun hsome => (by cases hsome)
          last := fun hl => (by cases hl)
          final := fun _ hl => (by cases hl) }
    · exact h
  · exact h

theorem Sound.startAsyncFlush (h : s.Sound) (opened : Bool) (wallNs : Int) : (s.startAsyncFlush opened wallNs).Sound := by
  unfold FlushedLogger.startAsyncFlush
  split
  · rename_i hpc hth
    have hgoal := h.goal
    have hsize := h.size
    simp only [FlushedLogger.goal, position, hth] at hgoal hsize
    split
    · exact
        { h with
          reached := Nat.le_refl _
          ahead := fun _ _ _ ht => (by cases ht)
          goal := hgoal
          size := by
            show (Logger.records (s.file ++ [.header { createdWallNs := wallNs }])).length = s.flushTail
            rw [LockfreeTradeLogger.records_append]
            simpa [Logger.records] using hsize
          stopped := fun _ hfalse => (by cases hfalse)
          last := fun hl => (by cases hl)
          final := fun _ hl => (by cases hl) }
    · exact { h with }
  · exact h

theorem Sound.stopAsyncFlush (h : s.Sound) : s.stopAsyncFlush.Sound := by
  unfold FlushedLogger.stopAsyncFlush
  split
  · rename_i hpc hth
    have hrecorded := h.recorded
    have hpending : s.pending = [] := by simp [pending, hpc]
    rw [hpending] at hrecorded
    exact
      { h with
        recorded := hrecorded
        writing := fun _ hw => (by cases hw)
        storing := fun _ _ hw => (by cases hw)
        stopped := fun _ _ => rfl
        last := fun _ => rfl }
  · exact { h with }
  · exact h

/-- Where the next span starts, what it writes, and where it ends. -/
theorem Sound.span (h : s.Sound) {last : Bool} {t end_ : Nat} (hth : s.flushThread = some (.span last t end_)) :
    t < end_ ∧ end_ ≤ s.logged.length ∧ 0 < s.contig t end_ ∧ t + s.contig t end_ ≤ end_ := by
  have hahead := h.ahead last t end_ hth
  have hgoal := h.goal
  simp only [FlushedLogger.goal, hth] at hgoal
  have hcap := h.cap
  have hmod := Nat.mod_lt t hcap
  refine ⟨hahead, hgoal, ?_, ?_⟩
  · unfold contig TradeLogger.slot
    split <;> omega
  · unfold contig
    split <;> omega

theorem records_chunk (file : List (FileItem D)) (l : List (TradeEvent D)) :
    Logger.records (file ++ l.map .record) = Logger.records file ++ l := by
  unfold Logger.records
  rw [filterMap_append, filterMap_map]
  congr 1
  exact filterMap_some

/-- The flush thread goes on, and the trading thread is left as it is. -/
theorem Sound.draining (h : s.Sound) {file : List (FileItem D)} {flushTail : Nat} {f : DrainPc} (hsome : s.flushThread.isSome)
    (s' : FlushedLogger D) (hs' : s' = { s with file, flushTail, flushThread := some f }) (hreached : s'.position ≤ s'.goal)
    (hahead : ∀ last t end_, f = .span last t end_ → t < end_) (hgoal : s'.goal ≤ s.logged.length)
    (hsize : (Logger.records file).length = s'.position) (hlast : s'.lastDrain → s.flushRunning = false)
    (hfinal : (∀ last, f ≠ .load last) → s'.lastDrain → s'.goal = s.logged.length) : s'.Sound := by
  subst hs'
  exact
    { recorded := h.recorded
      head := h.head
      cap := h.cap
      writing := h.writing
      storing := h.storing
      reached := hreached
      ahead := fun last t end_ hth => hahead last t end_ (Option.some.inj hth)
      goal := hgoal
      size := hsize
      stopped := fun _ hfalse => h.stopped hsome hfalse
      last := hlast
      final := fun hnot hl => hfinal (fun last hf => hnot last (congrArg some hf)) hl }

theorem Sound.flusher (h : s.Sound) : s.flusher.Sound := by
  have hgoal := h.goal
  have hsize := h.size
  have hlast := h.last
  have hfinal := h.final
  unfold FlushedLogger.flusher
  split
  · rename_i last hth
    simp only [FlushedLogger.goal, position, lastDrain, hth] at hgoal hsize hlast
    have hhead := h.head
    dsimp only
    by_cases hne : s.flushTail ≠ s.buffer.head
    · rw [if_pos hne]
      refine h.draining (by rw [hth]; rfl) _ rfl ?_ ?_ ?_ hsize hlast fun _ _ => hhead
      · show s.flushTail ≤ s.buffer.head
        omega
      · intro last t end_ hf
        cases hf
        omega
      · exact Nat.le_of_eq hhead
    · rw [if_neg hne]
      cases last with
      | true =>
        refine h.draining (by rw [hth]; rfl) _ rfl (Nat.le_refl _) (fun _ _ _ hf => by cases hf) hgoal hsize hlast fun _ _ => ?_
        show s.flushTail = s.logged.length
        omega
      | false =>
        exact h.draining (by rw [hth]; rfl) _ rfl (Nat.le_refl _) (fun _ _ _ hf => by cases hf) hgoal hsize (fun hl => by cases hl)
          fun _ hl => (by cases hl)
  · rename_i last t end_ hth
    obtain ⟨hlt, hend, hpos, hle⟩ := h.span hth
    simp only [FlushedLogger.goal, position, lastDrain, hth] at hsize hlast hfinal
    have hgrown : (Logger.records (s.file ++ (s.chunk t end_).map .record)).length = t + s.contig t end_ := by
      rw [records_chunk, length_append, hsize]
      unfold chunk
      rw [length_map, length_range]
    have hdone : last → end_ = s.logged.length := hfinal fun _ habsurd => (by cases habsurd)
    dsimp only
    by_cases hne : t + s.contig t end_ ≠ end_
    · rw [if_pos hne]
      refine h.draining (by rw [hth]; rfl) _ rfl hle ?_ hend hgrown hlast fun _ hl => hdone hl
      intro last' t' end' hf
      cases hf
      omega
    · rw [if_neg hne]
      have heq : t + s.contig t end_ = end_ := by omega
      refine h.draining (by rw [hth]; rfl) _ rfl (Nat.le_refl _) (fun _ _ _ hf => by cases hf) ?_ hgrown hlast fun _ hl => ?_
      · show t + s.contig t end_ ≤ s.logged.length
        omega
      · show t + s.contig t end_ = s.logged.length
        rw [heq, hdone hl]
  · rename_i last t hth
    simp only [FlushedLogger.goal, position, lastDrain, hth] at hgoal hsize hlast hfinal
    cases last with
    | true =>
      refine h.draining (by rw [hth]; rfl) _ rfl (Nat.le_refl _) (fun _ _ _ hf => by cases hf) hgoal hsize hlast fun _ _ => ?_
      exact hfinal (fun _ habsurd => (by cases habsurd)) rfl
    | false =>
      exact h.draining (by rw [hth]; rfl) _ rfl (Nat.le_refl _) (fun _ _ _ hf => by cases hf) hgoal hsize (fun hl => by cases hl)
        fun _ hl => (by cases hl)
  · rename_i hth
    simp only [FlushedLogger.goal, position, hth] at hgoal hsize
    refine h.draining (by rw [hth]; rfl) _ rfl (Nat.le_refl _) (fun _ _ _ hf => by cases hf) hgoal hsize ?_
      fun hnot _ => absurd rfl (hnot _)
    intro hl
    have hl : (!s.flushRunning) := hl
    simpa using hl
  · exact h
  · exact h

theorem Sound.exec (h : s.Sound) (a : FlushAction D) : (s.exec a).Sound := by
  cases a with
  | log c => exact h.log c
  | startAsyncFlush opened wallNs => exact h.startAsyncFlush opened wallNs
  | stopAsyncFlush => exact h.stopAsyncFlush
  | producer => exact h.producer
  | flusher => exact h.flusher

/-! ## The file -/

/-- What was taken out of the buffer is what was logged. -/
def Right (s : FlushedLogger D) : Prop := Logger.records s.file = s.logged.take s.position

/-- A step writes a span, or it leaves the records of the file and the place where the next goes. -/
theorem exec_cases (s : FlushedLogger D) (a : FlushAction D) :
    (Logger.records (s.exec a).file = Logger.records s.file ∧ (s.exec a).position = s.position ∧ s.logged <+: (s.exec a).logged ∧
      s.InTime a) ∨
    (∃ last t end_, a = .flusher ∧ s.flushThread = some (.span last t end_) ∧
      Logger.records (s.exec a).file = Logger.records s.file ++ s.chunk t end_ ∧
      (s.exec a).position = t + s.contig t end_ ∧ (s.exec a).logged = s.logged) := by
  cases a with
  | log c =>
    left
    show Logger.records (s.log c).file = _ ∧ (s.log c).position = _ ∧ s.logged <+: (s.log c).logged ∧ True
    unfold log
    split
    · split
      · refine ⟨rfl, rfl, ?_, trivial⟩
        show s.logged <+: accepted (s.returned ++ [(c, 0)])
        rw [accepted_concat]
        exact prefix_append _ _
      · exact ⟨rfl, rfl, prefix_rfl, trivial⟩
    · exact ⟨rfl, rfl, prefix_rfl, trivial⟩
  | startAsyncFlush opened wallNs =>
    left
    show Logger.records (s.startAsyncFlush opened wallNs).file = _ ∧ (s.startAsyncFlush opened wallNs).position = _ ∧
      s.logged <+: (s.startAsyncFlush opened wallNs).logged ∧ True
    unfold startAsyncFlush
    split
    · rename_i hpc hth
      split
      · refine ⟨?_, ?_, prefix_rfl, trivial⟩
        · show Logger.records (s.file ++ [.header { createdWallNs := wallNs }]) = _
          rw [LockfreeTradeLogger.records_append]
          simp [Logger.records]
        · simp only [position, hth]
      · exact ⟨rfl, rfl, prefix_rfl, trivial⟩
    · exact ⟨rfl, rfl, prefix_rfl, trivial⟩
  | stopAsyncFlush =>
    left
    show Logger.records s.stopAsyncFlush.file = _ ∧ s.stopAsyncFlush.position = _ ∧ s.logged <+: s.stopAsyncFlush.logged ∧ True
    unfold stopAsyncFlush
    split
    · exact ⟨rfl, rfl, prefix_rfl, trivial⟩
    · exact ⟨rfl, rfl, prefix_rfl, trivial⟩
    · exact ⟨rfl, rfl, prefix_rfl, trivial⟩
  | producer =>
    left
    show Logger.records s.producer.file = _ ∧ s.producer.position = _ ∧ s.logged <+: s.producer.logged ∧ True
    unfold producer
    split
    · exact ⟨rfl, rfl, prefix_rfl, trivial⟩
    · rename_i c n _
      refine ⟨rfl, rfl, ?_, trivial⟩
      show s.logged <+: accepted (s.returned ++ [(c, n)])
      rw [accepted_concat]
      exact prefix_append _ _
    · split
      · rename_i hth
        refine ⟨rfl, ?_, prefix_rfl, trivial⟩
        simp only [position, hth]
      · exact ⟨rfl, rfl, prefix_rfl, trivial⟩
    · exact ⟨rfl, rfl, prefix_rfl, trivial⟩
  | flusher =>
    cases hth : s.flushThread with
    | none =>
      left
      have hsame : s.exec .flusher = s := by
        show s.flusher = s
        unfold flusher
        rw [hth]
      rw [hsame]
      exact ⟨rfl, rfl, prefix_rfl, fun _ _ _ habsurd => by rw [hth] at habsurd; cases habsurd⟩
    | some f =>
      show (Logger.records s.flusher.file = _ ∧ s.flusher.position = _ ∧ s.logged <+: s.flusher.logged ∧ _) ∨ ∃ last t end_,
        _ ∧ _ ∧ Logger.records s.flusher.file = _ ∧ s.flusher.position = _ ∧ s.flusher.logged = _
      unfold flusher
      rw [hth]
      cases f with
      | load last =>
        left
        refine ⟨rfl, ?_, prefix_rfl, fun _ _ _ habsurd => by rw [hth] at habsurd; cases habsurd⟩
        simp only [position, hth]
        by_cases hne : s.flushTail ≠ s.buffer.head
        · rw [if_pos hne]
        · rw [if_neg hne]
          cases last <;> rfl
      | span last t end_ =>
        right
        refine ⟨last, t, end_, rfl, rfl, records_chunk _ _, ?_, rfl⟩
        simp only [position]
        by_cases hne : t + s.contig t end_ ≠ end_
        · rw [if_pos hne]
        · rw [if_neg hne]
      | store last t =>
        left
        refine ⟨rfl, ?_, prefix_rfl, fun _ _ _ habsurd => by rw [hth] at habsurd; cases habsurd⟩
        simp only [position, hth]
        cases last <;> rfl
      | check =>
        left
        refine ⟨rfl, ?_, prefix_rfl, fun _ _ _ habsurd => by rw [hth] at habsurd; cases habsurd⟩
        simp only [position, hth]
      | done =>
        left
        exact ⟨rfl, rfl, prefix_rfl, fun _ _ _ habsurd => by rw [hth] at habsurd; cases habsurd⟩

theorem Sound.contig_slot (h : s.Sound) {t end_ i : Nat} (hi : i < s.contig t end_) :
    s.buffer.slot t + i = s.buffer.slot (t + i) := by
  unfold contig at hi
  unfold TradeLogger.slot at hi ⊢
  cases hr : s.buffer.ringMode with
  | false => simp
  | true =>
    rw [hr] at hi
    simp only [if_true] at hi ⊢
    have hmod := Nat.mod_lt t h.cap
    rw [← Nat.mod_add_mod, Nat.mod_eq_of_lt (a := t % s.buffer.maxEvents + i) (by omega)]

/-- A span has the records that belong there exactly when it is written in time. -/
theorem Sound.chunk_iff (h : s.Sound) {last : Bool} {t end_ : Nat} (hth : s.flushThread = some (.span last t end_)) :
    s.chunk t end_ = (s.logged.drop t).take (s.contig t end_) ↔ s.InTime .flusher := by
  obtain ⟨hlt, hend, hpos, hle⟩ := h.span hth
  have hwritten : ∀ i, i < s.contig t end_ → (s.chunk t end_)[i]? = some (s.buffer.events (s.buffer.slot t + i)) := by
    intro i hi
    unfold chunk
    rw [List.getElem?_map, List.getElem?_range hi, Option.map_some]
  have hlogged : ∀ i, i < s.contig t end_ → ((s.logged.drop t).take (s.contig t end_))[i]? = s.logged[t + i]? := by
    intro i hi
    rw [List.getElem?_take_of_lt hi, List.getElem?_drop]
  have hfresh : ∀ i, i < s.contig t end_ → (some (s.buffer.events (s.buffer.slot t + i)) = s.logged[t + i]? ↔
      (s.buffer.ringMode = true → s.buffer.sequence ≤ t + i + s.buffer.maxEvents)) := by
    intro i hi
    have hlog : t + i < s.logged.length := by omega
    have hin : t + i < (s.logged ++ s.pending).length := by
      rw [length_append]
      omega
    rw [h.recorded.sequence, ← TradeLogger.fresh_iff fun _ => h.cap, ← h.recorded.eq_iff hin, h.contig_slot hi,
      List.getElem?_eq_getElem hlog, Option.some_inj, getElem_append_left hlog]
  constructor
  · intro heq last' t' end' hth'
    rw [hth] at hth'
    cases hth'
    refine (hfresh 0 hpos).mp ?_
    rw [← hwritten 0 hpos, heq, hlogged 0 hpos]
  · intro hin
    apply ext_getElem?
    intro i
    by_cases hi : i < s.contig t end_
    · rw [hwritten i hi, hlogged i hi, hfresh i hi]
      intro hr
      have hfirst := hin last t end_ hth hr
      omega
    · have hlen : (s.chunk t end_).length = s.contig t end_ := by
        unfold chunk
        rw [length_map, length_range]
      rw [List.getElem?_eq_none (by omega), List.getElem?_eq_none (by rw [length_take]; omega)]

theorem Sound.right_iff (h : s.Sound) (hright : s.Right) (a : FlushAction D) : (s.exec a).Right ↔ s.InTime a := by
  have hposition : s.position ≤ s.logged.length := h.reached.trans h.goal
  rcases exec_cases s a with ⟨hrecords, hpos, hlogged, hin⟩ | ⟨last, t, end_, rfl, hth, hrecords, hpos, hlogged⟩
  · refine ⟨fun _ => hin, fun _ => ?_⟩
    obtain ⟨more, hmore⟩ := hlogged
    unfold Right at hright ⊢
    rw [hrecords, hpos, hright, ← hmore, take_append_of_le_length hposition]
  · rw [← h.chunk_iff hth]
    unfold Right at hright ⊢
    have hat : s.position = t := by simp only [position, hth]
    rw [hrecords, hpos, hlogged, hright, hat, take_add, append_cancel_left_eq]

/-- What was once written wrong stays in the file. -/
theorem Sound.right_of_next (h : s.Sound) {a : FlushAction D} (hright : (s.exec a).Right) : s.Right := by
  have hposition : s.position ≤ s.logged.length := h.reached.trans h.goal
  have hsize := h.size
  unfold Right at hright ⊢
  rcases exec_cases s a with ⟨hrecords, hpos, hlogged, -⟩ | ⟨last, t, end_, rfl, hth, hrecords, hpos, hlogged⟩
  · obtain ⟨more, hmore⟩ := hlogged
    rwa [hrecords, hpos, ← hmore, take_append_of_le_length hposition] at hright
  · have hat : s.position = t := by simp only [position, hth]
    rw [hrecords, hpos, hlogged, take_add] at hright
    rw [hat] at hsize hposition ⊢
    exact (append_inj hright (by rw [hsize, length_take]; omega)).1

/-- After the final drain. -/
theorem Sound.drained_iff (h : s.Sound) (hdone : s.flushThread = some .done) : s.Gapless ↔ s.Right := by
  have hlast : s.lastDrain := by simp [lastDrain, hdone]
  have hsome : s.flushThread.isSome := by simp [hdone]
  have hpc := h.stopped hsome (h.last hlast)
  have hpending : s.pending = [] := by simp [pending, hpc]
  have hgoal := h.final (fun last habsurd => by rw [hdone] at habsurd; cases habsurd) hlast
  have hnumbers := h.recorded.numbers
  rw [hpending, append_nil] at hnumbers
  have hposition : s.position = s.logged.length := by
    simp only [FlushedLogger.goal, hdone] at hgoal
    exact hgoal
  unfold Right
  rw [hposition, take_length]
  exact ⟨fun hg => hg.records, fun hr => ⟨hr, hnumbers⟩⟩

/-- Over every run that ends with the final drain of a session. -/
theorem audit_file_iff (ringMode : Bool) {maxEvents : Nat} (hcap : 0 < maxEvents) (events : Nat → TradeEvent D)
    (actions : List (FlushAction D))
    (hdone : (actions.foldl exec (start ringMode maxEvents events)).flushThread = some .done) :
    (actions.foldl exec (start ringMode maxEvents events)).Gapless ↔ EachStep exec InTime (start ringMode maxEvents events) actions := by
  have hstart := start_sound ringMode hcap events
  have hsound : (actions.foldl exec (start ringMode maxEvents events)).Sound :=
    List.foldlRecOn actions exec hstart fun _ hs a _ => hs.exec a
  have hright : (start ringMode maxEvents events).Right := rfl
  rw [hsound.drained_iff hdone, ← EachState.iff_last hstart (fun _ a hs => hs.exec a) fun _ _ hs => hs.right_of_next]
  exact EachStep.true.eachState_iff hstart hright (fun _ a _ hs _ _ => hs.exec a) fun _ a _ hs hr => hs.right_iff hr a

/-- A session in which `n` events are logged before the flush thread gets to run. -/
def sampleSession (n : Nat) : List (FlushAction Nat) :=
  .startAsyncFlush true 0 ::
    (List.range n).flatMap (fun i => [.log { entry := sampleEntry (i + 1), monoNs := i, wallNs := i }, .producer, .producer]) ++
    .stopAsyncFlush :: List.replicate 9 .flusher

theorem audit_file_iff_sample :
    ((sampleSession 2).foldl exec (start true 2 fun _ => (sampleEntry 0).event 0 0 0)).Gapless ↔
      EachStep exec InTime (start true 2 fun _ => (sampleEntry 0).event 0 0 0) (sampleSession 2) :=
  audit_file_iff true (by decide) _ (sampleSession 2) (by decide +kernel)

/-- A ring of two in which three events were logged: the file has the records 3, 2 and 3. -/
theorem ring_lapped : ((sampleSession 3).foldl exec (start true 2 fun _ => (sampleEntry 0).event 0 0 0)).flushThread = some .done ∧
    ¬((sampleSession 3).foldl exec (start true 2 fun _ => (sampleEntry 0).event 0 0 0)).Gapless := by
  have hrun : (((sampleSession 3).foldl exec (start true 2 fun _ => (sampleEntry 0).event 0 0 0)).flushThread,
      (Logger.records ((sampleSession 3).foldl exec (start true 2 fun _ => (sampleEntry 0).event 0 0 0)).file).map TradeEvent.sequenceNo,
      ((sampleSession 3).foldl exec (start true 2 fun _ => (sampleEntry 0).event 0 0 0)).logged.map TradeEvent.sequenceNo) =
      (some .done, [3, 2, 3], [1, 2, 3]) := by decide +kernel
  obtain ⟨hdone, hrest⟩ := Prod.mk.inj hrun
  obtain ⟨hfile, hlogged⟩ := Prod.mk.inj hrest
  refine ⟨hdone, fun h => ?_⟩
  rw [h.records, hlogged] at hfile
  exact absurd hfile (by decide)

end FlushedLogger

end HftLab.Logger
