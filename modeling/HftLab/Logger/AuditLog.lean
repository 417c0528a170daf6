/-
  HftLab.Logger.AuditLog — `LockfreeTradeLogger` (lockfree_logger.hpp): the trading thread logs, starts and stops the flush
  thread, which pops the queue into the file.

  `log` gives the event its number before it knows whether the queue has room, and takes the number back if not. A step
  is one access to shared memory, with the local work that follows it; the threads interleave in any order. `double` is
  a type `D`. `returned` is ghost state: each finished call of `log` with its event and what it returned.

  - `Sound`: in every reachable state the queue is sound, the events in it were numbered 1, 2, ..., and the file holds what
    was popped.
  - `audit_log_complete`: a call is refused only by a full queue, and after the final drain the file holds the events
    that were not refused.
-/

import HftLab.Lib.Int32
import HftLab.Lib.System
import HftLab.Lockfree.Spsc

namespace HftLab.Logger

open Lib List
open HftLab.Lockfree

inductive EventType where
  | orderSubmit
  | riskAccept
  | riskReject
  | orderFill
  | orderPartial
  | orderCancel
  | killSwitch
  | systemStart
  | systemStop
  deriving DecidableEq, Repr

structure TradeEvent (D : Type) where
  monoNs : Int
  wallNs : Int
  sequenceNo : Nat
  orderId : Nat
  price : D
  quantity : Int
  eventType : EventType
  symbol : List UInt8
  side : List UInt8
  details : List UInt8
  deriving DecidableEq, Repr

/-- The arguments of `log`; the strings are C strings without their NUL. -/
structure Entry (D : Type) where
  type : EventType
  orderId : Nat
  symbol : List UInt8
  side : List UInt8
  quantity : Int
  price : D
  details : List UInt8

/-- What `log` builds at the times `monoNs` and `wallNs`. -/
def Entry.event {D : Type} (x : Entry D) (sequenceNo : Nat) (monoNs wallNs : Int) : TradeEvent D :=
  { monoNs, wallNs, sequenceNo, orderId := x.orderId, price := x.price, quantity := x.quantity, eventType := x.type,
    symbol := x.symbol.take 8, side := x.side.take 4, details := x.details.take 68 }

structure FlushFileHeader where
  magic : List UInt8 := [72, 70, 84, 76, 79, 71, 0, 0]
  version : Nat := 1
  recordSize : Nat := 128
  createdWallNs : Int

inductive FileItem (D : Type) where
  | header (h : FlushFileHeader)
  | record (e : TradeEvent D)

/-- The records of a file. -/
def records {D : Type} (file : List (FileItem D)) : List (TradeEvent D) :=
  file.filterMap fun
    | .header _ => none
    | .record e => some e

/-- Where the trading thread stands: in `log`, or waiting for the flush thread in `stop_async_flush`. -/
inductive LogPc (D : Type) where
  | idle
  | pushing (pc : PushPc (TradeEvent D))
  | joining

/-- Where the flush thread stands; `last` in the drain after the stop signal. -/
inductive FlushPc (D : Type) where
  | pop (last : Bool) (pc : PopPc (TradeEvent D))
  | write (last : Bool) (e : TradeEvent D)
  | check
  | done
  deriving DecidableEq

structure LockfreeTradeLogger (D : Type) where
  queue : Spsc (TradeEvent D)
  sequence : Nat := 0
  totalLogged : Nat := 0
  counters : EventType → Int := fun _ => 0
  flushRunning : Bool := false
  flushFile : Bool := false
  file : List (FileItem D) := []
  pc : LogPc D := .idle
  /-- `flush_thread_`, as long as it can be joined. -/
  flushThread : Option (FlushPc D) := none
  returned : List (TradeEvent D × Nat) := []

inductive LogAction (D : Type) where
  | log (x : Entry D) (monoNs wallNs : Int)
  | startAsyncFlush (opened : Bool) (wallNs : Int)
  | stopAsyncFlush
  /-- The next step of the trading thread, and of the flush thread. -/
  | producer
  | flusher

namespace LockfreeTradeLogger

variable {D : Type} (k : Nat) (s : LockfreeTradeLogger D)

/-- The events whose call of `log` did not return 0. -/
def logged : List (TradeEvent D) := s.returned.filterMap fun x => if x.2 ≠ 0 then some x.1 else none

def log (x : Entry D) (monoNs wallNs : Int) : Option (LockfreeTradeLogger D) :=
  match s.pc with
  | .idle =>
    let sequence := s.sequence + 1
    some { s with sequence, pc := .pushing (.loadHead (x.event sequence monoNs wallNs)) }
  | _ => none

/-- The rest of `log` once `push` returned: the number is taken back, or the event is counted. -/
def finishLog (e : TradeEvent D) : Bool → LockfreeTradeLogger D
  | false => { s with sequence := s.sequence - 1, pc := .idle, returned := s.returned ++ [(e, 0)] }
  | true =>
    { s with
      totalLogged := s.totalLogged + 1
      counters := Function.update s.counters e.eventType (i32 (s.counters e.eventType + 1))
      pc := .idle
      returned := s.returned ++ [(e, e.sequenceNo)] }

/-- Starting a second thread ends the program. -/
def startAsyncFlush (opened : Bool) (wallNs : Int) : Option (LockfreeTradeLogger D) :=
  match s.pc, s.flushThread, opened with
  | .idle, none, true =>
    some { s with
      flushFile := true
      file := s.file ++ [.header { createdWallNs := wallNs }]
      flushRunning := true
      flushThread := some (.pop false .loadTail) }
  | .idle, none, false => some { s with flushFile := false }
  | _, _, _ => none

def stopAsyncFlush : Option (LockfreeTradeLogger D) :=
  match s.pc, s.flushThread with
  | .idle, some _ => some { s with flushRunning := false, pc := .joining }
  | .idle, none => some { s with flushFile := false }
  | _, _ => none

def producer : Option (LockfreeTradeLogger D) :=
  match s.pc, s.flushThread with
  | .pushing pc, _ =>
    let s' := { s with queue := (s.queue.push k pc).1 }
    match (s.queue.push k pc).2 with
    | .inl pc => some { s' with pc := .pushing pc }
    | .inr ok => some (s'.finishLog pc.item ok)
  | .joining, some .done => some { s with flushThread := none, flushFile := false, pc := .idle }
  | _, _ => none

/-- `flush_loop`. -/
def flusher : Option (LockfreeTradeLogger D) :=
  match s.flushThread with
  | some (.pop last pc) =>
    let s' := { s with queue := (s.queue.pop k pc).1 }
    match (s.queue.pop k pc).2 with
    | .inl pc => some { s' with flushThread := some (.pop last pc) }
    | .inr (some e) => some { s' with flushThread := some (.write last e) }
    | .inr none => some { s' with flushThread := some (if last then .done else .check) }
  | some (.write last e) => some { s with file := s.file ++ [.record e], flushThread := some (.pop last .loadTail) }
  | some .check => some { s with flushThread := some (.pop (!s.flushRunning) .loadTail) }
  | some .done | none => none

def exec : LogAction D → Option (LockfreeTradeLogger D)
  | .log x monoNs wallNs => s.log x monoNs wallNs
  | .startAsyncFlush opened wallNs => s.startAsyncFlush opened wallNs
  | .stopAsyncFlush => s.stopAsyncFlush
  | .producer => s.producer k
  | .flusher => s.flusher k

def Start (s : LockfreeTradeLogger D) : Prop := ∃ buffer : Nat → TradeEvent D, s = { queue := { buffer } }

def Step (s s' : LockfreeTradeLogger D) : Prop := ∃ a, s.exec k a = some s'

/-! ## The invariant -/

def pushPc : Option (PushPc (TradeEvent D)) :=
  match s.pc with
  | .pushing pc => some pc
  | _ => none

def popPc : Option (PopPc (TradeEvent D)) :=
  match s.flushThread with
  | some (.pop _ pc) => some pc
  | _ => none

/-- What was popped and not yet written. -/
def unwritten : List (TradeEvent D) :=
  match s.flushThread with
  | some (.write _ e) => [e]
  | _ => []

/-- The flush thread has seen the stop signal. -/
def lastDrain : Bool :=
  match s.flushThread with
  | some (.pop last _) | some (.write last _) => last
  | some .done => true
  | some .check | none => false

structure Sound (k : Nat) (s : LockfreeTradeLogger D) : Prop where
  queue : s.queue.Inv k s.pushPc s.popPc
  logged : s.logged = s.queue.pushed
  numbers : s.queue.pushed.map TradeEvent.sequenceNo = List.range' 1 s.queue.pushed.length
  total : s.totalLogged = s.queue.pushed.length
  idle : s.pushPc = none → s.sequence = s.queue.pushed.length
  pushing : ∀ pc, s.pushPc = some pc → s.sequence = s.queue.pushed.length + 1 ∧ pc.item.sequenceNo = s.sequence
  written : records s.file ++ s.unwritten = s.queue.popped
  /-- The stop signal is given by the trading thread, which then waits. -/
  stopped : s.flushThread.isSome = true → s.flushRunning = false → s.pc = .joining
  last : s.lastDrain = true → s.flushRunning = false
  done : s.flushThread = some .done → s.queue.content = []

variable {k : Nat} {s s' : LockfreeTradeLogger D} {e : TradeEvent D} {wallNs : Int} {opened : Bool} {pc : PushPc (TradeEvent D)}

/-! ## Steps -/

theorem start_sound (h : s.Start) : s.Sound k := by
  obtain ⟨buffer, rfl⟩ := h
  exact
    { queue := Spsc.start_inv buffer
      logged := rfl
      numbers := rfl
      total := rfl
      idle := fun _ => rfl
      pushing := fun _ hpc => (by cases hpc)
      written := rfl
      stopped := fun hsome => (by cases hsome)
      last := fun hlast => (by cases hlast)
      done := fun hdone => (by cases hdone) }

theorem logged_refused (s : LockfreeTradeLogger D) (e : TradeEvent D) : (s.finishLog e false).logged = s.logged := by
  simp [logged, finishLog]

theorem logged_accepted (s : LockfreeTradeLogger D) (he : e.sequenceNo ≠ 0) : (s.finishLog e true).logged = s.logged ++ [e] := by
  simp [logged, finishLog, he]

theorem records_append (file : List (FileItem D)) (x : FileItem D) : records (file ++ [x]) = records file ++ records [x] := by
  simp [records]

theorem Sound.log {x : Entry D} {monoNs : Int} (h : s.Sound k) (hs : s.log x monoNs wallNs = some s') : s'.Sound k := by
  cases hpc : s.pc with
  | idle =>
    simp only [LockfreeTradeLogger.log, hpc] at hs
    cases hs
    have hnone : s.pushPc = none := by simp [pushPc, hpc]
    have hq := h.queue
    rw [hnone] at hq
    exact
      { h with
        queue := hq.enterPush _
        idle := fun hpush => (by cases hpush)
        pushing := fun pc hpush => by
          cases hpush
          have hseq := congrArg (· + 1) (h.idle hnone)
          exact ⟨hseq, rfl⟩
        stopped := fun hsome hrun => (by have := h.stopped hsome hrun; rw [hpc] at this; cases this) }
  | pushing pc => simp [LockfreeTradeLogger.log, hpc] at hs
  | joining => simp [LockfreeTradeLogger.log, hpc] at hs

theorem startAsyncFlush_cases (hs : s.startAsyncFlush opened wallNs = some s') :
    s.pc = .idle ∧ s.flushThread = none ∧
      (s' = { s with flushFile := false } ∨
        s' = { s with
          flushFile := true
          file := s.file ++ [.header { createdWallNs := wallNs }]
          flushRunning := true
          flushThread := some (.pop false .loadTail) }) := by
  unfold LockfreeTradeLogger.startAsyncFlush at hs
  split at hs
  · rename_i hpc hth
    exact ⟨hpc, hth, .inr (Option.some.inj hs).symm⟩
  · rename_i hpc hth
    exact ⟨hpc, hth, .inl (Option.some.inj hs).symm⟩
  · cases hs

theorem Sound.startAsyncFlush (h : s.Sound k) (hs : s.startAsyncFlush opened wallNs = some s') : s'.Sound k := by
  obtain ⟨hpc, hth, rfl | rfl⟩ := startAsyncFlush_cases hs
  · exact { h with }
  · have hpop : s.popPc = none := by simp [popPc, hth]
    have hun : s.unwritten = [] := by simp [unwritten, hth]
    have hq := h.queue
    have hw := h.written
    rw [hpop] at hq
    rw [hun, append_nil] at hw
    exact
      { h with
        queue := hq.enterPop
        written := by
          rw [records_append]
          simpa [unwritten, records] using hw
        stopped := fun _ hrun => (by cases hrun)
        last := fun hlast => (by cases hlast)
        done := fun hdone => (by cases hdone) }

theorem stopAsyncFlush_cases (hs : s.stopAsyncFlush = some s') :
    s.pc = .idle ∧ (s' = { s with flushFile := false } ∨ s' = { s with flushRunning := false, pc := .joining }) := by
  unfold LockfreeTradeLogger.stopAsyncFlush at hs
  split at hs
  · rename_i hpc hth
    exact ⟨hpc, .inr (Option.some.inj hs).symm⟩
  · rename_i hpc hth
    exact ⟨hpc, .inl (Option.some.inj hs).symm⟩
  · cases hs

theorem Sound.stopAsyncFlush (h : s.Sound k) (hs : s.stopAsyncFlush = some s') : s'.Sound k := by
  obtain ⟨hpc, rfl | rfl⟩ := stopAsyncFlush_cases hs
  · exact { h with }
  · have hnone : s.pushPc = none := by simp [pushPc, hpc]
    have hq := h.queue
    rw [hnone] at hq
    exact
      { h with
        queue := hq
        idle := fun _ => h.idle hnone
        pushing := fun _ hpush => (by cases hpush)
        stopped := fun _ _ => rfl
        last := fun _ => rfl }

/-- The trading thread waits for the flush thread, which has ended. -/
theorem Sound.join (h : s.Sound k) (hth : s.flushThread = some .done) :
    ({ s with flushThread := none, flushFile := false, pc := .idle } : LockfreeTradeLogger D).Sound k := by
  have hlast := h.last (by simp [lastDrain, hth])
  have hpc := h.stopped (by simp [hth]) hlast
  have hnone : s.pushPc = none := by simp [pushPc, hpc]
  have hq := h.queue
  have hw := h.written
  rw [hnone, show s.popPc = none by simp [popPc, hth]] at hq
  rw [show s.unwritten = [] by simp [unwritten, hth]] at hw
  exact
    { h with
      queue := hq
      idle := fun _ => h.idle hnone
      pushing := fun _ hpush => (by cases hpush)
      written := hw
      stopped := fun hsome => (by cases hsome)
      last := fun hl => (by cases hl)
      done := fun hd => (by cases hd) }

theorem producer_cases (hs : s.producer k = some s') :
    (∃ pc pc', s.pc = .pushing pc ∧ (s.queue.push k pc).2 = .inl pc' ∧
      s' = { s with queue := (s.queue.push k pc).1, pc := .pushing pc' }) ∨
    (∃ pc ok, s.pc = .pushing pc ∧ (s.queue.push k pc).2 = .inr ok ∧
      s' = ({ s with queue := (s.queue.push k pc).1 } : LockfreeTradeLogger D).finishLog pc.item ok) ∨
    (s.pc = .joining ∧ s.flushThread = some .done ∧ s' = { s with flushThread := none, flushFile := false, pc := .idle }) := by
  unfold LockfreeTradeLogger.producer at hs
  split at hs
  · rename_i pc hpc
    split at hs
    · rename_i pc' hr
      exact .inl ⟨pc, pc', hpc, hr, (Option.some.inj hs).symm⟩
    · rename_i ok hr
      exact .inr (.inl ⟨pc, ok, hpc, hr, (Option.some.inj hs).symm⟩)
  · rename_i hpc hth
    exact .inr (.inr ⟨hpc, hth, (Option.some.inj hs).symm⟩)
  · cases hs

theorem flusher_cases (hs : s.flusher k = some s') :
    (∃ last pc pc', s.flushThread = some (.pop last pc) ∧ (s.queue.pop k pc).2 = .inl pc' ∧
      s' = { s with queue := (s.queue.pop k pc).1, flushThread := some (.pop last pc') }) ∨
    (∃ last pc e, s.flushThread = some (.pop last pc) ∧ (s.queue.pop k pc).2 = .inr (some e) ∧
      s' = { s with queue := (s.queue.pop k pc).1, flushThread := some (.write last e) }) ∨
    (∃ last pc, s.flushThread = some (.pop last pc) ∧ (s.queue.pop k pc).2 = .inr none ∧
      s' = { s with queue := (s.queue.pop k pc).1, flushThread := some (if last then .done else .check) }) ∨
    (∃ last e, s.flushThread = some (.write last e) ∧
      s' = { s with file := s.file ++ [.record e], flushThread := some (.pop last .loadTail) }) ∨
    (s.flushThread = some .check ∧ s' = { s with flushThread := some (.pop (!s.flushRunning) .loadTail) }) := by
  unfold LockfreeTradeLogger.flusher at hs
  split at hs
  · rename_i last pc hth
    split at hs
    · rename_i pc' hr
      exact .inl ⟨last, pc, pc', hth, hr, (Option.some.inj hs).symm⟩
    · rename_i e hr
      exact .inr (.inl ⟨last, pc, e, hth, hr, (Option.some.inj hs).symm⟩)
    · rename_i hr
      exact .inr (.inr (.inl ⟨last, pc, hth, hr, (Option.some.inj hs).symm⟩))
  · rename_i last e hth
    exact .inr (.inr (.inr (.inl ⟨last, e, hth, (Option.some.inj hs).symm⟩)))
  · rename_i hth
    exact .inr (.inr (.inr (.inr ⟨hth, (Option.some.inj hs).symm⟩)))
  · cases hs
  · cases hs

/-- While the trading thread is in `push` nothing was stopped. -/
theorem Sound.running (h : s.Sound k) (hpc : s.pc = .pushing pc) (h1 : s.flushThread.isSome) : s.flushRunning := by
  by_contra hrun
  have := h.stopped h1 (Bool.eq_false_iff.mpr hrun)
  rw [hpc] at this
  cases this

theorem Sound.not_done (h : s.Sound k) (hpc : s.pc = .pushing pc) : s.flushThread ≠ some .done := by
  intro hd
  have h1 := h.running hpc (by simp [hd])
  rw [h.last (by simp [lastDrain, hd])] at h1
  cases h1

/-- The call of `push` goes on. -/
theorem Sound.pushing_on {pc' : PushPc (TradeEvent D)} (h : s.Sound k) (hpc : s.pc = .pushing pc)
    (hr : (s.queue.push k pc).2 = .inl pc') :
    ({ s with queue := (s.queue.push k pc).1, pc := .pushing pc' } : LockfreeTradeLogger D).Sound k := by
  have hpush : s.pushPc = some pc := by simp [pushPc, hpc]
  have hq := h.queue
  rw [hpush] at hq
  have hstep := hq.push
  rw [hr] at hstep
  obtain ⟨hpushed, hpopped, hitem⟩ := Spsc.push_goes_on hr
  exact
    { queue := hstep
      logged := h.logged.trans hpushed.symm
      numbers := by rw [hpushed]; exact h.numbers
      total := h.total.trans (congrArg _ hpushed.symm)
      idle := fun hp => (by cases hp)
      pushing := fun pc'' hp => by
        cases hp
        rw [hpushed, hitem]
        exact h.pushing pc hpush
      written := h.written.trans hpopped.symm
      stopped := fun h1 h2 => (by rw [h.running hpc h1] at h2; cases h2)
      last := h.last
      done := fun hd => (h.not_done hpc hd).elim }

/-- The call of `push` returns, and `log` with it. -/
theorem Sound.push_done {ok : Bool} (h : s.Sound k) (hpc : s.pc = .pushing pc) (hr : (s.queue.push k pc).2 = .inr ok) :
    (({ s with queue := (s.queue.push k pc).1 } : LockfreeTradeLogger D).finishLog pc.item ok).Sound k := by
  have hpush : s.pushPc = some pc := by simp [pushPc, hpc]
  have hq := h.queue
  rw [hpush] at hq
  have hstep := hq.push
  rw [hr] at hstep
  obtain ⟨hseq, hno⟩ := h.pushing pc hpush
  obtain ⟨hpushed, hpopped⟩ := Spsc.push_returns hr
  have hrun : s.flushThread.isSome → s.flushRunning = false → s.pc = .joining := fun h1 h2 =>
    (by rw [h.running hpc h1] at h2; cases h2)
  cases ok with
  | false =>
    rw [if_neg Bool.false_ne_true, append_nil] at hpushed
    exact
      { queue := hstep
        logged := by rw [logged_refused]; exact h.logged.trans hpushed.symm
        numbers := by
          show (s.queue.push k pc).1.pushed.map _ = List.range' 1 (s.queue.push k pc).1.pushed.length
          rw [hpushed]
          exact h.numbers
        total := h.total.trans (congrArg _ hpushed.symm)
        idle := fun _ => by
          show s.sequence - 1 = (s.queue.push k pc).1.pushed.length
          rw [hpushed, hseq, Nat.add_sub_cancel]
        pushing := fun _ hp => (by cases hp)
        written := h.written.trans hpopped.symm
        stopped := fun h1 h2 => (by have := hrun h1 h2; rw [hpc] at this; cases this)
        last := h.last
        done := fun hd => (h.not_done hpc hd).elim }
  | true =>
    rw [if_pos rfl] at hpushed
    have hne : pc.item.sequenceNo ≠ 0 := by omega
    have hlen : (s.queue.pushed ++ [pc.item]).length = s.queue.pushed.length + 1 := by simp
    exact
      { queue := hstep
        logged := by
          rw [logged_accepted _ hne]
          show s.logged ++ [pc.item] = (s.queue.push k pc).1.pushed
          rw [hpushed, h.logged]
        numbers := by
          show (s.queue.push k pc).1.pushed.map _ = List.range' 1 (s.queue.push k pc).1.pushed.length
          rw [hpushed, hlen, range'_concat, map_append, h.numbers, map_singleton, hno, hseq, Nat.one_mul,
            Nat.add_comm 1]
        total := by
          show s.totalLogged + 1 = (s.queue.push k pc).1.pushed.length
          rw [hpushed, hlen, h.total]
        idle := fun _ => by
          show s.sequence = (s.queue.push k pc).1.pushed.length
          rw [hpushed, hlen, hseq]
        pushing := fun _ hp => (by cases hp)
        written := h.written.trans hpopped.symm
        stopped := fun h1 h2 => (by have := hrun h1 h2; rw [hpc] at this; cases this)
        last := h.last
        done := fun hd => (h.not_done hpc hd).elim }

theorem Sound.producer (h : s.Sound k) (hs : s.producer k = some s') : s'.Sound k := by
  rcases producer_cases hs with ⟨pc, pc', hpc, hr, rfl⟩ | ⟨pc, ok, hpc, hr, rfl⟩ | ⟨hpc, hth, rfl⟩
  · exact h.pushing_on hpc hr
  · exact h.push_done hpc hr
  · exact h.join hth

/-- A step of `pop` in the flush thread, with what the thread does next. -/
theorem Sound.popping {last : Bool} {pc : PopPc (TradeEvent D)} {f : FlushPc D} (h : s.Sound k)
    (hth : s.flushThread = some (.pop last pc)) (s' : LockfreeTradeLogger D)
    (hs' : s' = { s with queue := (s.queue.pop k pc).1, flushThread := some f })
    (hpop : s'.popPc = Spsc.resume (s.queue.pop k pc).2) (hpopped : (s.queue.pop k pc).1.popped = s.queue.popped ++ s'.unwritten)
    (hpushed : (s.queue.pop k pc).1.pushed = s.queue.pushed) (hlast : s'.lastDrain → last)
    (hdone : f = .done → (s.queue.pop k pc).1.content = []) : s'.Sound k := by
  subst hs'
  have hq := h.queue
  rw [show s.popPc = some pc by simp [popPc, hth]] at hq
  have hstep := hq.pop
  have hw := h.written
  rw [show s.unwritten = [] by simp [unwritten, hth], append_nil] at hw
  exact
    { queue := by rw [hpop]; exact hstep
      logged := h.logged.trans hpushed.symm
      numbers := by rw [hpushed]; exact h.numbers
      total := h.total.trans (congrArg _ hpushed.symm)
      idle := fun hp => (h.idle hp).trans (congrArg _ hpushed.symm)
      pushing := fun pc' hp => by rw [hpushed]; exact h.pushing pc' hp
      written := by rw [hpopped]; exact congrArg (· ++ _) hw
      stopped := fun _ h2 => h.stopped (by simp [hth]) h2
      last := fun hl => h.last (by simp [lastDrain, hth, hlast hl])
      done := fun hd => hdone (Option.some.inj hd) }

theorem Sound.flusher (h : s.Sound k) (hs : s.flusher k = some s') : s'.Sound k := by
  rcases flusher_cases hs with ⟨last, pc, pc', hth, hr, rfl⟩ | ⟨last, pc, e, hth, hr, rfl⟩ | ⟨last, pc, hth, hr, rfl⟩ |
    ⟨last, e, hth, rfl⟩ | ⟨hth, rfl⟩
  · obtain ⟨hpushed, hpopped⟩ := Spsc.pop_goes_on hr
    exact h.popping hth _ rfl (by rw [hr]; rfl) (by rw [hpopped]; exact (append_nil _).symm) hpushed id fun hf => (by cases hf)
  · obtain ⟨hpushed, hpopped⟩ := Spsc.pop_returns hr
    exact h.popping hth _ rfl (by rw [hr]; rfl) hpopped hpushed id fun hf => (by cases hf)
  · obtain ⟨hpushed, hpopped⟩ := Spsc.pop_returns hr
    have hq := h.queue
    rw [show s.popPc = some pc by simp [popPc, hth]] at hq
    have hempty : (s.queue.pop k pc).1.content = [] := by
      have hc := hq.drained hr
      unfold Spsc.content at hc ⊢
      rw [hpushed, hpopped, Option.toList_none, append_nil, hc]
    cases last with
    | false => exact h.popping hth _ rfl (by rw [hr]; rfl) hpopped hpushed id fun hf => (by cases hf)
    | true => exact h.popping hth _ rfl (by rw [hr]; rfl) hpopped hpushed (fun _ => rfl) fun _ => hempty
  · have hq := h.queue
    have hw := h.written
    rw [show s.popPc = none by simp [popPc, hth]] at hq
    rw [show s.unwritten = [e] by simp [unwritten, hth]] at hw
    exact
      { h with
        queue := hq.enterPop
        written := by
          rw [records_append]
          exact (append_nil _).trans hw
        stopped := fun _ h2 => h.stopped (by simp [hth]) h2
        last := fun hl => h.last (by simp [lastDrain, hth]; exact hl)
        done := fun hd => (by cases hd) }
  · have hq := h.queue
    have hw := h.written
    rw [show s.popPc = none by simp [popPc, hth]] at hq
    rw [show s.unwritten = [] by simp [unwritten, hth]] at hw
    exact
      { h with
        queue := hq.enterPop
        written := hw
        stopped := fun _ h2 => h.stopped (by simp [hth]) h2
        last := fun hl => (by simpa [lastDrain] using hl)
        done := fun hd => (by cases hd) }

theorem Sound.step (h : s.Sound k) (hs : Step k s s') : s'.Sound k := by
  obtain ⟨a, ha⟩ := hs
  cases a with
  | log x monoNs wallNs => exact h.log ha
  | startAsyncFlush opened wallNs => exact h.startAsyncFlush ha
  | stopAsyncFlush => exact h.stopAsyncFlush ha
  | producer => exact h.producer ha
  | flusher => exact h.flusher ha

/-! ## Completeness -/

/-- The queue is a FIFO of `CAPACITY - 1` items whose slots are kept until they are read; a call of `log` that returns
    0 loads `tail_` of a full queue; and what the file holds once the flush thread is done. -/
structure Complete (k : Nat) (s : LockfreeTradeLogger D) : Prop where
  fifo : s.queue.pushed = s.queue.popped ++ s.queue.content
  bounded : s.queue.content.length ≤ Spsc.SIZE k - 1
  unread : RingHolds s.queue.buffer (Spsc.SIZE k) s.queue.tail s.queue.content
  refused : ∀ s' e, s.producer k = some s' → s'.returned = s.returned ++ [(e, 0)] →
    (∃ h next, s.pc = .pushing (.loadTail e h next)) ∧ s.queue.content.length = Spsc.SIZE k - 1
  drained : s.flushThread = some .done →
    records s.file = s.logged ∧ s.logged.map TradeEvent.sequenceNo = List.range' 1 s.logged.length ∧
      s.totalLogged = s.logged.length ∧ s.sequence = s.logged.length

theorem returned_append {e' : TradeEvent D} {n : Nat} {l : List (TradeEvent D × Nat)} (h : l ++ [(e, n)] = l ++ [(e', 0)]) :
    e = e' ∧ n = 0 := by
  have := append_cancel_left h
  simpa using this

theorem push_refused {q : Spsc (TradeEvent D)} (hr : (q.push k pc).2 = .inr false) : ∃ h next, pc = .loadTail pc.item h next := by
  cases pc with
  | loadHead item => cases hr
  | loadTail item h next => exact ⟨h, next, rfl⟩
  | copy item h next => cases hr
  | store item next => cases hr

theorem Sound.refused (h : s.Sound k) (hs : s.producer k = some s') (he : s'.returned = s.returned ++ [(e, 0)]) :
    (∃ i next, s.pc = .pushing (.loadTail e i next)) ∧ s.queue.content.length = Spsc.SIZE k - 1 := by
  have hgrows : s.returned ≠ s.returned ++ [(e, 0)] := fun hc => by simpa using congrArg List.length hc
  rcases producer_cases hs with ⟨pc, pc', hpc, hr, rfl⟩ | ⟨pc, ok, hpc, hr, rfl⟩ | ⟨hpc, hth, rfl⟩
  · exact (hgrows he).elim
  · have hpush : s.pushPc = some pc := by simp [pushPc, hpc]
    have hq := h.queue
    rw [hpush] at hq
    cases ok with
    | false =>
      obtain ⟨rfl, -⟩ := returned_append he
      obtain ⟨i, next, hpc'⟩ := push_refused hr
      have hfull := hq.refused hr
      exact ⟨⟨i, next, hpc.trans (congrArg _ hpc')⟩, by omega⟩
    | true =>
      obtain ⟨-, hzero⟩ := returned_append he
      have := h.pushing pc hpush
      omega
  · exact (hgrows he).elim

theorem Sound.drained (h : s.Sound k) (hth : s.flushThread = some .done) :
    records s.file = s.logged ∧ s.logged.map TradeEvent.sequenceNo = List.range' 1 s.logged.length ∧
      s.totalLogged = s.logged.length ∧ s.sequence = s.logged.length := by
  have hpc := h.stopped (by simp [hth]) (h.last (by simp [lastDrain, hth]))
  have hw := h.written
  have horder := h.queue.order
  rw [show s.unwritten = [] by simp [unwritten, hth], append_nil] at hw
  rw [h.done hth, append_nil] at horder
  rw [h.logged]
  exact ⟨hw.trans horder.symm, h.numbers, h.total, h.idle (by simp [pushPc, hpc])⟩

theorem Sound.complete (h : s.Sound k) : s.Complete k where
  fifo := h.queue.order
  bounded := by
    have := h.queue.room
    omega
  unread := h.queue.holds
  refused := fun _ _ hs he => h.refused hs he
  drained := h.drained

end LockfreeTradeLogger

/-- In every interleaving of the trading thread and the flush thread, over any number of sessions. -/
theorem audit_log_complete {D : Type} (k : Nat) {s : LockfreeTradeLogger D}
    (h : Reachable LockfreeTradeLogger.Start (LockfreeTradeLogger.Step k) s) : s.Complete k :=
  (h.invariant (fun _ hs => LockfreeTradeLogger.start_sound hs)
    fun _ _ hs hstep => hs.step hstep).complete

def sampleEntry (orderId : Nat) : Entry Nat :=
  { type := .orderFill, orderId, symbol := [65], side := [66], quantity := 5, price := 100, details := [] }

/-- Two slots: the second call meets a full queue. -/
def sampleActions : List (LogAction Nat) :=
  [.startAsyncFlush true 0, .log (sampleEntry 7) 1 1, .producer, .producer, .producer, .producer,
    .log (sampleEntry 8) 2 2, .producer, .producer, .stopAsyncFlush] ++ List.replicate 10 .flusher

theorem audit_log_complete_sample : ∃ s : LockfreeTradeLogger Nat, s.flushThread = some .done ∧
    (records s.file).map TradeEvent.orderId = [7] ∧ s.returned.map Prod.snd = [1, 0] ∧ s.Complete 1 := by
  have hrun : (runEvents (LockfreeTradeLogger.exec 1) sampleActions
      { queue := { buffer := fun _ => (sampleEntry 0).event 0 0 0 } }).map (fun s =>
        (s.flushThread, (records s.file).map TradeEvent.orderId, s.returned.map Prod.snd)) = some (some .done, [7], [1, 0]) := by
    decide +kernel
  obtain ⟨s, hs, hval⟩ := Option.map_eq_some_iff.mp hrun
  obtain ⟨hdone, hrest⟩ := Prod.mk.inj hval
  obtain ⟨hfile, hreturned⟩ := Prod.mk.inj hrest
  exact ⟨s, hdone, hfile, hreturned,
    audit_log_complete 1 (.run (fun _ a _ h => ⟨a, h⟩) sampleActions (.start ⟨_, rfl⟩) hs)⟩

end HftLab.Logger
