/-
  HftLab.Lockfree.Mpmc — the queue of many producers and many consumers (mpmc_queue.hpp), thread by thread.

  Each access to memory that threads share is one step: the load of `head_` or `tail_`, the load of a cell's `seq`, the
  CAS, the copy of the data, the store of `seq`. The steps of all threads interleave in any order, and memory is
  sequentially consistent. `compare_exchange_weak` may fail for no reason; a failure loads the counter anew.

  Counters are `size_t` and wrap. `claims`, `pushes` and `pops` are ghost state: what was claimed at each position, and
  the position and value of each push and each pop that returned true.
-/

import HftLab.Lib.Int32
import HftLab.Lib.Ring
import HftLab.Lib.System
import Mathlib.Order.Interval.Finset.Nat

namespace HftLab.Lockfree

open Lib

structure Cell (T : Type) where
  seq : Nat
  data : T

/-- Where a thread stands in `push` or `pop`, with its local variables. -/
inductive Pc (T : Type) where
  | idle
  | pushLoad (item : T)
  | pushSeq (item : T) (pos : Nat)
  | pushCas (item : T) (pos : Nat)
  | pushData (item : T) (pos : Nat)
  | pushStore (item : T) (pos : Nat)
  | popLoad
  | popSeq (pos : Nat)
  | popCas (pos : Nat)
  | popData (pos : Nat)
  | popStore (pos : Nat) (out : T)

/-- The position that a thread claimed for its push and did not publish yet, with its item. -/
def Pc.writes {T : Type} : Pc T → Option (Nat × T)
  | .pushData item pos | .pushStore item pos => some (pos, item)
  | _ => none

/-- The position that a thread claimed for its pop and did not free yet. -/
def Pc.reads {T : Type} : Pc T → Option Nat
  | .popData pos | .popStore pos _ => some pos
  | _ => none

structure Mpmc (T Θ : Type) where
  cells : Nat → Cell T
  head : Nat := 0
  tail : Nat := 0
  pc : Θ → Pc T := fun _ => .idle
  claims : List T := []
  pushes : List (Nat × T) := []
  pops : List (Nat × T) := []

inductive MpmcEvent (T Θ : Type) where
  | push (t : Θ) (item : T)
  | pop (t : Θ)
  /-- The thread's next step; `spurious` tells a CAS to fail. -/
  | step (t : Θ) (spurious : Bool)

namespace Mpmc

variable {T Θ : Type} [DecidableEq Θ] (k : Nat) (s : Mpmc T Θ)

/-- The number of cells; `k` is its logarithm. -/
def SIZE : Nat := 2 ^ k

def MASK : Nat := SIZE k - 1

def cellIndex (pos : Nat) : Nat := pos &&& MASK k

/-- `static_cast<intptr_t>(seq) - static_cast<intptr_t>(pos)`. -/
def seqDiff (seq pos : Nat) : Int := i64 (i64 seq - i64 pos)

def seqAt (pos : Nat) : Nat := (s.cells (cellIndex k pos)).seq

def dataAt (pos : Nat) : T := (s.cells (cellIndex k pos)).data

def setSeq (pos seq : Nat) : Mpmc T Θ :=
  { s with cells := Function.update s.cells (cellIndex k pos) { s.cells (cellIndex k pos) with seq } }

def setData (pos : Nat) (data : T) : Mpmc T Θ :=
  { s with cells := Function.update s.cells (cellIndex k pos) { s.cells (cellIndex k pos) with data } }

def setPc (t : Θ) (pc : Pc T) : Mpmc T Θ := { s with pc := Function.update s.pc t pc }

/-- The next step of thread `t`. -/
def advance (t : Θ) (spurious : Bool) : Option (Mpmc T Θ) :=
  match s.pc t with
  | .idle => none
  | .pushLoad item => some (s.setPc t (.pushSeq item s.head))
  | .pushSeq item pos =>
    let diff := seqDiff (s.seqAt k pos) pos
    if diff = 0 then some (s.setPc t (.pushCas item pos))
    else if diff < 0 then some (s.setPc t .idle)
    else some (s.setPc t (.pushLoad item))
  | .pushCas item pos =>
    if s.head = pos ∧ !spurious then
      some { s.setPc t (.pushData item pos) with head := uint64 (pos + 1), claims := s.claims ++ [item] }
    else some (s.setPc t (.pushSeq item s.head))
  | .pushData item pos => some ((s.setData k pos item).setPc t (.pushStore item pos))
  | .pushStore item pos =>
    some { (s.setSeq k pos (uint64 (pos + 1))).setPc t .idle with pushes := (pos, item) :: s.pushes }
  | .popLoad => some (s.setPc t (.popSeq s.tail))
  | .popSeq pos =>
    let diff := seqDiff (s.seqAt k pos) (uint64 (pos + 1))
    if diff = 0 then some (s.setPc t (.popCas pos))
    else if diff < 0 then some (s.setPc t .idle)
    else some (s.setPc t .popLoad)
  | .popCas pos =>
    if s.tail = pos ∧ !spurious then some { s.setPc t (.popData pos) with tail := uint64 (pos + 1) }
    else some (s.setPc t (.popSeq s.tail))
  | .popData pos => some (s.setPc t (.popStore pos (s.dataAt k pos)))
  | .popStore pos out =>
    some { (s.setSeq k pos (uint64 (pos + SIZE k))).setPc t .idle with pops := (pos, out) :: s.pops }

def exec : MpmcEvent T Θ → Option (Mpmc T Θ)
  | .push t item =>
    match s.pc t with
    | .idle => some (s.setPc t (.pushLoad item))
    | _ => none
  | .pop t =>
    match s.pc t with
    | .idle => some (s.setPc t .popLoad)
    | _ => none
  | .step t spurious => s.advance k t spurious

/-- After the constructor: each cell's `seq` is its index. -/
def Start (s : Mpmc T Θ) : Prop := ∃ data : Nat → T, s = { cells := fun i => ⟨i, data i⟩ }

/-- Counters are below 2^63. -/
structure InRange : Prop where
  head : s.head < 9223372036854775808
  tail : s.tail < 9223372036854775808
  seq : ∀ i < SIZE k, (s.cells i).seq < 9223372036854775808

instance : Decidable (s.InRange k) :=
  decidable_of_iff (s.head < 9223372036854775808 ∧ s.tail < 9223372036854775808 ∧
      ∀ i < SIZE k, (s.cells i).seq < 9223372036854775808)
    ⟨fun h => ⟨h.1, h.2.1, h.2.2⟩, fun h => ⟨h.head, h.tail, h.seq⟩⟩

/-- A step of a run whose counters stay below 2^63. -/
def Step (s s' : Mpmc T Θ) : Prop := (∃ e, s.exec k e = some s') ∧ s'.InRange k

def writes (t : Θ) : Option (Nat × T) := (s.pc t).writes

def reads (t : Θ) : Option Nat := (s.pc t).reads

/-- Positions that were claimed and whose value no pop returned yet. -/
def held : Finset Nat := (Finset.range s.head).filter fun p => p ∉ s.pops.map Prod.fst

end Mpmc

end HftLab.Lockfree
