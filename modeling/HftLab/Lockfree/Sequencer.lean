/-
  HftLab.Lockfree.Sequencer — the ring of one producer and many consumers (sequencer.hpp) and its users' protocol.

  Every access to shared memory is one step. The producer claims a sequence, writes its slot, as often as it likes, and
  publishes in claim order. A consumer loads `available()` and reads its next sequences up to it. The aggregator looks
  at the consumers one after the other, each whenever it likes, and marks the least sequence it knows to be read by all.
  Sequences are unbounded. `written` and `reads` are ghost state: what the producer wrote for a sequence, and what the
  consumers read.
-/

import HftLab.Lib.Ring
import HftLab.Lib.System
import Mathlib.Order.ConditionallyCompleteLattice.Basic
import Mathlib.Data.Int.ConditionallyCompleteOrder
import Mathlib.Data.Int.Interval

namespace HftLab.Lockfree

open Lib Function

/-! ## The ring -/

structure Sequencer (T : Type) where
  buffer : Nat → T
  cursor : Int := -1
  gating : Int := -1
  nextSeq : Int := 0

namespace Sequencer

variable {T : Type} (SIZE : Nat) (q : Sequencer T)

/-- `seq & MASK`, where `SIZE` is a power of two. -/
def index (seq : Int) : Nat := (seq % SIZE).toNat

def tryClaim : Int × Sequencer T :=
  let seq := q.nextSeq
  let wrapMin := seq - SIZE
  if q.gating < wrapMin then (-1, q) else (seq, { q with nextSeq := seq + 1 })

/-- `slot(seq) = data`. -/
def setSlot (seq : Int) (data : T) : Sequencer T := { q with buffer := Function.update q.buffer (index SIZE seq) data }

def publish (seq : Int) : Sequencer T := { q with cursor := seq }

def available : Int := q.cursor

def read (seq : Int) : T := q.buffer (index SIZE seq)

def markConsumed (seq : Int) : Sequencer T := { q with gating := seq }

end Sequencer

/-! ## The protocol -/

structure SeqSystem (T : Type) (n : Nat) where
  q : Sequencer T
  written : Int → Option T := fun _ => none
  /-- The next sequence of each consumer, the last one it knows to be published. -/
  next : Fin n → Int := fun _ => 0
  hi : Fin n → Int := fun _ => -1
  /-- What the aggregator knows each consumer to have read. -/
  seen : Fin n → Int := fun _ => -1
  reads : List (Int × T) := []

inductive SeqEvent (T : Type) (n : Nat) where
  | claim
  | write (seq : Int) (data : T)
  | publish (seq : Int)
  | load (c : Fin n)
  | read (c : Fin n)
  | collect (c : Fin n)
  | mark (m : Int)

namespace SeqSystem

variable {T : Type} {n : Nat} (SIZE : Nat) (s : SeqSystem T n)

/-- Every sequence from the one after the cursor up to `seq` was written. -/
def filled (seq : Int) : Bool :=
  (List.range (seq - s.q.cursor).toNat).all fun j => (s.written (s.q.cursor + 1 + j)).isSome

def exec : SeqEvent T n → Option (SeqSystem T n)
  | .claim => some { s with q := (s.q.tryClaim SIZE).2 }
  | .write seq data =>
    if s.q.cursor < seq ∧ seq < s.q.nextSeq then
      some { s with q := s.q.setSlot SIZE seq data, written := Function.update s.written seq (some data) }
    else none
  | .publish seq =>
    if s.q.cursor < seq ∧ seq < s.q.nextSeq ∧ s.filled seq then
      some { s with q := s.q.publish seq }
    else none
  | .load c => some { s with hi := Function.update s.hi c s.q.available }
  | .read c =>
    if s.next c ≤ s.hi c then
      some { s with
        next := Function.update s.next c (s.next c + 1)
        reads := (s.next c, s.q.read SIZE (s.next c)) :: s.reads }
    else none
  | .collect c => some { s with seen := Function.update s.seen c (s.next c - 1) }
  | .mark m => if (∃ c, s.seen c = m) ∧ ∀ c, m ≤ s.seen c then some { s with q := s.q.markConsumed m } else none

/-- Nothing was claimed yet; the slots hold anything. -/
def Start (s : SeqSystem T n) : Prop := ∃ buffer, s = { q := { buffer } }

def Step (s s' : SeqSystem T n) : Prop := ∃ e, s.exec SIZE e = some s'

/-! ## The invariant -/

structure Inv : Prop where
  low : -1 ≤ s.q.gating
  gating_seen : ∀ c, s.q.gating ≤ s.seen c
  seen_next : ∀ c, s.seen c < s.next c
  next_hi : ∀ c, s.next c ≤ s.hi c + 1
  hi_cursor : ∀ c, s.hi c ≤ s.q.cursor
  gating_cursor : s.q.gating ≤ s.q.cursor
  cursor_next : s.q.cursor < s.q.nextSeq
  window : s.q.nextSeq ≤ s.q.gating + SIZE + 1
  published : ∀ i, s.q.gating < i → i ≤ s.q.cursor → (s.written i).isSome
  unclaimed : ∀ i, s.q.nextSeq ≤ i → s.written i = none
  held : ∀ i v, s.q.gating < i → i < s.q.nextSeq → s.written i = some v → s.q.read SIZE i = v
  reads : ∀ r ∈ s.reads, r.1 ≤ s.q.cursor ∧ s.written r.1 = some r.2

variable {SIZE : Nat} {s : SeqSystem T n}

theorem Start.inv (h : s.Start) : s.Inv SIZE := by
  obtain ⟨buffer, rfl⟩ := h
  refine ⟨le_rfl, fun _ => le_rfl, fun _ => ?_, fun _ => ?_, fun _ => le_rfl, le_rfl, ?_, ?_, fun i h1 h2 => ?_,
    fun _ _ => rfl, fun i v _ _ h => ?_, fun r hr => ?_⟩
  · show (-1 : Int) < 0
    decide
  · show (0 : Int) ≤ -1 + 1
    decide
  · show (-1 : Int) < 0
    decide
  · show (0 : Int) ≤ -1 + SIZE + 1
    omega
  · exact absurd h1 (not_lt_of_ge h2)
  · cases h
  · cases hr

theorem Inv.claim (h : s.Inv SIZE) : ({ s with q := (s.q.tryClaim SIZE).2 } : SeqSystem T n).Inv SIZE := by
  unfold Sequencer.tryClaim
  dsimp only
  split
  · exact h
  · rename_i hroom
    have hw := h.window
    refine { h with cursor_next := ?_, window := ?_, unclaimed := ?_, held := ?_ }
    · show s.q.cursor < s.q.nextSeq + 1
      have h1 := h.cursor_next
      omega
    · show s.q.nextSeq + 1 ≤ s.q.gating + SIZE + 1
      omega
    · intro i hi
      exact h.unclaimed i (Int.le_of_lt hi)
    · intro i v hg hi hv
      -- The sequence just claimed has not been written.
      by_cases e : i = s.q.nextSeq
      · rw [h.unclaimed i e.ge] at hv
        cases hv
      · exact h.held i v hg (by have : i < s.q.nextSeq + 1 := hi; omega) hv

/-- Sequences of the window lie in different slots. -/
theorem Inv.index_ne (h : s.Inv SIZE) {i j : Int} (hi : s.q.gating < i) (hi' : i < s.q.nextSeq) (hj : s.q.gating < j)
    (hj' : j < s.q.nextSeq) (hne : i ≠ j) : Sequencer.index SIZE i ≠ Sequencer.index SIZE j := by
  intro heq
  have hw := h.window
  have hpos : (0 : Int) < SIZE := by omega
  have h1 := Int.emod_nonneg i hpos.ne'
  have h2 := Int.emod_nonneg j hpos.ne'
  unfold Sequencer.index at heq
  exact hne (ring_inj_int (n := SIZE) (by omega) (by omega) (by omega))

theorem Inv.write (h : s.Inv SIZE) {seq : Int} (hc : s.q.cursor < seq) (hn : seq < s.q.nextSeq) (data : T) :
    ({ s with q := s.q.setSlot SIZE seq data, written := update s.written seq (some data) } :
      SeqSystem T n).Inv SIZE := by
  have hg := h.gating_cursor
  refine { h with published := ?_, unclaimed := ?_, held := ?_, reads := ?_ }
  · intro i h1 h2
    have hne : i ≠ seq := by
      have h3 : i ≤ s.q.cursor := h2
      omega
    show (update s.written seq (some data) i).isSome
    rw [update_of_ne hne]
    exact h.published i h1 h2
  · intro i hi
    have hne : i ≠ seq := by
      have h1 : s.q.nextSeq ≤ i := hi
      omega
    show update s.written seq (some data) i = none
    rw [update_of_ne hne]
    exact h.unclaimed i hi
  · intro i v h1 h2 hv
    show update s.q.buffer (Sequencer.index SIZE seq) data (Sequencer.index SIZE i) = v
    change update s.written seq (some data) i = some v at hv
    by_cases e : i = seq
    · subst e
      rw [update_self] at hv ⊢
      exact Option.some.inj hv
    · rw [update_of_ne e] at hv
      rw [update_of_ne (h.index_ne h1 h2 (by omega) hn e)]
      exact h.held i v h1 h2 hv
  · intro r hr
    obtain ⟨h1, h2⟩ := h.reads r hr
    refine ⟨h1, ?_⟩
    show update s.written seq (some data) r.1 = some r.2
    rw [update_of_ne (by omega)]
    exact h2

theorem written_of_filled {seq i : Int} (h : s.filled seq) (hc : s.q.cursor < i) (hs : i ≤ seq) :
    (s.written i).isSome := by
  unfold filled at h
  rw [List.all_eq_true] at h
  have hj := h (i - s.q.cursor - 1).toNat (List.mem_range.mpr (by omega))
  have e : s.q.cursor + 1 + ((i - s.q.cursor - 1).toNat : Int) = i := by omega
  rwa [e] at hj

theorem Inv.publish (h : s.Inv SIZE) {seq : Int} (hc : s.q.cursor < seq) (hn : seq < s.q.nextSeq)
    (hw : s.filled seq) :
    ({ s with q := s.q.publish seq } : SeqSystem T n).Inv SIZE := by
  refine { h with hi_cursor := ?_, gating_cursor := ?_, cursor_next := hn, published := ?_, reads := ?_ }
  · exact fun c => (h.hi_cursor c).trans hc.le
  · exact h.gating_cursor.trans hc.le
  · intro i h1 h2
    by_cases hi : i ≤ s.q.cursor
    · exact h.published i h1 hi
    · exact written_of_filled (s := s) hw (not_le.mp hi) h2
  · intro r hr
    obtain ⟨h1, h2⟩ := h.reads r hr
    exact ⟨h1.trans hc.le, h2⟩

theorem Inv.load (h : s.Inv SIZE) (c : Fin n) :
    ({ s with hi := update s.hi c s.q.available } : SeqSystem T n).Inv SIZE := by
  refine { h with next_hi := fun d => ?_, hi_cursor := fun d => ?_ }
  · show s.next d ≤ update s.hi c s.q.cursor d + 1
    have h1 := h.next_hi d
    have h2 := h.hi_cursor d
    by_cases e : d = c
    · rw [e, update_self]
      rw [e] at h1 h2
      omega
    · rw [update_of_ne e]
      exact h1
  · show update s.hi c s.q.cursor d ≤ s.q.cursor
    by_cases e : d = c
    · rw [e, update_self]
    · rw [update_of_ne e]
      exact h.hi_cursor d

theorem Inv.read (h : s.Inv SIZE) {c : Fin n} (hc : s.next c ≤ s.hi c) :
    ({ s with next := update s.next c (s.next c + 1),
              reads := (s.next c, s.q.read SIZE (s.next c)) :: s.reads } : SeqSystem T n).Inv SIZE := by
  refine { h with seen_next := fun d => ?_, next_hi := fun d => ?_, reads := ?_ }
  · show s.seen d < update s.next c (s.next c + 1) d
    have h1 := h.seen_next d
    by_cases e : d = c
    · rw [e, update_self]
      rw [e] at h1
      omega
    · rw [update_of_ne e]
      exact h1
  · show update s.next c (s.next c + 1) d ≤ s.hi d + 1
    by_cases e : d = c
    · rw [e, update_self]
      omega
    · rw [update_of_ne e]
      exact h.next_hi d
  · intro r hr
    rcases List.mem_cons.mp hr with rfl | hr
    · -- What a consumer reads is published and not marked.
      have h1 := h.gating_seen c
      have h2 := h.seen_next c
      have h3 := h.hi_cursor c
      have h4 := h.cursor_next
      obtain ⟨v, hv⟩ := Option.isSome_iff_exists.mp (h.published (s.next c) (by omega) (by omega))
      refine ⟨hc.trans h3, ?_⟩
      rw [h.held _ v (by omega) (by omega) hv]
      exact hv
    · exact h.reads r hr

theorem Inv.collect (h : s.Inv SIZE) (c : Fin n) :
    ({ s with seen := update s.seen c (s.next c - 1) } : SeqSystem T n).Inv SIZE := by
  refine { h with gating_seen := fun d => ?_, seen_next := fun d => ?_ }
  · show s.q.gating ≤ update s.seen c (s.next c - 1) d
    by_cases e : d = c
    · rw [e, update_self]
      have h1 := h.gating_seen c
      have h2 := h.seen_next c
      omega
    · rw [update_of_ne e]
      exact h.gating_seen d
  · show update s.seen c (s.next c - 1) d < s.next d
    by_cases e : d = c
    · rw [e, update_self]
      omega
    · rw [update_of_ne e]
      exact h.seen_next d

theorem Inv.mark (h : s.Inv SIZE) {m : Int} (hm : ∃ c, s.seen c = m) (hle : ∀ c, m ≤ s.seen c) :
    ({ s with q := s.q.markConsumed m } : SeqSystem T n).Inv SIZE := by
  obtain ⟨c, hc⟩ := hm
  have h1 := h.gating_seen c
  have h2 := h.seen_next c
  have h3 := h.next_hi c
  have h4 := h.hi_cursor c
  have hup : s.q.gating ≤ m := by omega
  refine { h with
    low := h.low.trans hup
    gating_seen := hle
    gating_cursor := by show m ≤ s.q.cursor; omega
    window := ?_
    published := fun i hi => h.published i (hup.trans_lt hi)
    held := fun i v hi => h.held i v (hup.trans_lt hi) }
  show s.q.nextSeq ≤ m + SIZE + 1
  have h5 := h.window
  omega

theorem Inv.step {s' : SeqSystem T n} (h : s.Inv SIZE) (hs : s.Step SIZE s') : s'.Inv SIZE := by
  obtain ⟨e, he⟩ := hs
  cases e with
  | claim =>
    cases he
    exact h.claim
  | write seq data =>
    rw [exec] at he
    split at he
    · rename_i hg
      cases he
      exact h.write hg.1 hg.2 data
    · cases he
  | publish seq =>
    rw [exec] at he
    split at he
    · rename_i hg
      cases he
      exact h.publish hg.1 hg.2.1 hg.2.2
    · cases he
  | load c =>
    cases he
    exact h.load c
  | read c =>
    rw [exec] at he
    split at he
    · rename_i hg
      cases he
      exact h.read hg
    · cases he
  | collect c =>
    cases he
    exact h.collect c
  | mark m =>
    rw [exec] at he
    split at he
    · rename_i hg
      cases he
      exact h.mark hg.1 hg.2
    · cases he

theorem Inv.tryClaim_iff (h : s.Inv SIZE) :
    (s.q.tryClaim SIZE).1 = -1 ↔ (Finset.Ioo s.q.gating s.q.nextSeq).card = SIZE := by
  have h1 := h.low
  have h2 := h.gating_cursor
  have h3 := h.cursor_next
  have h4 := h.window
  rw [Int.card_Ioo]
  unfold Sequencer.tryClaim
  dsimp only
  split
  · constructor
    · intro _
      omega
    · exact fun _ => rfl
  · omega

end SeqSystem

/-- In every run of the producer, any number of consumers and the aggregator: what is published and not marked can be
    read, whatever a consumer read is what the producer wrote, a claimed slot is free, and the ring is full exactly
    when `SIZE` claimed sequences are not marked. -/
theorem sequencer_safe {T : Type} {n : Nat} (k : Nat) {s : SeqSystem T n}
    (h : Reachable SeqSystem.Start (SeqSystem.Step (2 ^ k)) s) :
    (∀ i, s.q.gating < i → i ≤ s.q.cursor → s.written i = some (s.q.read (2 ^ k) i)) ∧
    (∀ r ∈ s.reads, s.written r.1 = some r.2) ∧
    (∀ i < s.q.nextSeq, i - (2 ^ k : Nat) ≤ s.q.gating ∧ ∀ c, i - (2 ^ k : Nat) < s.next c) ∧
    ((s.q.tryClaim (2 ^ k)).1 = -1 ↔ (Finset.Ioo s.q.gating s.q.nextSeq).card = 2 ^ k) := by
  have hinv : s.Inv (2 ^ k) := h.invariant (fun _ hs => hs.inv) fun _ _ hs hstep => hs.step hstep
  refine ⟨fun i h1 h2 => ?_, fun r hr => (hinv.reads r hr).2, fun i hi => ?_, hinv.tryClaim_iff⟩
  · obtain ⟨v, hv⟩ := Option.isSome_iff_exists.mp (hinv.published i h1 h2)
    rw [hinv.held i v h1 (h2.trans_lt hinv.cursor_next) hv]
    exact hv
  · have hw := hinv.window
    refine ⟨by omega, fun c => ?_⟩
    have h1 := hinv.gating_seen c
    have h2 := hinv.seen_next c
    omega

/-- Two slots, one consumer: a third claim is refused until the first sequence is marked. -/
def sampleEvents : List (SeqEvent Nat 1) :=
  [.claim, .claim, .write 1 8, .write 0 7, .claim, .publish 0, .publish 1, .load 0, .read 0, .collect 0, .mark 0, .claim,
    .write 2 9, .read 0]

theorem sequencer_safe_sample : ∃ s : SeqSystem Nat 1, s.reads = [(1, 8), (0, 7)] ∧ ∀ r ∈ s.reads, s.written r.1 = some r.2 := by
  have hrun : (runEvents (SeqSystem.exec 2) sampleEvents { q := { buffer := fun _ => 0 } }).map (·.reads) =
      some [(1, 8), (0, 7)] := by
    decide +kernel
  obtain ⟨s, hs, hreads⟩ := Option.map_eq_some_iff.mp hrun
  exact ⟨s, hreads, (sequencer_safe 1 (.run (fun s e s' h => ⟨e, h⟩) sampleEvents (.start ⟨fun _ => 0, rfl⟩) hs)).2.1⟩

end HftLab.Lockfree
