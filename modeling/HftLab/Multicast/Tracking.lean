/-
  HftLab.Multicast.Tracking — a feed is tracked packet by packet as message by message.

  `observePacket` takes the messages of a packet in at once. Told one after the other, the same numbers lead to the same expected
  number, the same losses and the same gaps (`packets_as_messages`); only a repeated message counts as a duplicate of its own.
-/

import HftLab.Multicast.Feed

namespace HftLab.Multicast

open Lib List

namespace SequenceTracker

def observeEach (t : SequenceTracker) (seqs : List Nat) : SequenceTracker := seqs.foldl (fun t seq => (t.observe seq).2) t

/-- A packet is its first number and how many messages it has. -/
def observePackets (t : SequenceTracker) (ps : List (Nat × Nat)) : SequenceTracker :=
  ps.foldl (fun t p => (t.observePacket p.1 p.2).2) t

/-- The numbers of the messages, packet by packet. -/
def numbers (ps : List (Nat × Nat)) : List Nat := ps.flatMap fun p => List.range' p.1 p.2

structure Agree (t u : SequenceTracker) : Prop where
  started : t.initialized = u.initialized
  expected : t.expectedSeq = u.expectedSeq
  received : t.received = u.received
  lost : t.lost = u.lost
  gaps : t.gaps = u.gaps

/-- From `first` on, each number was received or lost. -/
def Balanced (first : Nat) (t : SequenceTracker) : Prop := first + (t.received + t.lost) = t.expectedSeq

variable {t u : SequenceTracker} {seq n first : Nat}

/-! ## Messages in a row -/

theorem observeEach_append (t : SequenceTracker) (l l' : List Nat) : t.observeEach (l ++ l') = (t.observeEach l).observeEach l' :=
  foldl_append

theorem observeEach_inOrder (t : SequenceTracker) (seq n : Nat) (hi : t.initialized) (he : t.expectedSeq = seq)
    (h : seq + n < 18446744073709551616) :
    t.observeEach (List.range' seq n) = { t with expectedSeq := seq + n, received := t.received + n } := by
  induction n generalizing t seq with
  | zero =>
    subst he
    rfl
  | succ n ih =>
    have hnext : (t.observe seq).2 = { t with expectedSeq := seq + 1, received := t.received + 1 } := by
      simp [observe, hi, he, uint64_eq (show seq + 1 < 18446744073709551616 by omega)]
    have hfits : seq + 1 + n < 18446744073709551616 := by omega
    have hrest := ih { t with expectedSeq := seq + 1, received := t.received + 1 } (seq + 1) hi rfl hfits
    rw [range'_succ]
    show (t.observe seq).2.observeEach (List.range' (seq + 1) n) = _
    rw [hnext, hrest]
    simp only [Nat.add_assoc, Nat.add_comm 1 n]

theorem observeEach_old (t : SequenceTracker) (seq n : Nat) (hi : t.initialized) (h : seq + n ≤ t.expectedSeq) :
    t.observeEach (List.range' seq n) = { t with duplicates := t.duplicates + n } := by
  induction n generalizing t seq with
  | zero => rfl
  | succ n ih =>
    have hne : seq ≠ t.expectedSeq := by omega
    have hlt : ¬t.expectedSeq < seq := by omega
    have hnext : (t.observe seq).2 = { t with duplicates := t.duplicates + 1 } := by
      simp [observe, hi, hne, hlt]
    have hrest := ih { t with duplicates := t.duplicates + 1 } (seq + 1) hi (show seq + 1 + n ≤ t.expectedSeq by omega)
    rw [range'_succ]
    show (t.observe seq).2.observeEach (List.range' (seq + 1) n) = _
    rw [hnext, hrest]
    simp only [Nat.add_assoc, Nat.add_comm 1 n]

/-! ## One packet -/

theorem Agree.observePacket (h : t.Agree u) (hn : 1 ≤ n) (hfits : seq + n < 18446744073709551616) :
    (t.observePacket seq n).2.Agree (u.observeEach (List.range' seq n)) := by
  obtain ⟨hstarted, hexpected, hreceived, hlost, hgaps⟩ := h
  have hend : uint64 (seq + n) = seq + n := uint64_eq hfits
  have hone : uint64 (seq + 1) = seq + 1 := uint64_eq (by omega)
  -- all but the first message come in order
  have hhead : u.observeEach (List.range' seq n) = (u.observe seq).2.observeEach (List.range' (seq + 1) (n - 1)) := by
    obtain ⟨k, rfl⟩ : ∃ k, n = k + 1 := ⟨n - 1, by omega⟩
    rw [range'_succ]
    rfl
  have hrest : seq + 1 + (n - 1) < 18446744073709551616 := by omega
  cases hi : u.initialized with
  | false =>
    have hfirst : (u.observe seq).2 = { u with initialized := true, expectedSeq := seq + 1, received := u.received + 1 } := by
      simp [observe, hi, hone]
    rw [hhead, hfirst, observeEach_inOrder _ _ _ rfl rfl hrest]
    simp only [SequenceTracker.observePacket, hstarted, hi, Bool.not_false, if_true, hend]
    refine ⟨rfl, ?_, ?_, hlost, hgaps⟩
    · show seq + n = seq + 1 + (n - 1)
      omega
    · show t.received + n = u.received + 1 + (n - 1)
      omega
  | true =>
    rcases Nat.lt_trichotomy seq u.expectedSeq with hlt | heq | hgt
    · have hne : seq ≠ u.expectedSeq := by omega
      by_cases hin : seq + n ≤ u.expectedSeq
      · rw [observeEach_old u seq n hi hin]
        simp only [SequenceTracker.observePacket, hstarted, hi, hexpected, hne, Nat.lt_asymm hlt, hend, hin, Bool.not_true,
          Bool.false_eq_true, if_true, if_false]
        exact ⟨rfl, rfl, hreceived, hlost, hgaps⟩
      · -- the front of the packet is old, the rest comes in order
        have hsplit : List.range' seq n =
            List.range' seq (u.expectedSeq - seq) ++ List.range' u.expectedSeq (seq + n - u.expectedSeq) := by
          have hcut := @range'_append_1 seq (u.expectedSeq - seq) (seq + n - u.expectedSeq)
          rw [show seq + (u.expectedSeq - seq) = u.expectedSeq by omega,
            show u.expectedSeq - seq + (seq + n - u.expectedSeq) = n by omega] at hcut
          exact hcut.symm
        have hold := observeEach_old u seq (u.expectedSeq - seq) hi (by omega)
        have hnew := observeEach_inOrder { u with duplicates := u.duplicates + (u.expectedSeq - seq) } u.expectedSeq
          (seq + n - u.expectedSeq) hi rfl (by omega)
        rw [hsplit, observeEach_append, hold, hnew]
        simp only [SequenceTracker.observePacket, hstarted, hi, hexpected, hne, Nat.lt_asymm hlt, hend, hin, Bool.not_true,
          Bool.false_eq_true, if_false]
        refine ⟨rfl, ?_, ?_, hlost, hgaps⟩
        · show seq + n = u.expectedSeq + (seq + n - u.expectedSeq)
          omega
        · rw [hreceived]
    · rw [observeEach_inOrder u seq n hi heq.symm hfits]
      rw [heq] at hend
      simp only [SequenceTracker.observePacket, hstarted, hi, hexpected, heq, hend, Bool.not_true, Bool.false_eq_true, if_true,
        if_false]
      refine ⟨rfl, rfl, ?_, hlost, hgaps⟩
      rw [hreceived]
    · have hne : seq ≠ u.expectedSeq := by omega
      have hfirst : (u.observe seq).2 =
          { u with
            gaps := u.gaps + 1
            lost := u.lost + (seq - u.expectedSeq)
            expectedSeq := seq + 1
            received := u.received + 1 } := by
        simp [observe, hi, hne, hgt, hone]
      have hbehind := observeEach_inOrder
        { u with
          gaps := u.gaps + 1
          lost := u.lost + (seq - u.expectedSeq)
          expectedSeq := seq + 1
          received := u.received + 1 } (seq + 1) (n - 1) hi rfl hrest
      rw [hhead, hfirst, hbehind]
      simp only [SequenceTracker.observePacket, hstarted, hi, hexpected, hne, hgt, hend, Bool.not_true, Bool.false_eq_true,
        if_true, if_false]
      refine ⟨rfl, ?_, ?_, ?_, ?_⟩
      · show seq + n = seq + 1 + (n - 1)
        omega
      · show t.received + n = u.received + 1 + (n - 1)
        omega
      · rw [hlost]
      · rw [hgaps]

/-- The first packet starts at `first`. -/
theorem observePacket_starts (hi : t.initialized = false) (h0 : t.received + t.lost = 0) (hfits : first + n < 18446744073709551616) :
    Balanced first (t.observePacket first n).2 := by
  have hend : uint64 (first + n) = first + n := uint64_eq hfits
  simp only [Balanced, SequenceTracker.observePacket, hi, Bool.not_false, if_true, hend]
  omega

theorem Balanced.observePacket (h : Balanced first t) (hi : t.initialized) (hfits : seq + n < 18446744073709551616) :
    Balanced first (t.observePacket seq n).2 ∧ (t.observePacket seq n).2.initialized := by
  have hend : uint64 (seq + n) = seq + n := uint64_eq hfits
  unfold Balanced at h ⊢
  rcases Nat.lt_trichotomy seq t.expectedSeq with hlt | heq | hgt
  · have hne : seq ≠ t.expectedSeq := by omega
    by_cases hin : seq + n ≤ t.expectedSeq
    · simp only [SequenceTracker.observePacket, hi, hne, Nat.lt_asymm hlt, hend, hin, Bool.not_true, Bool.false_eq_true, if_true,
        if_false]
      exact ⟨h, trivial⟩
    · simp only [SequenceTracker.observePacket, hi, hne, Nat.lt_asymm hlt, hend, hin, Bool.not_true, Bool.false_eq_true, if_false]
      exact ⟨by omega, trivial⟩
  · rw [heq] at hend
    simp only [SequenceTracker.observePacket, hi, heq, hend, Bool.not_true, Bool.false_eq_true, if_true, if_false]
    exact ⟨by omega, trivial⟩
  · have hne : seq ≠ t.expectedSeq := by omega
    simp only [SequenceTracker.observePacket, hi, hne, hgt, hend, Bool.not_true, Bool.false_eq_true, if_true, if_false]
    exact ⟨by omega, trivial⟩

/-! ## A run -/

theorem Agree.observePackets (h : t.Agree u) (ps : List (Nat × Nat)) (hps : ∀ p ∈ ps, 1 ≤ p.2 ∧ p.1 + p.2 < 18446744073709551616) :
    (t.observePackets ps).Agree (u.observeEach (numbers ps)) := by
  induction ps generalizing t u with
  | nil => exact h
  | cons p ps ih =>
    obtain ⟨hn, hfits⟩ := hps p mem_cons_self
    have hnext := ih (h.observePacket hn hfits) fun q hq => hps q (mem_cons_of_mem _ hq)
    have hsplit : numbers (p :: ps) = List.range' p.1 p.2 ++ numbers ps := flatMap_cons
    rw [hsplit, observeEach_append]
    exact hnext

theorem Balanced.observePackets (h : Balanced first t) (hi : t.initialized) (ps : List (Nat × Nat))
    (hps : ∀ p ∈ ps, p.1 + p.2 < 18446744073709551616) : Balanced first (t.observePackets ps) := by
  induction ps generalizing t with
  | nil => exact h
  | cons p ps ih =>
    obtain ⟨hnext, hnexti⟩ := h.observePacket hi (hps p mem_cons_self)
    exact ih hnext hnexti fun q hq => hps q (mem_cons_of_mem _ hq)

theorem Agree.balanced (h : t.Agree u) (hb : Balanced first t) : Balanced first u := by
  unfold Balanced at hb ⊢
  rw [← h.received, ← h.lost, ← h.expected]
  exact hb

/-- Over every sequence of packets with at least one message, whatever is lost, repeated or overlaps. -/
theorem packets_as_messages (ps : List (Nat × Nat)) (h : ∀ p ∈ ps, 1 ≤ p.2 ∧ p.1 + p.2 < 2 ^ 64) :
    (observePackets {} ps).Agree (observeEach {} (numbers ps)) ∧
    ∀ p ∈ ps.head?, Balanced p.1 (observePackets {} ps) ∧ Balanced p.1 (observeEach {} (numbers ps)) := by
  have hstart : Agree {} {} := ⟨rfl, rfl, rfl, rfl, rfl⟩
  have hagree := hstart.observePackets ps h
  refine ⟨hagree, fun p hp => ?_⟩
  obtain ⟨rest, rfl⟩ : ∃ rest, ps = p :: rest := List.head?_eq_some_iff.mp hp
  have hfits := (h p List.mem_cons_self).2
  have hfirst : Balanced p.1 (SequenceTracker.observePacket {} p.1 p.2).2 := observePacket_starts rfl rfl hfits
  have hrun : Balanced p.1 (observePackets {} (p :: rest)) :=
    hfirst.observePackets rfl rest fun q hq => (h q (List.mem_cons_of_mem _ hq)).2
  exact ⟨hrun, hagree.balanced hrun⟩

/-- 5 and 6, then 9 to 11 behind a gap, 10 to 13 partly again, and 5 once more. -/
theorem packets_as_messages_small :
    Agree (observePackets {} [(5, 2), (9, 3), (10, 4), (5, 1)]) (observeEach {} (numbers [(5, 2), (9, 3), (10, 4), (5, 1)])) ∧
    Balanced 5 (observePackets {} [(5, 2), (9, 3), (10, 4), (5, 1)]) := by
  obtain ⟨hagree, hbalanced⟩ := packets_as_messages [(5, 2), (9, 3), (10, 4), (5, 1)] (by decide)
  exact ⟨hagree, (hbalanced (5, 2) rfl).1⟩

end SequenceTracker

end HftLab.Multicast
