/-
  HftLab.Multicast.Gaps — the books of `GapRecovery` (gap_recovery.hpp): what was lost is recovered or missing still.

  A gap opens above all that was seen, so a number is lost once (`Moves.fresh`), and it leaves `missing` by a late packet, a
  retransmission or a snapshot, which all count it. The three passes over `missing` group it in the same way (`Grouped`).
-/

import HftLab.Multicast.Agreement
import HftLab.Lib.Runs
import Mathlib.Algebra.GroupWithZero.Nat
import Mathlib.Data.Finset.Sort

namespace HftLab.Multicast

open Lib Finset

inductive FeedEvent where
  | observe (seq : Nat)
  | onRetransmit (seq : Nat)
  | snapshotResync (seq : Nat)
  deriving DecidableEq, Repr

def FeedEvent.seq : FeedEvent → Nat
  | .observe seq => seq
  | .onRetransmit seq => seq
  | .snapshotResync seq => seq

namespace GapRecovery

variable (g : GapRecovery)

/-- The snapshot has everything up to its number. -/
def snapshotResync (snapshotSeq : Nat) : GapRecovery :=
  let r := eraseFront (· ≤ snapshotSeq) g.missing.card g.missing
  { g with
    missing := r.2
    recovered := g.recovered + r.1
    expected := if g.expected < uint64 (snapshotSeq + 1) then uint64 (snapshotSeq + 1) else g.expected
    initialized := true }

def exec : FeedEvent → GapRecovery
  | .observe seq => g.observe seq
  | .onRetransmit seq => (g.onRetransmit seq).2
  | .snapshotResync seq => g.snapshotResync seq

/-! ## The passes over what is missing -/

/-- `prev` is the number before, if there is one. -/
structure RangeCount where
  runs : Nat := 0
  prev : Option Nat := none

def RangeCount.next (c : RangeCount) (s : Nat) : RangeCount where
  runs := if c.prev.map (fun prev => uint64 (prev + 1)) = some s then c.runs else c.runs + 1
  prev := some s

def outstandingRangeCount : Nat := ((g.missing.sort).foldl RangeCount.next {}).runs

structure LargestRun where
  best : Nat := 0
  cur : Nat := 0
  prev : Option Nat := none

def LargestRun.next (r : LargestRun) (s : Nat) : LargestRun :=
  let cur := if r.prev.map (fun prev => uint64 (prev + 1)) = some s then r.cur + 1 else 1
  { best := if r.best < cur then cur else r.best, cur, prev := some s }

def largestOutstandingRun : Nat := ((g.missing.sort).foldl LargestRun.next {}).best

structure Ranges where
  out : List (Nat × Nat) := []
  start : Nat
  prev : Nat

def Ranges.next (r : Ranges) (s : Nat) : Ranges :=
  if s = uint64 (r.prev + 1) then { r with prev := s } else { out := r.out ++ [(r.start, r.prev)], start := s, prev := s }

def missingRanges : List (Nat × Nat) :=
  match g.missing.sort with
  | [] => []
  | first :: rest =>
    let r := rest.foldl Ranges.next { start := first, prev := first }
    r.out ++ [(r.start, r.prev)]

/-! ## What a run does -/

/-- The width of the gap that opens. -/
def burst (g : GapRecovery) : FeedEvent → Option Nat
  | .observe seq => if g.initialized = true ∧ g.expected < seq then some (seq - g.expected) else none
  | _ => none

def bursts : GapRecovery → List FeedEvent → List Nat
  | _, [] => []
  | g, e :: events => (g.burst e).toList ++ bursts (g.exec e) events

/-- The numbers that each event adds to `missing`. -/
def entries : GapRecovery → List FeedEvent → List (Finset Nat)
  | _, [] => []
  | g, e :: events => ((g.exec e).missing \ g.missing) :: entries (g.exec e) events

def width (r : Nat × Nat) : Nat := r.2 + 1 - r.1

/-- The width of the longest interval, 0 if there is none. -/
def longest (l : List (Nat × Nat)) : Nat := (l.map width).foldl max 0

/-- The books after `events`. -/
structure Accounted (events : List FeedEvent) (g : GapRecovery) : Prop where
  below : ∀ m ∈ g.missing, m < g.expected
  once : (entries {} events).Pairwise Disjoint
  balance : g.recovered + g.missing.card = (bursts {} events).sum
  gaps : g.gapEvents = (bursts {} events).length
  widest : g.maxGapBurst = (bursts {} events).foldl max 0
  ranges : ∀ l, IsRuns g.missing l ↔ l = g.missingRanges
  count : g.outstandingRangeCount = g.missingRanges.length
  largest : g.largestOutstandingRun = longest g.missingRanges

variable {g} {g' : GapRecovery} {e : FeedEvent} {events : List FeedEvent}
    {seq : Nat} {done : Finset Nat} {r : Ranges} {c : RangeCount} {b : LargestRun}

/-! ## One event -/

/-- What holds between events. -/
structure Ready (g : GapRecovery) : Prop where
  below : ∀ m ∈ g.missing, m < g.expected
  fits : g.expected ≤ 18446744073709551615
  started : g.initialized = false → g.expected = 0

/-- From `g` to `g'`, with a gap of the width `w`. -/
structure Moves (g g' : GapRecovery) (w : Option Nat) : Prop where
  ready : g'.Ready
  expected_le : g.expected ≤ g'.expected
  fresh : ∀ m ∈ g'.missing, m ∈ g.missing ∨ g.expected ≤ m
  balance : g'.recovered + g'.missing.card = g.recovered + g.missing.card + w.getD 0
  gaps : g'.gapEvents = g.gapEvents + w.toList.length
  widest : g'.maxGapBurst = max g.maxGapBurst (w.getD 0)

theorem card_foldl_insert {s : Finset Nat} {low : Nat} (n : Nat) (h : ∀ m ∈ s, m < low) :
    ((List.range' low n).foldl (fun m s => insert s m) s).card = s.card + n := by
  induction n generalizing s low with
  | zero => rfl
  | succ n ih =>
    have hnot : low ∉ s := fun hm => Nat.lt_irrefl _ (h low hm)
    have hbelow : ∀ m ∈ insert low s, m < low + 1 := by
      intro m hm
      rcases mem_insert.mp hm with rfl | hm
      · omega
      · have := h m hm
        omega
    rw [List.range'_succ, List.foldl_cons, ih hbelow, card_insert_of_notMem hnot]
    omega

/-- A number that was missing came. -/
theorem Ready.recover (h : g.Ready) (hm : seq ∈ g.missing) (primaryPackets : Nat) :
    Moves g { g with primaryPackets, missing := g.missing.erase seq, recovered := g.recovered + 1 } none where
  ready := ⟨fun m hm => h.below m (mem_of_mem_erase hm), h.fits, h.started⟩
  expected_le := Nat.le_refl _
  fresh m hm := .inl (mem_of_mem_erase hm)
  balance := by
    have hcard := card_erase_add_one hm
    show g.recovered + 1 + (g.missing.erase seq).card = g.recovered + g.missing.card + 0
    omega
  gaps := rfl
  widest := (Nat.max_eq_left (Nat.zero_le _)).symm

/-- Nothing was lost and nothing recovered. -/
theorem Ready.advance (h : g.Ready) {primaryPackets duplicates expected : Nat} {initialized : Bool} (hle : g.expected ≤ expected)
    (hfits : expected ≤ 18446744073709551615) (hstart : initialized = false → expected = 0) :
    Moves g { g with primaryPackets, duplicates, expected, initialized } none where
  ready := ⟨fun m hm => Nat.lt_of_lt_of_le (h.below m hm) hle, hfits, hstart⟩
  expected_le := hle
  fresh _ hm := .inl hm
  balance := rfl
  gaps := rfl
  widest := (Nat.max_eq_left (Nat.zero_le _)).symm

theorem Ready.observe (h : g.Ready) (hs : seq < 18446744073709551615) : Moves g (g.observe seq) (g.burst (.observe seq)) := by
  have hnext : uint64 (seq + 1) = seq + 1 := uint64_eq (by omega)
  cases hi : g.initialized with
  | false =>
    have hexpected := h.started hi
    simp only [GapRecovery.observe, burst, hi, hnext, Bool.not_false, Bool.false_eq_true, false_and, if_true, if_false]
    exact h.advance (by omega) (by omega) nofun
  | true =>
    rcases Nat.lt_trichotomy seq g.expected with hlt | heq | hgt
    · have hne : seq ≠ g.expected := by omega
      by_cases hm : seq ∈ g.missing
      · simp only [GapRecovery.observe, burst, hi, hne, Nat.lt_asymm hlt, hm, Bool.not_true, Bool.false_eq_true, and_false, if_true,
          if_false]
        have hrecover := h.recover hm (g.primaryPackets + 1)
        rw [hi] at hrecover
        exact hrecover
      · simp only [GapRecovery.observe, burst, hi, hne, Nat.lt_asymm hlt, hm, Bool.not_true, Bool.false_eq_true, and_false, if_false]
        exact h.advance (Nat.le_refl _) h.fits nofun
    · subst heq
      simp only [GapRecovery.observe, burst, hi, hnext, Nat.lt_irrefl, Bool.not_true, Bool.false_eq_true, and_false, if_true, if_false]
      exact h.advance (Nat.le_succ _) (by omega) nofun
    · have hne : seq ≠ g.expected := by omega
      simp only [GapRecovery.observe, burst, hi, hne, hgt, hnext, Bool.not_true, Bool.false_eq_true, and_self, if_true, if_false]
      have hmem := mem_foldl_insert (List.range' g.expected (seq - g.expected)) g.missing
      have hcard := card_foldl_insert (seq - g.expected) h.below
      refine ⟨⟨fun m hm => ?_, by dsimp only; omega, nofun⟩, by dsimp only; omega, fun m hm => ?_, ?_, rfl, rfl⟩
      · show m < seq + 1
        rcases (hmem m).mp hm with hm | hm
        · have := h.below m hm
          omega
        · rw [List.mem_range'_1] at hm
          omega
      · rcases (hmem m).mp hm with hm | hm
        · exact .inl hm
        · rw [List.mem_range'_1] at hm
          exact .inr hm.1
      · dsimp only [Option.getD_some]
        omega

theorem Ready.onRetransmit (h : g.Ready) (seq : Nat) : Moves g (g.onRetransmit seq).2 none := by
  unfold GapRecovery.onRetransmit
  split
  · rename_i hm
    exact h.recover hm g.primaryPackets
  · exact h.advance (Nat.le_refl _) h.fits h.started

theorem Ready.snapshotResync (h : g.Ready) {snapshotSeq : Nat} (hs : snapshotSeq < 18446744073709551615) :
    Moves g (g.snapshotResync snapshotSeq) none := by
  have hnext : uint64 (snapshotSeq + 1) = snapshotSeq + 1 := uint64_eq (by omega)
  have herased : eraseFront (· ≤ snapshotSeq) g.missing.card g.missing =
      ((g.missing.filter fun m => decide (m ≤ snapshotSeq) = true).card,
        g.missing.filter fun m => decide (m ≤ snapshotSeq) = false) := by
    refine eraseFront_eq (fun a _ b _ hab hb => ?_) (Nat.le_refl _)
    rw [decide_eq_true_eq] at hb ⊢
    omega
  have hcard := card_filter_add_card_filter_not (s := g.missing) (fun m => decide (m ≤ snapshotSeq) = true)
  simp only [Bool.not_eq_true] at hcard
  have hfits := h.fits
  unfold GapRecovery.snapshotResync
  rw [herased, hnext]
  refine ⟨⟨fun m hm => ?_, ?_, nofun⟩, ?_, fun m hm => .inl (mem_of_mem_filter m hm), ?_, rfl,
    (Nat.max_eq_left (Nat.zero_le _)).symm⟩
  · have := h.below m (mem_of_mem_filter m hm)
    dsimp only
    split <;> omega
  · dsimp only
    split <;> omega
  · dsimp only
    split <;> omega
  · dsimp only [Option.getD_none]
    omega

theorem Ready.exec (h : g.Ready) (he : e.seq < 18446744073709551615) : Moves g (g.exec e) (g.burst e) := by
  cases e with
  | observe seq => exact h.observe he
  | onRetransmit seq => exact h.onRetransmit seq
  | snapshotResync seq => exact h.snapshotResync he

/-! ## A run -/

theorem entries_above (h : g.Ready) (hs : ∀ e ∈ events, e.seq < 18446744073709551615) :
    ∀ entered ∈ entries g events, ∀ m ∈ entered, g.expected ≤ m := by
  induction events generalizing g with
  | nil => nofun
  | cons e events ih =>
    have hmoves := h.exec (hs e List.mem_cons_self)
    intro entered hmem m hm
    rcases List.mem_cons.mp hmem with rfl | hmem
    · obtain ⟨hnew, hold⟩ := mem_sdiff.mp hm
      exact (hmoves.fresh m hnew).resolve_left hold
    · have hle := hmoves.expected_le
      have := ih hmoves.ready (fun e' he' => hs e' (List.mem_cons_of_mem _ he')) entered hmem m hm
      omega

theorem entries_disjoint (h : g.Ready) (hs : ∀ e ∈ events, e.seq < 18446744073709551615) :
    (entries g events).Pairwise Disjoint := by
  induction events generalizing g with
  | nil => exact List.Pairwise.nil
  | cons e events ih =>
    have hmoves := h.exec (hs e List.mem_cons_self)
    have hrest : ∀ e' ∈ events, e'.seq < 18446744073709551615 := fun e' he' => hs e' (List.mem_cons_of_mem _ he')
    refine List.Pairwise.cons (fun entered hmem => disjoint_left.mpr fun m hm hlater => ?_) (ih hmoves.ready hrest)
    have hbelow := hmoves.ready.below m (mem_sdiff.mp hm).1
    have habove := entries_above hmoves.ready hrest entered hmem m hlater
    omega

/-- From `g` to `g'`, with gaps of the widths `ws`. -/
structure Runs (g g' : GapRecovery) (ws : List Nat) : Prop where
  ready : g'.Ready
  balance : g'.recovered + g'.missing.card = g.recovered + g.missing.card + ws.sum
  gaps : g'.gapEvents = g.gapEvents + ws.length
  widest : g'.maxGapBurst = ws.foldl max g.maxGapBurst

theorem bursts_cons (g : GapRecovery) (e : FeedEvent) (events : List FeedEvent) :
    bursts g (e :: events) = (g.burst e).toList ++ bursts (g.exec e) events := rfl

theorem Ready.run (h : g.Ready) (hs : ∀ e ∈ events, e.seq < 18446744073709551615) :
    Runs g (events.foldl GapRecovery.exec g) (bursts g events) := by
  induction events generalizing g with
  | nil => exact ⟨h, rfl, rfl, rfl⟩
  | cons e events ih =>
    have hmoves := h.exec (hs e List.mem_cons_self)
    obtain ⟨hready, hbalance, hgaps, hwidest⟩ := ih hmoves.ready fun e' he' => hs e' (List.mem_cons_of_mem _ he')
    have hfirst := hmoves.balance
    have hcount := hmoves.gaps
    have hwider := hmoves.widest
    refine ⟨hready, ?_, ?_, ?_⟩
    · show (events.foldl GapRecovery.exec (g.exec e)).recovered + (events.foldl GapRecovery.exec (g.exec e)).missing.card = _
      rw [hbalance, hfirst, bursts_cons, List.sum_append]
      cases g.burst e with
      | none => simp
      | some w => simp [Nat.add_assoc]
    · show (events.foldl GapRecovery.exec (g.exec e)).gapEvents = _
      rw [hgaps, hcount, bursts_cons, List.length_append, Nat.add_assoc]
    · show (events.foldl GapRecovery.exec (g.exec e)).maxGapBurst = _
      rw [hwidest, hwider, bursts_cons, List.foldl_append]
      cases g.burst e with
      | none => simp
      | some w => simp

/-! ## The runs of what is missing -/

/-- The three passes after the numbers `done`, the highest of which is `r.prev`. -/
structure Grouped (done : Finset Nat) (r : Ranges) (c : RangeCount) (b : LargestRun) : Prop where
  runs : IsRuns done (r.out ++ [(r.start, r.prev)])
  count : c.runs = r.out.length + 1
  count_prev : c.prev = some r.prev
  best : b.best = longest (r.out ++ [(r.start, r.prev)])
  cur : b.cur = width (r.start, r.prev)
  best_prev : b.prev = some r.prev

theorem longest_concat (l : List (Nat × Nat)) (r : Nat × Nat) : longest (l ++ [r]) = max (longest l) (width r) := by
  unfold longest
  rw [List.map_append, List.foldl_append]
  rfl

theorem Grouped.next {s : Nat} (h : Grouped done r c b) (hlt : r.prev < s) (hfits : s < 18446744073709551616) :
    Grouped (insert s done) (r.next s) (c.next s) (b.next s) ∧ (r.next s).prev = s := by
  have hwrap : uint64 (r.prev + 1) = r.prev + 1 := uint64_eq (by omega)
  have hordered := h.runs.ordered (r.start, r.prev) (by simp)
  have hbest := h.best
  have hcur := h.cur
  rw [longest_concat] at hbest
  simp only [width] at hbest hcur hordered
  by_cases hs : s = r.prev + 1
  · subst hs
    simp only [Ranges.next, RangeCount.next, LargestRun.next, h.count_prev, h.best_prev, Option.map_some, hwrap, if_true]
    refine ⟨⟨h.runs.extend, h.count, rfl, ?_, ?_, rfl⟩, trivial⟩
    · rw [longest_concat]
      simp only [width]
      split <;> omega
    · simp only [width]
      omega
  · have hne : ¬r.prev + 1 = s := fun e => hs e.symm
    simp only [Ranges.next, RangeCount.next, LargestRun.next, h.count_prev, h.best_prev, Option.map_some, Option.some.injEq, hwrap, hs,
      hne, if_false]
    refine ⟨⟨h.runs.opened (by omega), ?_, rfl, ?_, ?_, rfl⟩, trivial⟩
    · rw [h.count, List.length_append]
      rfl
    · rw [longest_concat, longest_concat]
      simp only [width]
      split <;> omega
    · simp only [width]
      omega

theorem Grouped.all (h : Grouped done r c b) (l : List Nat) (hl : (r.prev :: l).Pairwise (· < ·))
    (hfits : ∀ s ∈ l, s < 18446744073709551616) :
    Grouped (done ∪ l.toFinset) (l.foldl Ranges.next r) (l.foldl RangeCount.next c) (l.foldl LargestRun.next b) := by
  induction l generalizing done r c b with
  | nil =>
    rw [List.toFinset_nil, union_empty]
    exact h
  | cons s l ih =>
    have hlt := List.rel_of_pairwise_cons hl List.mem_cons_self
    obtain ⟨hnext, hprev⟩ := h.next hlt (hfits s List.mem_cons_self)
    have hset : done ∪ (s :: l).toFinset = insert s done ∪ l.toFinset := by
      rw [List.toFinset_cons, union_insert, insert_union]
    rw [hset]
    refine ih hnext ?_ fun s' hs' => hfits s' (List.mem_cons_of_mem _ hs')
    rw [hprev]
    exact hl.of_cons

/-- The passes agree, and group what is missing into its runs. -/
theorem missingRanges_spec (h : ∀ m ∈ g.missing, m < 18446744073709551616) :
    IsRuns g.missing g.missingRanges ∧ g.outstandingRangeCount = g.missingRanges.length ∧
      g.largestOutstandingRun = longest g.missingRanges := by
  have hsorted : (g.missing.sort).Pairwise (· < ·) := g.missing.sortedLT_sort.pairwise
  have hset : (g.missing.sort).toFinset = g.missing := g.missing.sort_toFinset _
  have hfits : ∀ m ∈ g.missing.sort, m < 18446744073709551616 := fun m hm => h m ((mem_sort _).mp hm)
  unfold missingRanges outstandingRangeCount largestOutstandingRun
  cases hl : g.missing.sort with
  | nil =>
    rw [hl] at hset
    rw [← hset]
    exact ⟨IsRuns.empty, rfl, rfl⟩
  | cons first rest =>
    rw [hl] at hsorted hset hfits
    have hfirst : Grouped {first} { start := first, prev := first } (RangeCount.next {} first) (LargestRun.next {} first) :=
      ⟨IsRuns.single first, rfl, rfl, by simp [LargestRun.next, longest, width], by simp [LargestRun.next, width], rfl⟩
    have hall := hfirst.all rest hsorted fun s hs => hfits s (List.mem_cons_of_mem _ hs)
    have hunion : {first} ∪ rest.toFinset = g.missing := by
      rw [← hset, List.toFinset_cons, insert_eq]
    rw [hunion] at hall
    refine ⟨hall.runs, ?_, hall.best⟩
    rw [List.foldl_cons, hall.count, List.length_append]
    rfl

/-- Over every run of the feed, of retransmissions and of snapshots. -/
theorem gaps_accounted (events : List FeedEvent) (h : ∀ e ∈ events, e.seq < 2 ^ 64 - 1) :
    Accounted events (events.foldl exec {}) := by
  have hstart : ({} : GapRecovery).Ready := ⟨nofun, Nat.zero_le _, fun _ => rfl⟩
  have hrun := hstart.run h
  have hfits : ∀ m ∈ (events.foldl exec {}).missing, m < 18446744073709551616 := by
    intro m hm
    have := hrun.ready.below m hm
    have := hrun.ready.fits
    omega
  obtain ⟨hruns, hcount, hlargest⟩ := missingRanges_spec hfits
  refine ⟨hrun.ready.below, entries_disjoint hstart h, ?_, ?_, hrun.widest, fun l => ⟨fun hl => hl.unique hruns, ?_⟩, hcount, hlargest⟩
  · rw [hrun.balance]
    simp
  · rw [hrun.gaps]
    simp
  · intro hl
    rw [hl]
    exact hruns

/-- Two gaps, a late packet, a retransmission and a snapshot. -/
theorem gaps_accounted_small :
    Accounted [.observe 1, .observe 5, .observe 9, .observe 3, .onRetransmit 7, .snapshotResync 2]
      ([FeedEvent.observe 1, .observe 5, .observe 9, .observe 3, .onRetransmit 7, .snapshotResync 2].foldl exec {}) :=
  gaps_accounted _ (by decide)

end GapRecovery

end HftLab.Multicast
