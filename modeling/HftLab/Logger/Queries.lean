/-
  HftLab.Logger.Queries — what the queries of `TradeLogger` read between sessions (trade_logger.hpp).

  All of them go through the buffer from its first slot on. That is the order in which the events were logged as long as the ring was
  not written over, or was written over to its end; in between the newest events lie before the oldest (`chronological_iff`).

  Quotients of doubles are taken as exact; the percentile indices are those of the products in double arithmetic.
-/

import HftLab.Logger.TradeLogger
import Mathlib.Algebra.Order.Field.Rat
import Mathlib.Data.List.GetD
import Mathlib.Data.List.Induction
import Mathlib.Data.List.Sort

namespace HftLab.Logger

open Lib List

def EventType.code : EventType → Int
  | .orderSubmit => 0
  | .riskAccept => 1
  | .riskReject => 2
  | .orderFill => 3
  | .orderPartial => 4
  | .orderCancel => 5
  | .killSwitch => 6
  | .systemStart => 7
  | .systemStop => 8

/-- The defaults pass every event. -/
structure Filter where
  orderId : Nat := 0
  type : Int := -1
  symbol : Option (List UInt8) := none

def Filter.admits {D : Type} (f : Filter) (e : TradeEvent D) : Bool :=
  (f.orderId = 0 || e.orderId = f.orderId) && (f.type < 0 || e.eventType.code = f.type) && f.symbol.all fun sym => e.symbol = sym

structure LatencyStats where
  count : Nat := 0
  minNs : Int := 0
  maxNs : Int := 0
  meanNs : Int := 0
  p50Ns : Int := 0
  p90Ns : Int := 0
  p99Ns : Int := 0
  deriving DecidableEq, Repr

def LatencyStats.of (latencies : List Int) : LatencyStats :=
  let cnt := latencies.length
  let sorted := latencies.insertionSort (· ≤ ·)
  { count := cnt
    minNs := sorted.getD 0 0
    maxNs := sorted.getD (cnt - 1) 0
    meanNs := latencies.sum.tdiv cnt
    p50Ns := sorted.getD (cnt / 2) 0
    p90Ns := sorted.getD (cnt * 90 / 100) 0
    p99Ns := sorted.getD (min (cnt * 99 / 100) (cnt - 1)) 0 }

/-- The loop of a query: the matches, as long as `out` has room. -/
def collect {D : Type} (p : TradeEvent D → Bool) (maxOut : Int) : List (TradeEvent D) → Int → List (TradeEvent D)
  | [], _ => []
  | e :: es, count =>
    if count < maxOut then if p e then e :: collect p maxOut es (count + 1) else collect p maxOut es count
    else []

namespace TradeLogger

variable {D : Type} (s : TradeLogger D)

/-- The events from the first slot on. -/
def buffered : List (TradeEvent D) := (List.range s.totalEvents).map s.events

def getEventsFiltered (f : Filter) (maxOut : Int) : List (TradeEvent D) := collect f.admits maxOut s.buffered 0

def getOrderTrail (orderId : Nat) (maxOut : Int) : List (TradeEvent D) := s.getEventsFiltered { orderId } maxOut

def getEventsInRange (startWallNs endWallNs maxOut : Int) : List (TradeEvent D) :=
  collect (fun e => startWallNs ≤ e.wallNs && e.wallNs ≤ endWallNs) maxOut s.buffered 0

def timeSpanMs : ℚ :=
  if s.totalEvents < 2 then 0
  else (((s.events (s.totalEvents - 1)).monoNs - (s.events 0).monoNs : Int) : ℚ) / 1000000

def getLatencyStats : LatencyStats :=
  if s.totalEvents < 2 then {}
  else .of ((List.range (s.totalEvents - 1)).map fun i => (s.events (i + 1)).monoNs - (s.events i).monoNs)

/-- Whether the file was opened, and what it holds then. -/
def exportBinary (opened : Bool) (wallNs : Int) (file : List (FileItem D)) : Bool × List (FileItem D) :=
  if opened then (true, file ++ .header { createdWallNs := wallNs } :: s.buffered.map .record) else (false, file)

def run (ringMode : Bool) (maxEvents : Nat) (events : Nat → TradeEvent D) (calls : List (Call D)) : TradeLogger D :=
  calls.foldl (fun s c => (s.log c).2) { events, maxEvents, ringMode }

end TradeLogger

/-! ## What they are to return -/

/-- The events of the calls that were not refused. -/
def written {D : Type} (ringMode : Bool) (maxEvents : Nat) (calls : List (Call D)) : List (TradeEvent D) :=
  (if ringMode then calls else calls.take maxEvents).mapIdx fun i c => c.event (i + 1)

/-- The last of them. -/
def retained {D : Type} (ringMode : Bool) (maxEvents : Nat) (calls : List (Call D)) : List (TradeEvent D) :=
  (written ringMode maxEvents calls).drop ((written ringMode maxEvents calls).length - maxEvents)

def gaps {D : Type} (l : List (TradeEvent D)) : List Int := List.zipWith (fun e e' => e'.monoNs - e.monoNs) l l.tail

structure Latencies (gaps : List Int) (stats : LatencyStats) : Prop where
  count : stats.count = gaps.length
  mean : stats.meanNs = gaps.sum.tdiv gaps.length
  least : gaps ≠ [] → IsLeast {x | x ∈ gaps} stats.minNs
  greatest : gaps ≠ [] → IsGreatest {x | x ∈ gaps} stats.maxNs
  percentiles : gaps ≠ [] → stats.p50Ns ∈ gaps ∧ stats.p90Ns ∈ gaps ∧ stats.p99Ns ∈ gaps
  nonneg : 0 ≤ stats.minNs

/-- From the oldest to the newest, in milliseconds. -/
def spanMs {D : Type} (l : List (TradeEvent D)) : ℚ :=
  match l.head?, l.getLast? with
  | some oldest, some newest => ((newest.monoNs - oldest.monoNs : Int) : ℚ) / 1000000
  | _, _ => 0

namespace TradeLogger

variable {D : Type}

/-- The queries return the events of `l`, in their order. -/
structure Chronological (s : TradeLogger D) (l : List (TradeEvent D)) : Prop where
  sorted : l.Pairwise fun e e' => e.sequenceNo < e'.sequenceNo
  filtered : ∀ f maxOut, s.getEventsFiltered f maxOut = (l.filter f.admits).take maxOut.toNat
  trail : ∀ orderId maxOut,
    s.getOrderTrail orderId maxOut = (l.filter fun e => orderId = 0 || e.orderId = orderId).take maxOut.toNat
  inRange : ∀ startWallNs endWallNs maxOut, s.getEventsInRange startWallNs endWallNs maxOut =
    (l.filter fun e => startWallNs ≤ e.wallNs && e.wallNs ≤ endWallNs).take maxOut.toNat
  exported : ∀ wallNs file, s.exportBinary true wallNs file = (true, file ++ .header { createdWallNs := wallNs } :: l.map .record)
  span : s.timeSpanMs = spanMs l
  latency : Latencies (gaps l) s.getLatencyStats

end TradeLogger

/-! ## The loops -/

section

variable {D : Type} {l : List (TradeEvent D)}

theorem collect_eq (p : TradeEvent D → Bool) (maxOut : Int) (l : List (TradeEvent D)) (count : Int) :
    collect p maxOut l count = (l.filter p).take (maxOut - count).toNat := by
  induction l generalizing count with
  | nil => simp [collect]
  | cons e l ih =>
    unfold collect
    by_cases hroom : count < maxOut
    · rw [if_pos hroom]
      cases hp : p e with
      | false => simp [hp, ih]
      | true =>
        have hnext : (maxOut - count).toNat = (maxOut - (count + 1)).toNat + 1 := by omega
        simp [hp, ih, hnext]
    · rw [if_neg hroom, Int.toNat_of_nonpos (by omega), take_zero]

theorem gaps_length (l : List (TradeEvent D)) : (gaps l).length = l.length - 1 := by
  unfold gaps
  rw [length_zipWith, length_tail]
  omega

theorem gaps_range (events : Nat → TradeEvent D) (n : Nat) :
    gaps ((List.range n).map events) = (List.range (n - 1)).map fun i => (events (i + 1)).monoNs - (events i).monoNs := by
  apply ext_getElem
  · simp [gaps_length]
  · intro i _ _
    simp [gaps]

/-- Clocks that do not go back leave no negative gap. -/
theorem gaps_nonneg (h : l.Pairwise fun e e' => e.monoNs ≤ e'.monoNs) : ∀ x ∈ gaps l, 0 ≤ x := by
  intro x hx
  obtain ⟨i, hi, rfl⟩ := getElem_of_mem hx
  rw [gaps_length] at hi
  have hle := pairwise_iff_getElem.mp h i (i + 1) (by omega) (by omega) (by omega)
  simp only [gaps, getElem_zipWith, getElem_tail]
  omega

theorem latencies_of {l : List Int} (h : ∀ x ∈ l, 0 ≤ x) : Latencies l (.of l) := by
  have hperm := l.perm_insertionSort (· ≤ ·)
  have hsorted : (l.insertionSort (· ≤ ·)).Pairwise (· ≤ ·) := pairwise_insertionSort _ l
  have hlen := hperm.length_eq
  have hmem : ∀ i, i < l.length → (l.insertionSort (· ≤ ·)).getD i 0 ∈ l := by
    intro i hi
    rw [getD_eq_getElem _ _ (by omega)]
    exact hperm.mem_iff.mp (getElem_mem _)
  refine ⟨rfl, rfl, ?_, ?_, ?_, ?_⟩
  · intro hne
    have hpos := length_pos_iff.mpr hne
    refine ⟨hmem 0 hpos, ?_⟩
    intro x hx
    obtain ⟨i, hi, rfl⟩ := getElem_of_mem (hperm.mem_iff.mpr hx)
    show (l.insertionSort (· ≤ ·)).getD 0 0 ≤ _
    rw [getD_eq_getElem _ _ (by omega)]
    rcases Nat.eq_zero_or_pos i with rfl | hi0
    · exact Int.le_refl _
    · exact pairwise_iff_getElem.mp hsorted 0 i (by omega) hi hi0
  · intro hne
    have hpos := length_pos_iff.mpr hne
    refine ⟨hmem (l.length - 1) (by omega), ?_⟩
    intro x hx
    obtain ⟨i, hi, rfl⟩ := getElem_of_mem (hperm.mem_iff.mpr hx)
    show _ ≤ (l.insertionSort (· ≤ ·)).getD (l.length - 1) 0
    rw [getD_eq_getElem _ _ (by omega)]
    rcases Nat.eq_or_lt_of_le (show i ≤ l.length - 1 by omega) with rfl | hlt
    · exact Int.le_refl _
    · exact pairwise_iff_getElem.mp hsorted i (l.length - 1) hi (by omega) hlt
  · intro hne
    have hpos := length_pos_iff.mpr hne
    exact ⟨hmem _ (by omega), hmem _ (by omega), hmem _ (by omega)⟩
  · show 0 ≤ (l.insertionSort (· ≤ ·)).getD 0 0
    rcases Nat.eq_zero_or_pos l.length with hz | hpos
    · rw [getD_eq_default _ _ (by omega)]
    · exact h _ (hmem 0 hpos)

end

namespace TradeLogger

variable {D : Type} {s : TradeLogger D} {l : List (TradeEvent D)}

/-! ## The order of the slots -/

theorem buffered_length (s : TradeLogger D) : s.buffered.length = s.totalEvents := by
  unfold buffered
  rw [length_map, length_range]

theorem Recorded.totalEvents (h : s.Recorded l) (hhead : s.head = l.length) : s.totalEvents = min l.length s.maxEvents := by
  unfold TradeLogger.totalEvents
  rw [hhead]
  cases hr : s.ringMode with
  | false =>
    have hroom := h.room hr
    rw [if_neg Bool.false_ne_true]
    omega
  | true => rw [if_pos rfl]

/-- The last events lie from the first slot on exactly when the ring is not written over, or to its end. -/
theorem Recorded.buffered_iff (h : s.Recorded l) (hhead : s.head = l.length) (hcap : s.ringMode → 0 < s.maxEvents) :
    s.buffered = l.drop (l.length - s.maxEvents) ↔
      s.ringMode = false ∨ l.length ≤ s.maxEvents ∨ l.length % s.maxEvents = 0 := by
  have htotal := h.totalEvents hhead
  have hsome : ∀ i, (hi : i < s.totalEvents) → s.buffered[i]? = some (s.events i) := by
    intro i hi
    unfold buffered
    rw [List.getElem?_map, List.getElem?_range hi]
    rfl
  constructor
  · intro heq
    cases hr : s.ringMode with
    | false => exact .inl rfl
    | true =>
      right
      by_cases hle : l.length ≤ s.maxEvents
      · exact .inl hle
      · right
        have hpos := hcap hr
        have hbase : l.length - s.maxEvents < l.length := by omega
        have hzero : s.slot 0 = 0 := by
          unfold slot
          rw [hr, if_pos rfl, Nat.zero_mod]
        obtain ⟨j, -, hj, hslot, hfresh⟩ := exists_fresh s.slot (show 0 < l.length by omega)
        have hfirst := hsome 0 (by omega)
        have hlast := h.get hj hfresh
        rw [hslot, hzero] at hlast
        rw [heq, List.getElem?_drop, Nat.add_zero, List.getElem?_eq_getElem hbase, hlast] at hfirst
        have hnumber := congrArg TradeEvent.sequenceNo (Option.some.inj hfirst)
        rw [h.number hbase, h.number hj] at hnumber
        have hmod : j % s.maxEvents = 0 := by
          have hslotj : s.slot j = 0 := hslot.trans hzero
          unfold slot at hslotj
          rwa [hr, if_pos rfl] at hslotj
        have hsplit : l.length = j + s.maxEvents := by omega
        rw [hsplit, Nat.add_mod_right, hmod]
  · intro hor
    apply ext_getElem?
    intro i
    rw [List.getElem?_drop]
    by_cases hi : i < s.totalEvents
    · have hlt : l.length - s.maxEvents + i < l.length := by omega
      have hslot : s.slot (l.length - s.maxEvents + i) = i := by
        unfold slot
        cases hr : s.ringMode with
        | false =>
          have hroom := h.room hr
          rw [if_neg Bool.false_ne_true]
          omega
        | true =>
          rw [if_pos rfl]
          rw [hr] at hor
          have hmod : (l.length - s.maxEvents) % s.maxEvents = 0 := by
            rcases hor with habsurd | hle | hmod
            · cases habsurd
            · rw [Nat.sub_eq_zero_of_le hle, Nat.zero_mod]
            · by_cases hle : l.length ≤ s.maxEvents
              · rw [Nat.sub_eq_zero_of_le hle, Nat.zero_mod]
              · rw [← Nat.mod_eq_sub_mod (by omega), hmod]
          rw [Nat.add_mod, hmod, Nat.zero_add, Nat.mod_mod, Nat.mod_eq_of_lt (by omega)]
      have hfresh := (fresh_iff hcap (i := l.length - s.maxEvents + i) (m := l.length)).mpr fun _ => by omega
      have hget := h.get hlt hfresh
      rw [hslot] at hget
      rw [hsome i hi, hget, List.getElem?_eq_getElem hlt]
    · rw [List.getElem?_eq_none (by rw [buffered_length]; omega), List.getElem?_eq_none (by omega)]

/-! ## The queries -/

theorem spanMs_eq (h : s.buffered = l) : s.timeSpanMs = spanMs l := by
  have hlen := buffered_length s
  have hsome : ∀ i, i < s.totalEvents → l[i]? = some (s.events i) := by
    intro i hi
    rw [← h]
    unfold buffered
    rw [List.getElem?_map, List.getElem?_range hi]
    rfl
  rw [h] at hlen
  unfold timeSpanMs spanMs
  split
  · cases l with
    | nil => rfl
    | cons e l =>
      cases l with
      | nil => simp
      | cons e' l =>
        rw [length_cons, length_cons] at hlen
        omega
  · rw [List.head?_eq_getElem?, List.getLast?_eq_getElem?, hsome 0 (by omega), hlen, hsome (s.totalEvents - 1) (by omega)]

theorem latency_of (h : s.buffered = l) (hmono : l.Pairwise fun e e' => e.monoNs ≤ e'.monoNs) :
    Latencies (gaps l) s.getLatencyStats := by
  have hlen := buffered_length s
  rw [h] at hlen
  unfold getLatencyStats
  split
  · have hnil : gaps l = [] := by
      apply length_eq_zero_iff.mp
      rw [gaps_length]
      omega
    rw [hnil]
    exact ⟨rfl, rfl, fun hne => absurd rfl hne, fun hne => absurd rfl hne, fun hne => absurd rfl hne, Int.le_refl 0⟩
  · have hgaps := gaps_range s.events s.totalEvents
    have hbuf : (List.range s.totalEvents).map s.events = l := h
    rw [hbuf] at hgaps
    rw [← hgaps]
    exact latencies_of (gaps_nonneg hmono)

/-- Where the buffer is in order, so is what the queries return. -/
theorem chronological_of (h : s.buffered = l) (hsorted : l.Pairwise fun e e' => e.sequenceNo < e'.sequenceNo)
    (hmono : l.Pairwise fun e e' => e.monoNs ≤ e'.monoNs) : s.Chronological l where
  sorted := hsorted
  filtered f maxOut := by
    unfold getEventsFiltered
    rw [collect_eq, h, Int.sub_zero]
  trail orderId maxOut := by
    have hadmits : (Filter.admits { orderId } : TradeEvent D → Bool) = fun e => orderId = 0 || e.orderId = orderId := by
      funext e
      simp [Filter.admits]
    unfold getOrderTrail getEventsFiltered
    rw [collect_eq, h, Int.sub_zero, hadmits]
  inRange startWallNs endWallNs maxOut := by
    unfold getEventsInRange
    rw [collect_eq, h, Int.sub_zero]
  exported wallNs file := by
    unfold exportBinary
    rw [if_pos rfl, h]
  span := spanMs_eq h
  latency := latency_of h hmono

theorem Chronological.buffered (h : s.Chronological l) : s.buffered = l := by
  have hexported := h.exported 0 []
  unfold exportBinary at hexported
  rw [if_pos rfl, nil_append, nil_append] at hexported
  have hmap := (List.cons.inj (Prod.mk.inj hexported).2).2
  exact map_injective_iff.mpr (fun _ _ heq => FileItem.record.inj heq) hmap

/-! ## Runs -/

variable {ringMode : Bool} {maxEvents : Nat} {calls : List (Call D)}

theorem written_length (ringMode : Bool) (maxEvents : Nat) (calls : List (Call D)) :
    (written ringMode maxEvents calls).length = if ringMode then calls.length else min maxEvents calls.length := by
  unfold written
  cases ringMode <;> simp

theorem written_getElem {i : Nat} (hi : i < (written ringMode maxEvents calls).length) :
    ∃ c, calls[i]? = some c ∧ (written ringMode maxEvents calls)[i] = c.event (i + 1) := by
  have hlen := written_length ringMode maxEvents calls
  have hcalls : i < calls.length := by
    rw [hlen] at hi
    split at hi <;> omega
  refine ⟨calls[i], List.getElem?_eq_getElem hcalls, ?_⟩
  unfold written
  cases ringMode <;> simp

/-- One more call. -/
theorem written_concat (c : Call D) (hroom : ringMode ∨ (written ringMode maxEvents calls).length < maxEvents) :
    written ringMode maxEvents (calls ++ [c]) =
      written ringMode maxEvents calls ++ [c.event ((written ringMode maxEvents calls).length + 1)] := by
  have hlen := written_length ringMode maxEvents calls
  rw [hlen] at hroom ⊢
  unfold written
  cases ringMode with
  | true => simp [mapIdx_append]
  | false =>
    have hlt : calls.length < maxEvents := by
      rcases hroom with habsurd | hlt
      · cases habsurd
      · simp only [Bool.false_eq_true, if_false] at hlt
        omega
    have hmin : min maxEvents calls.length = calls.length := by omega
    simp only [Bool.false_eq_true, if_false]
    rw [hmin, take_of_length_le (by simp; omega), take_of_length_le (by omega), mapIdx_append]
    simp

theorem written_full (c : Call D) (hring : ringMode = false) (hfull : maxEvents ≤ (written ringMode maxEvents calls).length) :
    written ringMode maxEvents (calls ++ [c]) = written ringMode maxEvents calls := by
  have hlen := written_length ringMode maxEvents calls
  subst hring
  simp only [Bool.false_eq_true, if_false] at hlen
  unfold written
  simp only [Bool.false_eq_true, if_false]
  rw [take_append_of_le_length (by omega)]

/-- What a run leaves in the buffer. -/
structure Ran (ringMode : Bool) (maxEvents : Nat) (calls : List (Call D)) (s : TradeLogger D) : Prop where
  recorded : s.Recorded (written ringMode maxEvents calls)
  head : s.head = (written ringMode maxEvents calls).length
  ringMode : s.ringMode = ringMode
  maxEvents : s.maxEvents = maxEvents

theorem Ran.log (h : Ran ringMode maxEvents calls s) (c : Call D) : Ran ringMode maxEvents (calls ++ [c]) (s.log c).2 := by
  unfold TradeLogger.log
  cases hfull : s.full with
  | true =>
    rw [if_pos rfl]
    unfold full at hfull
    rw [h.ringMode, h.maxEvents, h.head] at hfull
    have hlinear : ringMode = false ∧ maxEvents ≤ (written ringMode maxEvents calls).length := by simpa using hfull
    have hsame := written_full c hlinear.1 hlinear.2
    exact ⟨hsame ▸ h.recorded, hsame ▸ h.head, h.ringMode, h.maxEvents⟩
  | false =>
    rw [if_neg Bool.false_ne_true]
    have hwrite := h.recorded.write h.head hfull c
    unfold full at hfull
    rw [h.ringMode, h.maxEvents, h.head] at hfull
    have hroom : ringMode ∨ (written ringMode maxEvents calls).length < maxEvents := by
      cases ringMode with
      | true => exact .inl rfl
      | false => exact .inr (by simpa using hfull)
    have hnext := written_concat c hroom
    have hrecorded : ((s.write c).publish).Recorded (written ringMode maxEvents (calls ++ [c])) := by
      rw [hnext]
      exact { hwrite with }
    refine ⟨hrecorded, ?_, h.ringMode, h.maxEvents⟩
    show s.head + 1 = _
    rw [hnext, length_append, length_singleton, h.head]

theorem run_ran (ringMode : Bool) (maxEvents : Nat) (events : Nat → TradeEvent D) (calls : List (Call D)) :
    Ran ringMode maxEvents calls (run ringMode maxEvents events calls) := by
  induction calls using List.reverseRecOn with
  | nil =>
    have hnil : written ringMode maxEvents ([] : List (Call D)) = [] := by
      unfold written
      cases ringMode <;> simp
    exact ⟨hnil ▸ recorded_fresh events maxEvents ringMode, by rw [hnil]; rfl, rfl, rfl⟩
  | append_singleton calls c ih =>
    unfold run at ih ⊢
    rw [foldl_append, foldl_cons, foldl_nil]
    exact ih.log c

theorem written_mono (h : calls.Pairwise fun c c' => c.monoNs ≤ c'.monoNs) :
    (written ringMode maxEvents calls).Pairwise fun e e' => e.monoNs ≤ e'.monoNs := by
  rw [pairwise_iff_getElem]
  intro i j hi hj hij
  obtain ⟨c, hc, hei⟩ := written_getElem hi
  obtain ⟨c', hc', hej⟩ := written_getElem hj
  obtain ⟨hci, rfl⟩ := List.getElem?_eq_some_iff.mp hc
  obtain ⟨hcj, rfl⟩ := List.getElem?_eq_some_iff.mp hc'
  rw [hei, hej]
  exact pairwise_iff_getElem.mp h i j hci hcj hij

theorem Recorded.sorted (h : s.Recorded l) : l.Pairwise fun e e' => e.sequenceNo < e'.sequenceNo := by
  rw [pairwise_iff_getElem]
  intro i j hi hj hij
  rw [h.number hi, h.number hj]
  omega

/-- After every run of calls with clocks that do not go back. -/
theorem chronological_iff (ringMode : Bool) (maxEvents : Nat) (events : Nat → TradeEvent D) (calls : List (Call D))
    (hcap : ringMode = true → 0 < maxEvents) (hclock : calls.Pairwise fun c c' => c.monoNs ≤ c'.monoNs) :
    (run ringMode maxEvents events calls).Chronological (retained ringMode maxEvents calls) ↔
      ringMode = false ∨ calls.length ≤ maxEvents ∨ calls.length % maxEvents = 0 := by
  have hran := run_ran ringMode maxEvents events calls
  have hlen := written_length ringMode maxEvents calls
  have hbuf := hran.recorded.buffered_iff hran.head (by rwa [hran.ringMode, hran.maxEvents])
  rw [hran.ringMode, hran.maxEvents] at hbuf
  have hcond : (ringMode = false ∨ (written ringMode maxEvents calls).length ≤ maxEvents ∨
      (written ringMode maxEvents calls).length % maxEvents = 0) ↔
      ringMode = false ∨ calls.length ≤ maxEvents ∨ calls.length % maxEvents = 0 := by
    cases ringMode with
    | false => simp
    | true => rw [hlen, if_pos rfl]
  rw [← hcond, ← hbuf]
  constructor
  · exact fun h => h.buffered
  · intro h
    exact chronological_of h (hran.recorded.sorted.sublist (List.drop_sublist _ _)) ((written_mono hclock).sublist (List.drop_sublist _ _))

/-- Calls at the times 1, 2, ..., each for an order of its own. -/
def sampleCalls (n : Nat) : List (Call Nat) :=
  (List.range n).map fun i => { entry := sampleEntry (i + 1), monoNs := i + 1, wallNs := i + 1 }

theorem chronological_iff_sample :
    (run true 2 (fun _ => (sampleEntry 0).event 0 0 0) (sampleCalls 4)).Chronological (retained true 2 (sampleCalls 4)) ↔
      true = false ∨ (sampleCalls 4).length ≤ 2 ∨ (sampleCalls 4).length % 2 = 0 :=
  chronological_iff true 2 _ (sampleCalls 4) (fun _ => by decide) (by decide)

/-- A ring of two with three events has a gap back in time. -/
theorem ring_gap_negative :
    ¬(run true 2 (fun _ => (sampleEntry 0).event 0 0 0) (sampleCalls 3)).Chronological (retained true 2 (sampleCalls 3)) := by
  intro h
  have hnonneg := h.latency.nonneg
  have hmin : (run true 2 (fun _ => (sampleEntry 0).event 0 0 0) (sampleCalls 3)).getLatencyStats.minNs = -1 := by decide +kernel
  omega

end TradeLogger

end HftLab.Logger
