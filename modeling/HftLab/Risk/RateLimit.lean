/-
  HftLab.Risk.RateLimit — the order-rate limit of `check_order`.

  The ring holds the times of the calls that passed, the oldest first, and a check drops those that are a second old
  before it counts. So it counts the passes of the last second (`Slides`), as long as the ring does not saturate: one of
  its 4096 cells stays empty, and with 4095 entries it drops the oldest for a new one. A limit below 4096 never lets it
  come to that; a limit of 4096 is never reached (`rate_limit_iff`).
-/

import HftLab.Risk.Exposure
import HftLab.Lib.Ring
import Mathlib.Data.List.TakeWhile

namespace HftLab.Risk

open Lib List
open HftLab.Oms (Side symToKey)

/-! ## The ring as a list -/

namespace TimestampRing

/-- The entries of the ring, the oldest first. -/
structure Holds (r : TimestampRing) (l : List Int) : Prop where
  length : l.length < N
  head : r.head < N
  tail : r.tail = (r.head + l.length) % N
  cells : RingHolds r.ts N r.head l

variable {r : TimestampRing} {l : List Int} {t x cutoff : Int} {n : Nat}

theorem new_holds : ({} : TimestampRing).Holds [] := ⟨by decide, by decide, rfl, .nil _ _ _⟩

theorem count_lt (r : TimestampRing) : r.count < N := Nat.mod_lt _ (by decide)

theorem Holds.count (h : r.Holds l) : r.count = l.length := by
  obtain ⟨hl, hh, ht, -⟩ := h
  unfold TimestampRing.count
  rw [ht]
  unfold N at hl hh ⊢
  omega

theorem Holds.empty_iff (h : r.Holds l) : r.head = r.tail ↔ l = [] := by
  obtain ⟨hl, hh, ht, -⟩ := h
  rw [ht, ← length_eq_zero_iff]
  unfold N at hl hh ⊢
  omega

theorem Holds.oldest (h : r.Holds (x :: l)) : r.ts r.head = x := by
  have hx := h.cells 0 x rfl
  rwa [Nat.add_zero, Nat.mod_eq_of_lt h.head] at hx

theorem Holds.drop (h : r.Holds (x :: l)) : ({ r with head := (r.head + 1) % N } : TimestampRing).Holds l := by
  obtain ⟨hl, hh, ht, hc⟩ := h
  rw [length_cons] at hl ht
  refine ⟨by omega, Nat.mod_lt _ (by decide), ?_, (ringHolds_append (l := [x]).mp hc).2⟩
  rw [ht]
  unfold N at hl hh ⊢
  dsimp only
  omega

/-- Entries up to the cutoff are dropped, from the oldest on. -/
theorem Holds.evictFrom (h : r.Holds l) (hn : l.length ≤ n) :
    (r.evictFrom cutoff n).Holds (l.dropWhile fun a => decide (a ≤ cutoff)) := by
  induction n generalizing r l with
  | zero =>
    obtain rfl := length_eq_zero_iff.mp (Nat.le_zero.mp hn)
    exact h
  | succ n ih =>
    unfold TimestampRing.evictFrom
    cases l with
    | nil =>
      rw [if_neg fun hc => hc.1 (h.empty_iff.mpr rfl)]
      exact h
    | cons x l =>
      have hne : r.head ≠ r.tail := fun hc => by cases h.empty_iff.mp hc
      rw [h.oldest]
      by_cases hx : x ≤ cutoff
      · rw [if_pos ⟨hne, hx⟩, dropWhile_cons_of_pos (by simpa using hx)]
        exact ih h.drop (Nat.le_of_succ_le_succ hn)
      · rw [if_neg fun hc => hx hc.2, dropWhile_cons_of_neg (by simpa using hx)]
        exact h

theorem Holds.evict (h : r.Holds l) (cutoff : Int) :
    (r.evict cutoff).Holds (l.dropWhile fun a => decide (a ≤ cutoff)) := h.evictFrom h.length.le

/-- While two cells are empty a new entry takes one. -/
theorem Holds.push (h : r.Holds l) (hl : l.length + 1 < N) (t : Int) : (r.push t).Holds (l ++ [t]) := by
  obtain ⟨-, hh, ht, hc⟩ := h
  have hne : (r.tail + 1) % N ≠ r.head := by
    rw [ht]
    unfold N at hl hh ⊢
    omega
  have hcells : RingHolds (Function.update r.ts r.tail t) N r.head (l ++ [t]) := by
    refine ringHolds_append.mpr ⟨hc.update t fun i hi => ?_, fun i y hy => ?_⟩
    · rw [ht]
      unfold N at hl hh ⊢
      omega
    · obtain ⟨rfl, rfl⟩ : i = 0 ∧ t = y := by
        cases i with
        | zero => exact ⟨rfl, Option.some.inj hy⟩
        | succ i => cases hy
      rw [Nat.add_zero, Nat.mod_mod, ← ht, Function.update_self]
  unfold TimestampRing.push
  rw [if_neg hne]
  refine ⟨?_, hh, ?_, hcells⟩
  · simpa using hl
  · dsimp only
    rw [ht, length_append, length_singleton]
    unfold N at hl hh ⊢
    omega

end TimestampRing

/-! ## Windows -/

/-- In the second that ends with `t`. -/
def inSecond (t a : Int) : Bool := t - 1000000000 < a && a ≤ t

section

variable {l : List Int} {t u a : Int}

theorem inSecond_iff : inSecond t a ↔ t - 1000000000 < a ∧ a ≤ t := by
  unfold inSecond
  rw [Bool.and_eq_true, decide_eq_true_eq, decide_eq_true_eq]

/-- What is left of times in order once those a second old are dropped. -/
theorem dropWhile_inSecond (hs : l.Pairwise (· ≤ ·)) (hle : ∀ a ∈ l, a ≤ t) :
    (l.dropWhile fun a => decide (a ≤ t - 1000000000)) = l.filter (inSecond t) := by
  induction l with
  | nil => rfl
  | cons a l ih =>
    obtain ⟨hfirst, hs⟩ := pairwise_cons.mp hs
    have hat := hle a mem_cons_self
    by_cases ha : a ≤ t - 1000000000
    · have hout : ¬ inSecond t a := fun hc => absurd (inSecond_iff.mp hc).1 (not_lt.mpr ha)
      rw [dropWhile_cons_of_pos (by simpa using ha), filter_cons_of_neg hout]
      exact ih hs fun b hb => hle b (mem_cons_of_mem a hb)
    · rw [dropWhile_cons_of_neg (by simpa using ha), filter_eq_self.mpr]
      intro b hb
      refine inSecond_iff.mpr ⟨?_, hle b hb⟩
      rcases mem_cons.mp hb with rfl | hb
      · exact not_le.mp ha
      · exact (not_le.mp ha).trans_le (hfirst b hb)

/-- No second holds more of the times up to `t` than the one that ends with `t`, if it holds `t`. -/
theorem countP_inSecond_le (hle : ∀ a ∈ l, a ≤ t) (ht : inSecond u t) :
    l.countP (inSecond u) ≤ l.countP (inSecond t) := by
  refine countP_mono_left fun a ha hu => ?_
  have h1 := inSecond_iff.mp ht
  have h2 := inSecond_iff.mp hu
  exact inSecond_iff.mpr ⟨by omega, hle a ha⟩

end

/-! ## Calls that reach the rate check -/

section

variable {D : Type} (F : Doubles D)

/-- No earlier check of `check_order` fails. -/
def RiskManager.reachesRate (r : RiskManager D) (key : Nat) (side : Side) (price : D) (quantity : Int) : Bool :=
  (r.orderBreach F key side price quantity).isNone && (r.checkPnlBreakers F).1.isNone

/-- The times of the calls of a run that reach the rate check, and which passed it. -/
def RiskManager.rateCalls : RiskManager D → List (Op D) → List (Int × Bool)
  | _, [] => []
  | r, .checkOrder symbol side price quantity now :: ops =>
    let rest := RiskManager.rateCalls (r.exec F (.checkOrder symbol side price quantity now)) ops
    if r.reachesRate F (symToKey symbol) side price quantity then (now, (r.checkRateLimit now).1) :: rest else rest
  | r, op :: ops => RiskManager.rateCalls (r.exec F op) ops

/-- The time of a check. -/
def Op.time : Op D → Option Int
  | .checkOrder _ _ _ _ now => some now
  | _ => none

/-- The daily reset empties the ring. -/
def Op.isReset : Op D → Bool
  | .resetDaily => true
  | _ => false

end

/-- The times of the calls that passed. -/
def passed (calls : List (Int × Bool)) : List Int := (calls.filter (·.2)).map (·.1)

/-- With the passes `A` before: no second has more than `L` passes, and a call is refused only when `L` passed in the
    second before it. -/
structure RateKept (L : Int) (A : List Int) (calls : List (Int × Bool)) : Prop where
  window : ∀ u, (A ++ passed calls).countP (inSecond u) ≤ L
  refused : ∀ pre a post, calls = pre ++ (a, false) :: post → L ≤ (A ++ passed pre).countP (inSecond a)

section

variable {D : Type} {F : Doubles D} {r : RiskManager D} {l A : List Int} {a t now L : Int} {op : Op D} {ops : List (Op D)}
  {calls : List (Int × Bool)} {symbol : List UInt8} {side : Side} {price : D} {quantity : Int}

theorem RateKept.pass (h : RateKept L (A ++ [a]) calls) : RateKept L A ((a, true) :: calls) := by
  constructor
  · intro u
    have hu := h.window u
    rwa [append_assoc] at hu
  · intro pre b post hcalls
    cases pre with
    | nil => cases hcalls
    | cons c pre =>
      obtain ⟨rfl, hrest⟩ := List.cons.inj hcalls
      have hb := h.refused pre b post hrest
      rwa [append_assoc] at hb

theorem RateKept.refuse (h : RateKept L A calls) (ha : L ≤ A.countP (inSecond a)) : RateKept L A ((a, false) :: calls) := by
  constructor
  · exact h.window
  · intro pre b post hcalls
    cases pre with
    | nil =>
      obtain ⟨hab, -⟩ := List.cons.inj hcalls
      cases hab
      simpa [passed] using ha
    | cons c pre =>
      obtain ⟨rfl, hrest⟩ := List.cons.inj hcalls
      exact h.refused pre b post hrest

/-! ## Below the capacity -/

/-- After the passes `A` and a call at `t`: the ring holds all of them but some that are a second old. -/
structure Slides (L : Int) (A : List Int) (t : Int) (r : RiskManager D) : Prop where
  limit : r.limits.maxOrdersPerSecond = L
  ring : ∃ old l, A = old ++ l ∧ r.rateRing.Holds l ∧ ∀ a ∈ old, a ≤ t - 1000000000
  sorted : A.Pairwise (· ≤ ·)
  le : ∀ a ∈ A, a ≤ t
  window : ∀ u, A.countP (inSecond u) ≤ L

theorem Slides.congr {r' : RiskManager D} (h : Slides L A t r) (hlimits : r'.limits = r.limits)
    (hring : r'.rateRing = r.rateRing) : Slides L A t r' := by
  obtain ⟨h1, h2, h3, h4, h5⟩ := h
  exact ⟨hlimits ▸ h1, hring ▸ h2, h3, h4, h5⟩

/-- At `now` the ring is left with the passes of the last second. -/
theorem Slides.evict (h : Slides L A t r) (hnow : t ≤ now) :
    ∃ old l, A = old ++ l ∧ (r.rateRing.evict (now - 1000000000)).Holds l ∧ (∀ a ∈ old, a ≤ now - 1000000000) ∧
      l.length = A.countP (inSecond now) := by
  obtain ⟨old, l, rfl, hholds, hold⟩ := h.ring
  obtain ⟨-, hsorted, -⟩ := pairwise_append.mp h.sorted
  have hdrop := dropWhile_inSecond hsorted fun a ha => (h.le a (mem_append_right old ha)).trans hnow
  have hpast : ∀ a ∈ old ++ l.takeWhile (fun a => decide (a ≤ now - 1000000000)), a ≤ now - 1000000000 := by
    intro a ha
    rcases mem_append.mp ha with ha | ha
    · have := hold a ha
      omega
    · simpa using mem_takeWhile_imp ha
  refine ⟨old ++ l.takeWhile (fun a => decide (a ≤ now - 1000000000)), l.dropWhile (fun a => decide (a ≤ now - 1000000000)),
    ?_, hholds.evict _, hpast, ?_⟩
  · rw [append_assoc, takeWhile_append_dropWhile]
  · have hnone : old.countP (inSecond now) = 0 := by
      refine countP_eq_zero.mpr fun a ha hin => ?_
      have hle := hpast a (mem_append_left _ ha)
      exact absurd (inSecond_iff.mp hin).1 (not_lt.mpr hle)
    rw [countP_append, hnone, Nat.zero_add, hdrop, countP_eq_length_filter]

/-- One more pass, where the last second has room for it. -/
theorem window_append (hle : ∀ a ∈ A, a ≤ now) (hwindow : ∀ u, A.countP (inSecond u) ≤ L)
    (hroom : A.countP (inSecond now) < L) (u : Int) : (A ++ [now]).countP (inSecond u) ≤ L := by
  rw [countP_append, countP_singleton]
  by_cases hu : inSecond u now
  · have hmono := countP_inSecond_le hle hu
    rw [if_pos hu]
    omega
  · rw [if_neg hu]
    exact hwindow u

/-- A call that reaches the rate check passes if the last second has room for it, and is refused if not. -/
theorem Slides.check (h : Slides L A t r) (hL : L < 4096) (hnow : t ≤ now) (h0 : 0 ≤ now) (h64 : IsInt64 now) :
    (r.checkRateLimit now).1 = true ∧ Slides L (A ++ [now]) now (r.checkRateLimit now).2 ∨
    (r.checkRateLimit now).1 = false ∧ L ≤ A.countP (inSecond now) ∧ Slides L A now (r.checkRateLimit now).2 := by
  obtain ⟨old, l, hA, hholds, hold, hlength⟩ := h.evict hnow
  have hle : ∀ a ∈ A, a ≤ now := fun a ha => (h.le a ha).trans hnow
  have hcut : i64 (now - 1000000000) = now - 1000000000 := i64_eq ⟨by omega, by have := h64.2; omega⟩
  unfold RiskManager.checkRateLimit
  dsimp only
  rw [hcut, hholds.count, hlength, h.limit]
  by_cases hfull : L ≤ (A.countP (inSecond now) : Nat)
  · rw [if_pos hfull]
    exact .inr ⟨rfl, hfull, h.limit, ⟨old, l, hA, hholds, hold⟩, h.sorted, hle, h.window⟩
  · rw [if_neg hfull]
    refine .inl ⟨rfl, h.limit, ⟨old, l ++ [now], ?_, hholds.push ?_ now, hold⟩, ?_, ?_, ?_⟩
    · rw [hA, append_assoc]
    · unfold TimestampRing.N
      omega
    · refine pairwise_append.mpr ⟨h.sorted, pairwise_singleton _ _, fun a ha b hb => ?_⟩
      obtain rfl := mem_singleton.mp hb
      exact hle a ha
    · intro a ha
      rcases mem_append.mp ha with ha | ha
      · exact hle a ha
      · exact (mem_singleton.mp ha).le
    · exact window_append hle h.window (not_le.mp hfull)

/-! ## Runs -/

/-- The rate check changes nothing but the ring. -/
theorem checkRateLimit_eq (r : RiskManager D) (now : Int) :
    (r.checkRateLimit now).2 = { r with rateRing := (r.checkRateLimit now).2.rateRing } := by
  unfold RiskManager.checkRateLimit
  dsimp only
  split
  · rfl
  · rfl

theorem checkRateLimit_limits (r : RiskManager D) (now : Int) : (r.checkRateLimit now).2.limits = r.limits := by
  rw [checkRateLimit_eq]

/-- A check touches the ring only if it reaches the rate check. -/
theorem checkOrder_ring (F : Doubles D) (r : RiskManager D) (symbol : List UInt8) (side : Side) (price : D)
    (quantity now : Int) : (r.checkOrder F symbol side price quantity now).2.limits = r.limits ∧
    (r.checkOrder F symbol side price quantity now).2.rateRing =
      if r.reachesRate F (symToKey symbol) side price quantity then (r.checkRateLimit now).2.rateRing else r.rateRing := by
  unfold RiskManager.reachesRate
  rcases checkOrder_cases F r symbol side price quantity now with ⟨reason, hb, h⟩ | ⟨hb, reason, k, hp, h⟩ | ⟨hb, hp, h⟩
  · rw [h, hb]
    exact ⟨rfl, rfl⟩
  · rw [h, hb, hp]
    exact ⟨rfl, rfl⟩
  · rw [h, hb, hp]
    have hlimits := checkRateLimit_limits r now
    cases (r.checkRateLimit now).1
    · exact ⟨hlimits, rfl⟩
    · exact ⟨hlimits, rfl⟩

theorem exec_ring (F : Doubles D) (r : RiskManager D) (hop : op.isReset = false) (htime : op.time = none) :
    (r.exec F op).limits = r.limits ∧ (r.exec F op).rateRing = r.rateRing := by
  cases op with
  | checkOrder symbol side price quantity now => cases htime
  | onOrderSent symbol side quantity => exact ⟨rfl, rfl⟩
  | onOrderCancelled symbol side remaining => exact ⟨rfl, rfl⟩
  | updatePosition symbol side quantity => exact ⟨rfl, rfl⟩
  | updatePnl change =>
    unfold RiskManager.exec RiskManager.updatePnl
    dsimp only
    repeat' split
    all_goals exact ⟨rfl, rfl⟩
  | resetDaily => cases hop

theorem rateCalls_quiet (htime : op.time = none) : r.rateCalls F (op :: ops) = (r.exec F op).rateCalls F ops := by
  cases op with
  | checkOrder symbol side price quantity now => cases htime
  | _ => rfl

/-- A run below the capacity keeps the limit. -/
theorem Slides.run (h : Slides L A t r) (hL : L < 4096) (hops : ∀ op ∈ ops, op.isReset = false)
    (hfirst : ∀ s ∈ ops.filterMap Op.time, t ≤ s) (hsorted : (ops.filterMap Op.time).Pairwise (· ≤ ·))
    (hclock : ∀ s ∈ ops.filterMap Op.time, 0 ≤ s ∧ IsInt64 s) : RateKept L A (r.rateCalls F ops) := by
  induction ops generalizing r A t with
  | nil =>
    refine ⟨fun u => ?_, fun pre a post hcalls => ?_⟩
    · simpa [RiskManager.rateCalls, passed] using h.window u
    · cases pre <;> cases hcalls
  | cons op ops ih =>
    have hrest := fun op' hop' => hops op' (mem_cons_of_mem op hop')
    cases htime : op.time with
    | none =>
      rw [filterMap_cons_none htime] at hfirst hsorted hclock
      obtain ⟨hlimits, hring⟩ := exec_ring F r (hops op mem_cons_self) htime
      rw [rateCalls_quiet htime]
      exact ih (h.congr hlimits hring) hrest hfirst hsorted hclock
    | some now =>
      rw [filterMap_cons_some htime] at hfirst hsorted hclock
      obtain ⟨hafter, hlater⟩ := pairwise_cons.mp hsorted
      have hnow := hfirst now mem_cons_self
      obtain ⟨h0, h64⟩ := hclock now mem_cons_self
      have hticks : ∀ s ∈ ops.filterMap Op.time, 0 ≤ s ∧ IsInt64 s := fun s hs => hclock s (mem_cons_of_mem now hs)
      cases op with
      | checkOrder symbol side price quantity now' =>
        obtain rfl : now' = now := Option.some.inj htime
        obtain ⟨hlimits, hring⟩ := checkOrder_ring F r symbol side price quantity now'
        unfold RiskManager.rateCalls
        by_cases hreach : r.reachesRate F (symToKey symbol) side price quantity
        · rw [if_pos hreach] at hring ⊢
          rcases h.check hL hnow h0 h64 with ⟨hpass, hnext⟩ | ⟨hrefuse, hfull, hnext⟩
          · have hnext : Slides L (A ++ [now']) now' (r.exec F (.checkOrder symbol side price quantity now')) :=
              hnext.congr (hlimits.trans (checkRateLimit_limits r now').symm) hring
            rw [hpass]
            exact (ih hnext hrest hafter hlater hticks).pass
          · have hnext : Slides L A now' (r.exec F (.checkOrder symbol side price quantity now')) :=
              hnext.congr (hlimits.trans (checkRateLimit_limits r now').symm) hring
            rw [hrefuse]
            exact (ih hnext hrest hafter hlater hticks).refuse hfull
        · rw [if_neg hreach] at hring ⊢
          refine ih (h.congr hlimits hring) hrest ?_ hlater hticks
          exact fun s hs => hnow.trans (hafter s hs)
      | _ => cases htime

theorem fresh_slides (F : Doubles D) (limits : RiskLimits D) (hL : 1 ≤ limits.maxOrdersPerSecond) (t : Int) :
    Slides limits.maxOrdersPerSecond [] t (fresh F limits) := by
  refine ⟨rfl, ⟨[], [], rfl, TimestampRing.new_holds, by simp⟩, .nil, by simp, fun u => ?_⟩
  rw [countP_nil]
  exact_mod_cast zero_le_one.trans hL

/-! ## At the capacity -/

/-- The ring never counts 4096 entries, so nothing is refused. -/
theorem rateCalls_pass (hL : 4096 ≤ r.limits.maxOrdersPerSecond) (hops : ∀ op ∈ ops, op.isReset = false) :
    ∀ c ∈ r.rateCalls F ops, c.2 := by
  induction ops generalizing r with
  | nil =>
    intro c hc
    cases hc
  | cons op ops ih =>
    have hrest := fun op' hop' => hops op' (mem_cons_of_mem op hop')
    cases htime : op.time with
    | none =>
      rw [rateCalls_quiet htime]
      exact ih ((exec_ring F r (hops op mem_cons_self) htime).1 ▸ hL) hrest
    | some now =>
      cases op with
      | checkOrder symbol side price quantity now' =>
        have hnext := ih (r := r.exec F (.checkOrder symbol side price quantity now'))
          ((checkOrder_ring F r symbol side price quantity now').1 ▸ hL) hrest
        have hpass : (r.checkRateLimit now').1 := by
          have hcount := (r.rateRing.evict (i64 (now' - 1000000000))).count_lt
          unfold TimestampRing.N at hcount
          unfold RiskManager.checkRateLimit
          rw [if_neg (by omega)]
        unfold RiskManager.rateCalls
        split
        · intro c hc
          rcases mem_cons.mp hc with rfl | hc
          · exact hpass
          · exact hnext c hc
        · exact hnext
      | _ => cases htime

theorem passed_of_pass (h : ∀ c ∈ calls, c.2) : passed calls = calls.map (·.1) := by
  unfold passed
  rw [filter_eq_self.mpr h]

/-- For every limit up to 4096 and calls of `check_order` at times in order, with any other calls but the reset between
    them: the limit holds if and only if it is below 4096, or no second has more than 4096 calls that reach the check. -/
theorem rate_limit_iff (F : Doubles D) (limits : RiskLimits D) (ops : List (Op D))
    (hL : 1 ≤ limits.maxOrdersPerSecond ∧ limits.maxOrdersPerSecond ≤ 4096) (hops : ∀ op ∈ ops, op.isReset = false)
    (hsorted : (ops.filterMap Op.time).Pairwise (· ≤ ·)) (hclock : ∀ s ∈ ops.filterMap Op.time, 0 ≤ s ∧ IsInt64 s) :
    RateKept limits.maxOrdersPerSecond [] ((fresh F limits).rateCalls F ops) ↔ limits.maxOrdersPerSecond < 4096 ∨
      ∀ u, (((fresh F limits).rateCalls F ops).map (·.1)).countP (inSecond u) ≤ 4096 := by
  rcases hL.2.lt_or_eq with hlt | hfull
  · exact iff_of_true ((fresh_slides F limits hL.1 0).run hlt hops (fun s hs => (hclock s hs).1) hsorted hclock) (.inl hlt)
  · have hpass := rateCalls_pass (F := F) (r := fresh F limits) hfull.ge hops
    rw [or_iff_right hfull.not_lt, hfull]
    constructor
    · intro hkept u
      have hu := hkept.window u
      rw [List.nil_append, passed_of_pass hpass] at hu
      exact_mod_cast hu
    · intro hcalls
      refine ⟨fun u => ?_, fun pre a post heq => ?_⟩
      · rw [List.nil_append, passed_of_pass hpass]
        exact_mod_cast hcalls u
      · have hmem := hpass (a, false) (by rw [heq]; simp)
        cases hmem

/-- Two orders a second: the third is refused, a second later there is room again. -/
theorem rate_limit_small : RateKept 2 [] ((fresh wholeDoubles { sampleLimits with maxOrdersPerSecond := 2 }).rateCalls
    wholeDoubles [.checkOrder [65] .buy 1 1 0, .checkOrder [65] .buy 1 1 5, .onOrderSent [65] .buy 1,
      .checkOrder [66] .sell 1 1 999999999, .checkOrder [65] .buy 1 1 1000000000]) :=
  (rate_limit_iff wholeDoubles { sampleLimits with maxOrdersPerSecond := 2 } _ (by decide) (by decide) (by decide)
    (by decide)).mpr (.inl (by decide))

/-! ### A burst -/

/-- A call that reached the rate check does so again: it changes neither the quantities nor the P&L. -/
theorem reaches_again (h : r.reachesRate F (symToKey symbol) side price quantity) (now : Int) :
    (r.checkOrder F symbol side price quantity now).2.reachesRate F (symToKey symbol) side price quantity = true := by
  unfold RiskManager.reachesRate at h ⊢
  rcases checkOrder_cases F r symbol side price quantity now with ⟨reason, hb, -⟩ | ⟨-, reason, k, hp, -⟩ | ⟨hb, hp, hcheck⟩
  · rw [hb] at h
    cases h
  · rw [hp, Option.isNone_some, Bool.and_false] at h
    cases h
  · rw [checkRateLimit_eq] at hcheck
    generalize (r.checkRateLimit now).2.rateRing = ring at hcheck
    rw [Bool.and_eq_true] at h ⊢
    have hbreakers : ∀ s : RiskManager D, s.limits = r.limits → s.dailyPnl = r.dailyPnl → s.peakPnl = r.peakPnl →
        (s.checkPnlBreakers F).1.isNone = true := by
      intro s h1 h2 h3
      rw [breakers_congr h1 h2 h3]
      exact h.2
    rw [hcheck]
    split
    · exact ⟨h.1, hbreakers _ rfl rfl rfl⟩
    · exact ⟨h.1, hbreakers _ rfl rfl rfl⟩

/-- The same call, again and again. -/
theorem rateCalls_replicate (h : r.reachesRate F (symToKey symbol) side price quantity) (n : Nat) :
    (r.rateCalls F (List.replicate n (.checkOrder symbol side price quantity now))).map (·.1) = List.replicate n now := by
  induction n generalizing r with
  | zero => rfl
  | succ n ih =>
    have hnext := ih (r := r.exec F (.checkOrder symbol side price quantity now)) (reaches_again h now)
    rw [replicate_succ, RiskManager.rateCalls, if_pos h, map_cons, hnext, replicate_succ]

/-- A limit of 4096 and 4097 orders at once: all pass. -/
theorem burst_passes_full_limit : ¬ RateKept 4096 [] ((fresh wholeDoubles
    { sampleLimits with maxOrdersPerSecond := 4096 }).rateCalls wholeDoubles
      (List.replicate 4097 (.checkOrder [65] .buy 1 1 0))) := by
  intro hkept
  have hpass : ∀ c ∈ (fresh wholeDoubles { sampleLimits with maxOrdersPerSecond := 4096 }).rateCalls wholeDoubles
      (List.replicate 4097 (.checkOrder [65] .buy 1 1 0)), c.2 = true :=
    rateCalls_pass le_rfl fun op hop => by rw [List.eq_of_mem_replicate hop]; rfl
  have hwindow := hkept.window 0
  rw [List.nil_append, passed_of_pass hpass, rateCalls_replicate (by decide), List.countP_replicate] at hwindow
  exact absurd hwindow (by decide)

end

end HftLab.Risk
