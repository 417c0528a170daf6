/-
  HftLab.OrderBook.TopK — `top_k_active_levels_by_qty`, `top_k_resting_qty` and `largest_resting_order_qty`.

  The first two keep the best `k` entries so far in the caller's arrays, the largest quantity first, and shift the smaller ones on
  to let the next one in. Of the levels an entry is the price and the quantity, the two arrays being written together.
  - `top_k_selection`: what is in the arrays are the best of all levels, and of all orders (`Lib.TopOf`).
-/

import HftLab.Lib.TopK
import HftLab.OrderBook.Clearing

namespace HftLab.OrderBook

open Lib List

variable {α : Type}

/-! ## The arrays -/

/-- The caller's array and how many entries of it are filled. -/
structure TopArray (α : Type) where
  out : List α
  filled : Nat := 0
  deriving DecidableEq, Repr

namespace TopArray

variable (qty : α → Int) (blank : α)

/-- The loop that looks for the spot from `i_ins` down. -/
def shiftIn (x : α) : Nat → List α → List α
  | 0, out => out.set 0 x
  | i + 1, out =>
    if qty (out.getD i blank) < qty x then shiftIn x i (out.set (i + 1) (out.getD i blank)) else out.set (i + 1) x

/-- One entry of the scan. -/
def offer (k : Nat) (a : TopArray α) (x : α) : TopArray α :=
  let pos := min a.filled (k - 1)
  if qty (a.out.getD pos blank) < qty x ∨ a.filled < k then
    let filled := if a.filled < k then a.filled + 1 else a.filled
    { out := shiftIn qty blank x (min (filled - 1) (k - 1)) a.out, filled }
  else a

end TopArray

namespace Book

variable (V : Env) (b : Book) (k : Nat)

/-- The number of entries, and the prices with their quantities. -/
def topKActiveLevelsByQty : Nat × List (Int × Int) :=
  if k = 0 then (0, [])
  else
    let a := (List.range V.LEVELS.toNat).foldl (fun a (p : Nat) =>
      let q := (b.core.levels p).totalQty
      if q ≤ 0 then a else TopArray.offer Prod.snd (-1, 0) k a ((p : Int), q)) { out := List.replicate k (-1, 0) }
    (a.filled, a.out)

def topKRestingQty : Nat × List Int :=
  if k = 0 then (0, [])
  else
    let a := (List.range V.LEVELS.toNat).foldl (fun a (p : Nat) =>
      (b.core.queue V p).foldl (fun a i =>
        let left := (b.order i).remainingQty
        if left ≤ 0 then a else TopArray.offer id 0 k a left) a) { out := List.replicate k 0 }
    (a.filled, a.out)

def largestRestingOrderQty : Int :=
  (List.range V.LEVELS.toNat).foldl (fun best (p : Nat) =>
    (b.core.queue V p).foldl (fun best i => if best < (b.order i).remainingQty then (b.order i).remainingQty else best) best) 0

/-- The levels that show quantity, by price. -/
def activeLevels : List (Int × Int) :=
  ((List.range V.LEVELS.toNat).map fun (p : Nat) => ((p : Int), (b.core.levels p).totalQty)).filter (0 < ·.2)

/-- What the resting orders have left. -/
def restingQtys : List Int := (b.core.restingSlots V).map fun i => (b.order i).remainingQty

end Book

/-! ## One entry -/

namespace TopArray

variable {qty : α → Int} {blank : α} {S : α → α → Prop} {k : Nat} {l r : List α} {x : α}

theorem getD_append_self (l : List α) (z : α) (rest : List α) (d : α) : (l ++ z :: rest).getD l.length d = z := by
  simp

theorem shiftIn_eq (x : α) (pre : List α) (z : α) (rest : List α) (h : pre.Pairwise (Lib.Ranks qty S)) :
    shiftIn qty blank x pre.length (pre ++ z :: rest) = insertTop qty x pre ++ rest := by
  induction pre using List.reverseRecOn generalizing z rest with
  | nil => rfl
  | append_singleton pre y ih =>
    obtain ⟨hpre, -, hy⟩ := pairwise_append.mp h
    have hget : (pre ++ [y] ++ z :: rest).getD pre.length blank = y := by
      rw [append_assoc]
      exact getD_append_self pre y _ blank
    have hset : ∀ c, (pre ++ [y] ++ z :: rest).set (pre.length + 1) c = pre ++ y :: c :: rest := by
      intro c
      rw [append_assoc, set_append_right _ _ (Nat.le_add_right pre.length 1), Nat.add_sub_cancel_left]
      rfl
    rw [length_append, length_singleton, shiftIn, hget, hset, hset]
    by_cases hlt : qty y < qty x
    · rw [if_pos hlt, ih y (y :: rest) hpre, insertTop_concat hlt, append_assoc]
      rfl
    · have hle : qty x ≤ qty y := Int.not_lt.mp hlt
      have hlast : ∀ c ∈ pre ++ [y], qty x ≤ qty c := by
        intro c hc
        rcases mem_append.mp hc with hc | hc
        · exact Int.le_trans hle (hy c hc y (mem_singleton_self y)).key_le
        · rw [mem_singleton.mp hc]
          exact hle
      rw [if_neg hlt, insertTop_last hlast, append_assoc, append_assoc]
      rfl

/-- The array holds the `k` best of what was offered, and blanks. -/
structure Holds (qty : α → Int) (blank : α) (S : α → α → Prop) (k : Nat) (l : List α) (a : TopArray α) (r : List α) : Prop where
  out : a.out = r ++ List.replicate (k - r.length) blank
  filled : a.filled = r.length
  top : TopOf qty k S l r

theorem Holds.offer {a : TopArray α} (hk : 1 ≤ k) (h : a.Holds qty blank S k l r) (hS : ∀ y ∈ l, S y x) :
    ∃ r', (a.offer qty blank k x).Holds qty blank S k (l ++ [x]) r' := by
  have hlen := h.top.length
  unfold TopArray.offer
  dsimp only
  rw [h.filled, h.out]
  by_cases hroom : r.length < k
  · -- the entry takes the first blank
    obtain ⟨m, hm⟩ : ∃ m, k - r.length = m + 1 := ⟨k - r.length - 1, by omega⟩
    have hplace : min (r.length + 1 - 1) (k - 1) = r.length := by omega
    rw [if_pos (.inr hroom), if_pos hroom, hplace, hm, replicate_succ, shiftIn_eq x r blank _ h.top.ranked]
    refine ⟨insertTop qty x r, ?_, ?_, h.top.grow hroom hS⟩
    · rw [insertTop_length]
      have hrest : k - (r.length + 1) = m := by omega
      rw [hrest]
    · exact (insertTop_length x r).symm
  · have hfull : k - r.length = 0 := by omega
    obtain ⟨s, z, rfl⟩ : ∃ s z, r = s ++ [z] := by
      rcases eq_nil_or_concat r with rfl | ⟨s, z, hs⟩
      · rw [length_nil] at hroom
        omega
      · exact ⟨s, z, by rw [hs, concat_eq_append]⟩
    have hs : s.length + 1 = k := by
      rw [length_append, length_singleton] at hlen hroom
      omega
    have hpos : min (s ++ [z]).length (k - 1) = s.length := by
      rw [length_append, length_singleton]
      omega
    have hlast : ((s ++ [z]) ++ List.replicate 0 blank).getD s.length blank = z := by
      rw [replicate_zero, append_nil]
      exact getD_append_self s z [] blank
    rw [hfull, hpos, hlast]
    by_cases hlt : qty z < qty x
    · have hplace : min ((s ++ [z]).length - 1) (k - 1) = s.length := by
        rw [length_append, length_singleton]
        omega
      rw [if_pos (.inl hlt), if_neg hroom, hplace, replicate_zero, append_nil,
        shiftIn_eq x s z [] (pairwise_append.mp h.top.ranked).1]
      refine ⟨insertTop qty x s, ?_, ?_, h.top.replace hs hlt hS⟩
      · have hnone : k - (insertTop qty x s).length = 0 := by
          rw [insertTop_length]
          omega
        rw [hnone]
        rfl
      · rw [insertTop_length, length_append, length_singleton]
    · rw [if_neg (not_or.mpr ⟨hlt, hroom⟩)]
      exact ⟨s ++ [z], h.out, h.filled, h.top.skip hs (Int.not_lt.mp hlt)⟩

theorem Holds.foldl {a : TopArray α} (hk : 1 ≤ k) (h : a.Holds qty blank S k l r) (xs : List α) (hS : (l ++ xs).Pairwise S) :
    ∃ r', (xs.foldl (TopArray.offer qty blank k) a).Holds qty blank S k (l ++ xs) r' := by
  induction xs generalizing a l r with
  | nil =>
    rw [append_nil]
    exact ⟨r, h⟩
  | cons x xs ih =>
    have hbefore : ∀ y ∈ l, S y x := fun y hy => (pairwise_append.mp hS).2.2 y hy x (mem_cons_self ..)
    obtain ⟨r', hr'⟩ := h.offer hk hbefore
    have hsplit : l ++ x :: xs = l ++ [x] ++ xs := by rw [append_assoc]; rfl
    rw [hsplit] at hS ⊢
    exact ih hr' hS

/-- A scan of all entries. -/
theorem scan_holds (hk : 1 ≤ k) (qty : α → Int) (blank : α) {xs : List α} (hS : xs.Pairwise S) :
    ∃ r, (xs.foldl (TopArray.offer qty blank k) { out := List.replicate k blank }).Holds qty blank S k xs r :=
  Holds.foldl hk ⟨rfl, rfl, TopOf.nil⟩ xs hS

end TopArray

/-! ## The scans -/

namespace Book

variable {V : Env} {b : Book} {k : Nat}

theorem skip_nonpos {β : Type} (q : Int) (a a' : β) : (if q ≤ 0 then a else a') = if decide (0 < q) = true then a' else a := by
  by_cases hq : 0 < q
  · rw [if_neg (Int.not_le.mpr hq), if_pos (decide_eq_true hq)]
  · rw [if_pos (Int.not_lt.mp hq), if_neg (by simpa using Int.not_lt.mp hq)]

theorem topKActiveLevelsByQty_eq (hk : 1 ≤ k) :
    b.topKActiveLevelsByQty V k =
      let a := (b.activeLevels V).foldl (TopArray.offer Prod.snd (-1, 0) k) { out := List.replicate k (-1, 0) }
      (a.filled, a.out) := by
  have hk0 : k ≠ 0 := by omega
  unfold topKActiveLevelsByQty activeLevels
  rw [if_neg hk0, foldl_filter, foldl_map]
  simp only [skip_nonpos]

theorem topKRestingQty_eq (hk : 1 ≤ k) :
    b.topKRestingQty V k =
      let a := ((b.restingQtys V).filter (0 < ·)).foldl (TopArray.offer id 0 k) { out := List.replicate k 0 }
      (a.filled, a.out) := by
  have hk0 : k ≠ 0 := by omega
  unfold topKRestingQty restingQtys Core.restingSlots
  rw [if_neg hk0, foldl_filter, foldl_map, foldl_flatMap]
  simp only [skip_nonpos]

/-- The loop of `largest_resting_order_qty`: at least `best` and every quantity, and one of these. -/
theorem foldl_larger (l : List Int) (best : Int) :
    let m := l.foldl (fun best q => if best < q then q else best) best
    best ≤ m ∧ (∀ q ∈ l, q ≤ m) ∧ (m = best ∨ m ∈ l) := by
  induction l generalizing best with
  | nil => exact ⟨le_refl best, fun _ h => (by cases h), .inl rfl⟩
  | cons q l ih =>
    rw [foldl_cons]
    obtain ⟨hbest, hall, hone⟩ := ih (if best < q then q else best)
    generalize l.foldl (fun best q => if best < q then q else best) (if best < q then q else best) = m at hbest hall hone ⊢
    have hstart : best ≤ m ∧ q ≤ m := by
      split at hbest <;> omega
    refine ⟨hstart.1, ?_, ?_⟩
    · intro c hc
      rcases mem_cons.mp hc with rfl | hc
      · exact hstart.2
      · exact hall c hc
    · rcases hone with hone | hone
      · split at hone
        · exact .inr (hone ▸ mem_cons_self ..)
        · exact .inl hone
      · exact .inr (mem_cons_of_mem _ hone)

theorem largestRestingOrderQty_eq :
    b.largestRestingOrderQty V = (b.restingQtys V).foldl (fun best q => if best < q then q else best) 0 := by
  unfold largestRestingOrderQty restingQtys Core.restingSlots
  rw [foldl_map, foldl_flatMap]

theorem largestRestingOrderQty_spec (V : Env) (b : Book) :
    0 ≤ b.largestRestingOrderQty V ∧ (∀ q ∈ b.restingQtys V, q ≤ b.largestRestingOrderQty V) ∧
      (b.largestRestingOrderQty V = 0 ∨ b.largestRestingOrderQty V ∈ b.restingQtys V) := by
  rw [largestRestingOrderQty_eq]
  exact foldl_larger (b.restingQtys V) 0

/-- The prices rise from entry to entry. -/
theorem activeLevels_pairwise (V : Env) (b : Book) : (b.activeLevels V).Pairwise fun x y => x.1 < y.1 := by
  apply List.Pairwise.filter
  rw [pairwise_map]
  exact pairwise_lt_range.imp fun h => Int.ofNat_lt.mpr h

theorem largest_first {r : List Int} (h : TopOf id k (fun _ _ => True) ((b.restingQtys V).filter (0 < ·)) r) (hk : 1 ≤ k) :
    (r ++ List.replicate (k - r.length) 0).head? = some (b.largestRestingOrderQty V) := by
  obtain ⟨hzero, hall, hone⟩ := largestRestingOrderQty_spec V b
  cases r with
  | nil =>
    have hnone : (b.restingQtys V).filter (0 < ·) = [] := by
      have hlen := h.length
      rw [length_nil] at hlen
      exact length_eq_zero_iff.mp (by omega)
    obtain ⟨m, rfl⟩ := Nat.exists_eq_add_of_le' hk
    have hbest : b.largestRestingOrderQty V = 0 := by
      rcases hone with hone | hone
      · exact hone
      · have hnot := filter_eq_nil_iff.mp hnone _ hone
        rw [decide_eq_true_eq] at hnot
        omega
    rw [hbest]
    rfl
  | cons z r =>
    obtain ⟨hz, hmax⟩ := h.head_max
    obtain ⟨hmem, hpos⟩ := mem_filter.mp hz
    rw [decide_eq_true_eq] at hpos
    have hle := hall z hmem
    have hge : b.largestRestingOrderQty V ≤ z := by
      rcases hone with hone | hone
      · rw [hone]
        exact Int.le_of_lt hpos
      · have hbest : 0 < b.largestRestingOrderQty V := by omega
        exact hmax _ (mem_filter.mpr ⟨hone, decide_eq_true hbest⟩)
    have heq : z = b.largestRestingOrderQty V := by omega
    rw [← heq]
    rfl

end Book

/-- Of any book: the arrays start with the best `k` levels by quantity, and with the best `k` of what orders have left. No order rests
with nothing left in a book that calls have made. -/
theorem top_k_selection {V : Env} {b : Book} {k : Nat} (hk : 1 ≤ k) :
    (∃ r, b.topKActiveLevelsByQty V k = (r.length, r ++ List.replicate (k - r.length) (-1, 0)) ∧
      TopOf Prod.snd k (fun x y => x.1 < y.1) (b.activeLevels V) r ∧ (r.map Prod.fst).Nodup) ∧
    (∃ r, b.topKRestingQty V k = (r.length, r ++ List.replicate (k - r.length) 0) ∧
      TopOf id k (fun _ _ => True) ((b.restingQtys V).filter (0 < ·)) r) ∧
    (b.topKRestingQty V k).2.head? = some (b.largestRestingOrderQty V) ∧
    (Book.Reach V (fun _ _ _ => True) b → ∀ q ∈ b.restingQtys V, 0 < q) := by
  have hany : ((b.restingQtys V).filter (0 < ·)).Pairwise fun _ _ => True := List.pairwise_of_forall fun _ _ => trivial
  obtain ⟨s, horders⟩ := TopArray.scan_holds hk id 0 hany
  have hresting : b.topKRestingQty V k = (s.length, s ++ List.replicate (k - s.length) 0) := by
    rw [Book.topKRestingQty_eq hk]
    exact Prod.ext horders.filled horders.out
  refine ⟨?_, ⟨s, hresting, horders.top⟩, ?_, ?_⟩
  · have hprices := Book.activeLevels_pairwise V b
    obtain ⟨r, hlevels⟩ := TopArray.scan_holds hk Prod.snd (-1, 0) hprices
    refine ⟨r, ?_, hlevels.top, ?_⟩
    · rw [Book.topKActiveLevelsByQty_eq hk]
      exact Prod.ext hlevels.filled hlevels.out
    · obtain ⟨rest, hperm, -⟩ := hlevels.top.best
      have hnodup : ((b.activeLevels V).map Prod.fst).Nodup := List.pairwise_map.mpr (hprices.imp fun h => ne_of_lt h)
      have hall := (hperm.map Prod.fst).nodup_iff.mpr hnodup
      rw [List.map_append] at hall
      exact (List.nodup_append.mp hall).1
  · rw [hresting]
    exact Book.largest_first horders.top hk
  · intro h q hq
    obtain ⟨hw, -⟩ := Reach.wf h
    obtain ⟨i, hi, rfl⟩ := List.mem_map.mp hq
    obtain ⟨p, hp⟩ := hw.mem_restingSlots.mp hi
    exact hw.remaining_pos hp

/-- Two levels and three orders. -/
theorem top_k_selection_small : ∃ b, Book.runIf smallEnv 20 (fun _ _ _ => true)
      [.submit { side := .sell, priceTicks := 3, qty := 5, clientId := 1 },
       .submit { side := .buy, priceTicks := 1, qty := 2, clientId := 2 },
       .submit { side := .buy, priceTicks := 1, qty := 4, clientId := 3 }] (fresh smallEnv) = some b ∧
    (b.topKRestingQty smallEnv 2).2.head? = some (b.largestRestingOrderQty smallEnv) ∧ ∀ q ∈ b.restingQtys smallEnv, 0 < q := by
  have hrun : (Book.runIf smallEnv 20 (fun _ _ _ => true)
      [.submit { side := .sell, priceTicks := 3, qty := 5, clientId := 1 },
       .submit { side := .buy, priceTicks := 1, qty := 2, clientId := 2 },
       .submit { side := .buy, priceTicks := 1, qty := 4, clientId := 3 }] (fresh smallEnv)).isSome = true := by decide +kernel
  obtain ⟨b, hb⟩ := Option.isSome_iff_exists.mp hrun
  obtain ⟨-, -, hlargest, hpos⟩ := top_k_selection (by decide : 1 ≤ 2)
  exact ⟨b, hb, hlargest, hpos (Reach.runIf (fun _ _ _ _ => trivial) _ .init hb)⟩

/-- The levels of that book by quantity, the price before. -/
example : (Book.runIf smallEnv 20 (fun _ _ _ => true)
      [.submit { side := .sell, priceTicks := 3, qty := 5, clientId := 1 },
       .submit { side := .buy, priceTicks := 1, qty := 2, clientId := 2 },
       .submit { side := .buy, priceTicks := 1, qty := 4, clientId := 3 }] (fresh smallEnv)).map
      (fun b => (b.topKActiveLevelsByQty smallEnv 3, b.topKRestingQty smallEnv 2)) =
    some ((2, [(1, 6), (3, 5), (-1, 0)]), (2, [5, 4])) := by decide +kernel

end HftLab.OrderBook
