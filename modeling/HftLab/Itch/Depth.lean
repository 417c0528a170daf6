/-
  HftLab.Itch.Depth — the queries that walk the levels of a side for an order of a given size (itch_book.hpp).

  All of them walk the same list, best level first, and the list crosses the size at one level: that level is the price to fill, its
  position the number of levels, and what lies up to it the shares that its price as a limit lets through (`depth_agrees`).

  Arithmetic on prices is exact. A side has as many levels as prices, which 32 bits count.
-/

import HftLab.Itch.Reconstruction
import HftLab.Lib.Crossing
import Mathlib.Data.List.Sort
import Mathlib.Data.Rat.Floor

namespace HftLab.Itch

open Lib List

/-- Towards zero, as the cast does. -/
def toTicks (price : ℚ) : Int :=
  let scaled := price * 100 + if 0 ≤ price then 1 / 2 else -1 / 2
  if 0 ≤ scaled then ⌊scaled⌋ else ⌈scaled⌉

/-- The side on which an order finds its counterparts. -/
def opposite (side : Char) : Char := if side = 'B' then 'S' else 'B'

/-- A level at `px` is worse than the limit. -/
def past (side : Char) (limit px : Int) : Bool := if side = 'B' then limit < px else px < limit

def ascending (levels : Table Int Int) : List (Int × Int) :=
  (levels.entries.map fun e => (e.1, e.2)).insertionSort fun l l' => l.1 ≤ l'.1

/-! ## The walks -/

def fillableLoop (stop : Int → Bool) : List (Int × Int) → Int → Int
  | [], sum => sum
  | (px, qty) :: levels, sum => if stop px then sum else fillableLoop stop levels (sum + qty)

def priceLoop : List (Int × Int) → Int → ℚ
  | [], _ => 0
  | (px, qty) :: levels, remaining => if remaining - qty ≤ 0 then px / 100 else priceLoop levels (remaining - qty)

def levelsLoop : List (Int × Int) → Int → Int → Int
  | [], _, _ => -1
  | (_, qty) :: levels, count, remaining =>
    if remaining - qty ≤ 0 then count + 1 else levelsLoop levels (count + 1) (remaining - qty)

/-- The shares filled and their notional, in ticks. -/
def expectedLoop : List (Int × Int) → Int → Int → ℚ → Int × ℚ
  | [], _, filled, notional => (filled, notional)
  | (px, qty) :: levels, remaining, filled, notional =>
    if 0 < remaining then
      let take := min remaining qty
      expectedLoop levels (remaining - take) (filled + take) (notional + px * take)
    else (filled, notional)

def cumulativeLoop (n : Int) : List (Int × Int) → Int → Int → Int
  | [], _, sum => sum
  | (_, qty) :: levels, c, sum => if c < n then cumulativeLoop n levels (c + 1) (sum + qty) else sum

namespace ITCHOrderBook

variable (b : ITCHOrderBook)

/-- Bids from the highest down, asks from the lowest up. -/
def bestFirst (side : Char) : List (Int × Int) := if side = 'B' then (ascending b.bids).reverse else ascending b.asks

def fillableShares (side : Char) (limitPrice : ℚ) : Int :=
  fillableLoop (past side (toTicks limitPrice)) (b.bestFirst (opposite side)) 0

def priceToFill (side : Char) (shares : Int) : ℚ := if shares ≤ 0 then 0 else priceLoop (b.bestFirst (opposite side)) shares

def levelsToFill (side : Char) (shares : Int) : Int := if shares ≤ 0 then 0 else levelsLoop (b.bestFirst (opposite side)) 0 shares

/-- With the average price. -/
def expectedFill (side : Char) (shares : Int) : Int × ℚ :=
  if shares ≤ 0 then (0, 0)
  else
    let (filled, notional) := expectedLoop (b.bestFirst (opposite side)) shares 0 0
    (filled, if 0 < filled then notional / filled / 100 else 0)

def fillShortfall (side : Char) (shares : Int) : Int := if shares ≤ 0 then 0 else shares - (b.expectedFill side shares).1

def cumulativeQty (side : Char) (n : Int) : Int := if n ≤ 0 then 0 else cumulativeLoop n (b.bestFirst side) 0 0

/-- What the queries of one size are to say of one sweep. -/
structure Swept (side : Char) (n total : Int) : Prop where
  filled : (b.expectedFill side n).1 = min n total
  shortfall : b.fillShortfall side n = n - min n total
  levels : b.levelsToFill side n = -1 ↔ total < n
  price : b.priceToFill side n = 0 ↔ total < n
  least : n ≤ total → IsLeast {k : Int | n ≤ b.cumulativeQty (opposite side) k} (b.levelsToFill side n)
  limit : n ≤ total →
    b.fillableShares side (b.priceToFill side n) = b.cumulativeQty (opposite side) (b.levelsToFill side n)

end ITCHOrderBook

/-- The prices of the message are at least one tick. -/
def ParsedMessage.Priced : ParsedMessage ℚ → Prop
  | .addOrder _ _ price _ | .addOrderMpid _ _ price _ => 1 ≤ toTicks price
  | .replaceOrder _ _ newPrice _ => 1 ≤ toTicks newPrice
  | _ => True

instance : (m : ParsedMessage ℚ) → Decidable m.Priced
  | .addOrder _ _ price _ | .addOrderMpid _ _ price _ => inferInstanceAs (Decidable (1 ≤ toTicks price))
  | .replaceOrder _ _ newPrice _ => inferInstanceAs (Decidable (1 ≤ toTicks newPrice))
  | .orderExecuted .. | .orderCancelled .. | .deleteOrder _ | .other => inferInstanceAs (Decidable True)

/-! ## Ticks -/

theorem toTicks_ticks {px : Int} (h : 0 ≤ px) : toTicks (px / 100) = px := by
  have hpx : (0 : ℚ) ≤ px := Int.cast_nonneg h
  have hscaled : (px : ℚ) / 100 * 100 + 1 / 2 = px + 1 / 2 := by ring
  unfold toTicks
  rw [if_pos (div_nonneg hpx (by norm_num)), hscaled]
  rw [if_pos (by linarith), Int.floor_eq_iff]
  constructor
  · linarith
  · linarith

/-! ## The list of levels -/

section

variable {levels : Table Int Int} {px x : Int}

theorem ascending_perm (levels : Table Int Int) : (ascending levels).Perm (levels.entries.map fun e => (e.1, e.2)) :=
  perm_insertionSort _ _

theorem mem_ascending : (px, x) ∈ ascending levels ↔ levels.lookup px = some x := by
  rw [(ascending_perm levels).mem_iff]
  constructor
  · intro h
    obtain ⟨e, he, heq⟩ := mem_map.mp h
    cases heq
    exact AList.mem_lookup_iff.mpr he
  · intro h
    exact mem_map.mpr ⟨⟨px, x⟩, AList.mem_lookup_iff.mp h, rfl⟩

/-- A price has one level. -/
theorem ascending_sorted (levels : Table Int Int) : (ascending levels).Pairwise fun l l' => l.1 < l'.1 := by
  have hle : (ascending levels).Pairwise fun l l' => l.1 ≤ l'.1 := pairwise_insertionSort _ _
  have hne : (ascending levels).Pairwise fun l l' => l.1 ≠ l'.1 := by
    have hkeys : (levels.entries.map fun e => (e.1, e.2)).Pairwise fun l l' => l.1 ≠ l'.1 := by
      rw [pairwise_map]
      exact nodupKeys_iff_pairwise.mp levels.nodupKeys
    exact (ascending_perm levels).symm.pairwise hkeys fun h => h.symm
  refine (hle.and hne).imp fun h => ?_
  omega

theorem ascending_weight (levels : Table Int Int) : weight Prod.snd (ascending levels) = sumOver levels id := by
  unfold weight sumOver
  rw [((ascending_perm levels).map Prod.snd).sum_eq, map_map]
  rfl

end

namespace ITCHOrderBook

variable {b : ITCHOrderBook} {side : Char}

theorem bestFirst_eq (b : ITCHOrderBook) (side : Char) :
    b.bestFirst side = if side = 'B' then (ascending (b.sideBook side)).reverse else ascending (b.sideBook side) := by
  unfold bestFirst sideBook
  split <;> rfl

theorem bestFirst_weight (b : ITCHOrderBook) (side : Char) : weight Prod.snd (b.bestFirst side) = b.totalShares side := by
  unfold totalShares
  rw [bestFirst_eq, ← ascending_weight]
  split
  · unfold weight
    rw [((reverse_perm _).map Prod.snd).sum_eq]
  · rfl

theorem mem_bestFirst {px x : Int} : (px, x) ∈ b.bestFirst side ↔ (b.sideBook side).lookup px = some x := by
  rw [bestFirst_eq, ← mem_ascending]
  split
  · exact mem_reverse
  · rfl

/-- Each level is past those before it. -/
theorem bestFirst_sorted (b : ITCHOrderBook) (side : Char) :
    (b.bestFirst (opposite side)).Pairwise fun l l' => past side l.1 l'.1 = true := by
  unfold bestFirst opposite past
  by_cases hs : side = 'B'
  · simpa [hs] using ascending_sorted b.asks
  · have hrev := pairwise_reverse.mpr (ascending_sorted b.bids)
    simpa [hs] using hrev

end ITCHOrderBook

/-! ## The walks on a list that covers the size, or does not -/

section

variable {levels before after : List (Int × Int)} {px qty n : Int}

theorem fillableLoop_eq {stop : Int → Bool} (hbefore : ∀ l ∈ before, stop l.1 = false) (hafter : ∀ l ∈ after, stop l.1)
    (sum : Int) : fillableLoop stop (before ++ after) sum = sum + weight Prod.snd before := by
  induction before generalizing sum with
  | nil =>
    cases after with
    | nil => simp [fillableLoop]
    | cons l after =>
      have hl := hafter l mem_cons_self
      simp [fillableLoop, hl]
  | cons l before ih =>
    have hl := hbefore l mem_cons_self
    have hrest := ih (fun l' hl' => hbefore l' (mem_cons_of_mem l hl')) (sum + l.2)
    simp [fillableLoop, hl, hrest, Int.add_assoc]

theorem priceLoop_short (h : weight Prod.snd levels < n) (hpos : ∀ l ∈ levels, 0 < l.2) : priceLoop levels n = 0 := by
  induction levels generalizing n with
  | nil => rfl
  | cons l levels ih =>
    have hl := weight_nonneg fun l' hl' => hpos l' (mem_cons_of_mem l hl')
    rw [weight_cons] at h
    unfold priceLoop
    rw [if_neg (by omega)]
    exact ih (by omega) fun l' hl' => hpos l' (mem_cons_of_mem l hl')

theorem levelsLoop_short (h : weight Prod.snd levels < n) (hpos : ∀ l ∈ levels, 0 < l.2) (count : Int) :
    levelsLoop levels count n = -1 := by
  induction levels generalizing n count with
  | nil => rfl
  | cons l levels ih =>
    have hl := weight_nonneg fun l' hl' => hpos l' (mem_cons_of_mem l hl')
    rw [weight_cons] at h
    unfold levelsLoop
    rw [if_neg (by omega)]
    exact ih (by omega) (fun l' hl' => hpos l' (mem_cons_of_mem l hl')) (count + 1)

/-- The level at which the list crosses the size. -/
theorem priceLoop_crosses (h : Crosses Prod.snd levels before (px, qty) after n) (hpos : ∀ l ∈ levels, 0 < l.2) :
    priceLoop levels n = px / 100 := by
  obtain ⟨rfl, hshort, hcovered⟩ := h
  induction before generalizing n with
  | nil =>
    simp only [weight_nil] at hcovered
    unfold priceLoop
    rw [nil_append]
    dsimp only
    rw [if_pos (by omega)]
  | cons l before ih =>
    rw [weight_cons] at hshort hcovered
    have hl := weight_nonneg fun l' hl' => hpos l' (mem_cons_of_mem l (mem_append_left _ hl'))
    rw [cons_append]
    unfold priceLoop
    rw [if_neg (by omega)]
    exact ih (by omega) (by omega) fun l' hl' => hpos l' (mem_cons_of_mem l hl')

theorem levelsLoop_crosses (h : Crosses Prod.snd levels before (px, qty) after n) (hpos : ∀ l ∈ levels, 0 < l.2) (count : Int) :
    levelsLoop levels count n = count + (before.length + 1 : Nat) := by
  obtain ⟨rfl, hshort, hcovered⟩ := h
  induction before generalizing n count with
  | nil =>
    simp only [weight_nil] at hcovered
    unfold levelsLoop
    rw [nil_append]
    dsimp only
    rw [if_pos (by omega)]
    simp
  | cons l before ih =>
    rw [weight_cons] at hshort hcovered
    have hl := weight_nonneg fun l' hl' => hpos l' (mem_cons_of_mem l (mem_append_left _ hl'))
    rw [cons_append]
    unfold levelsLoop
    rw [if_neg (by omega), ih (count + 1) (by omega) (by omega) fun l' hl' => hpos l' (mem_cons_of_mem l hl'),
      length_cons]
    omega

/-- All of the size that the list has. -/
theorem expectedLoop_filled (hn : 0 ≤ n) (hpos : ∀ l ∈ levels, 0 < l.2) (filled : Int) (notional : ℚ) :
    (expectedLoop levels n filled notional).1 = filled + min n (weight Prod.snd levels) := by
  induction levels generalizing n filled notional with
  | nil =>
    simp [expectedLoop, hn]
  | cons l levels ih =>
    have hl := hpos l mem_cons_self
    have hrest := weight_nonneg fun l' hl' => hpos l' (mem_cons_of_mem l hl')
    rw [weight_cons]
    unfold expectedLoop
    split
    · rw [ih (by omega) fun l' hl' => hpos l' (mem_cons_of_mem l hl')]
      omega
    · omega

theorem cumulativeLoop_eq (levels : List (Int × Int)) (n : Nat) (c sum : Int) :
    cumulativeLoop (c + n) levels c sum = sum + weight Prod.snd (levels.take n) := by
  induction levels generalizing n c sum with
  | nil => simp [cumulativeLoop]
  | cons l levels ih =>
    unfold cumulativeLoop
    cases n with
    | zero =>
      rw [if_neg (by omega)]
      simp
    | succ n =>
      have hshift : c + (n + 1 : Nat) = c + 1 + n := by omega
      rw [if_pos (by omega), hshift, ih, take_succ_cons, weight_cons]
      omega

end

namespace ITCHOrderBook

variable {b b' : ITCHOrderBook} {side : Char} {n : Int}

theorem cumulativeQty_eq (b : ITCHOrderBook) (side : Char) (n : Int) :
    b.cumulativeQty side n = weight Prod.snd ((b.bestFirst side).take n.toNat) := by
  unfold cumulativeQty
  by_cases hn : n ≤ 0
  · rw [if_pos hn, Int.toNat_of_nonpos hn]
    simp
  · rw [if_neg hn]
    have hloop := cumulativeLoop_eq (b.bestFirst side) n.toNat 0 0
    rwa [Int.toNat_of_nonneg (by omega), Int.zero_add, Int.zero_add] at hloop

/-! ## The levels of a run -/

/-- Levels are at positive prices and hold something. -/
def Shown (b : ITCHOrderBook) : Prop := ∀ buy px x, (b.levels buy).lookup px = some x → 1 ≤ px ∧ 0 < x

theorem Shown.congr (h : b.Shown) (hl : ∀ buy, b'.levels buy = b.levels buy) : b'.Shown := by
  intro buy px x hx
  rw [hl] at hx
  exact h buy px x hx

/-- The counts stand apart. -/
theorem Shown.count (h : b.Shown) (adds replaces : Nat) : Shown { b with adds, replaces } := h.congr fun _ => rfl

/-- A side is written. -/
theorem Shown.setSideBook (h : b.Shown) {l : Table Int Int} (hl : ∀ px x, l.lookup px = some x → 1 ≤ px ∧ 0 < x)
    (side : Char) : (b.setSideBook side l).Shown := by
  intro buy px x hx
  rw [levels_setSideBook] at hx
  split at hx
  · exact hl px x hx
  · exact h buy px x hx

theorem Shown.sideBook (h : b.Shown) (side : Char) : ∀ px x, (b.sideBook side).lookup px = some x → 1 ≤ px ∧ 0 < x := by
  intro px x hx
  rw [sideBook_eq] at hx
  exact h _ px x hx

theorem Shown.reduce (h : b.Shown) (ref : Int) (qty : Nat) : (b.reduce ref qty).Shown := by
  cases hr : b.orders.lookup ref with
  | none =>
    rw [reduce_none hr]
    exact h
  | some r =>
    rw [reduce_some hr]
    have hlowered := forall_lower (g := r.priceTicks) (d := (clamp r qty : Int)) (h.sideBook r.side)
      fun x hx hpos => ⟨(h.sideBook r.side _ _ hx).1, hpos⟩
    exact (h.setSideBook hlowered r.side).congr fun _ => rfl

theorem Shown.onAdd (h : b.Shown) {price : ℚ} (hp : 1 ≤ toTicks price) (ref : Int) (side : Char) (shares : Nat) :
    (b.onAdd toTicks ref side price shares).Shown := by
  cases shares with
  | zero => exact h
  | succ shares =>
    rw [onAdd_pos (by omega)]
    have hcell : 0 ≤ cell (b.sideBook side) (toTicks price) := by
      unfold cell
      cases hx : (b.sideBook side).lookup (toTicks price) with
      | none => exact Int.le_refl 0
      | some x => exact Int.le_of_lt (h.sideBook side _ _ hx).2
    have hraised := forall_raise (d := ((shares + 1 : Nat) : Int)) (h.sideBook side) ⟨hp, by omega⟩
    exact (h.setSideBook hraised side).congr fun _ => rfl

theorem Shown.apply (h : b.Shown) {m : ParsedMessage ℚ} (hp : m.Priced) : (b.apply toTicks m).Shown := by
  cases m with
  | addOrder ref side price shares => exact h.onAdd hp ref side shares
  | addOrderMpid ref side price shares => exact h.onAdd hp ref side shares
  | orderExecuted ref execShares =>
    refine Shown.congr (Shown.reduce ?_ ref execShares) fun _ => rfl
    split
    · exact h
    · exact h.congr fun _ => rfl
  | orderCancelled ref cancelledShares =>
    refine Shown.congr (Shown.reduce ?_ ref cancelledShares) fun _ => rfl
    split
    · exact h
    · exact h.congr fun buy => pull_levels ..
  | deleteOrder ref =>
    show (b.onDelete ref).Shown
    unfold onDelete
    split
    · exact h.congr fun _ => rfl
    · rename_i r _
      have hpulled : (b.pull r r.shares).Shown := h.congr fun buy => pull_levels ..
      exact (hpulled.reduce ref r.shares).congr fun _ => rfl
  | replaceOrder origRef newRef newPrice newShares =>
    show (b.onReplace toTicks origRef newRef newPrice newShares).Shown
    unfold onReplace
    split
    · exact h.congr fun _ => rfl
    · rename_i r _
      have hmarked : (b.marked |toTicks newPrice - r.priceTicks|).Shown := h.congr fun _ => rfl
      exact ((hmarked.reduce origRef r.shares).onAdd hp newRef r.side newShares).count _ _
  | other => exact h

theorem shown_run (ms : List (ParsedMessage ℚ)) (hp : ∀ m ∈ ms, m.Priced) : (ms.foldl (apply toTicks) {}).Shown := by
  refine List.foldlRecOn ms (apply toTicks) (motive := Shown) ?_ fun b hb m hm => hb.apply (hp m hm)
  intro buy px x hx
  cases buy <;> cases hx

/-! ## The queries agree -/

theorem Shown.pos (h : b.Shown) (side : Char) : ∀ l ∈ b.bestFirst side, 0 < l.2 := by
  intro l hl
  exact (h.sideBook side _ _ (mem_bestFirst.mp hl)).2

/-- Where the levels cover the size. -/
theorem Shown.crossed (h : b.Shown) (hn : 0 < n) {before after : List (Int × Int)} {px qty : Int}
    (hcross : Crosses Prod.snd (b.bestFirst (opposite side)) before (px, qty) after n) :
    b.levelsToFill side n = (before.length + 1 : Nat) ∧ b.priceToFill side n = px / 100 ∧ 1 ≤ px ∧
      b.fillableShares side (px / 100) = b.cumulativeQty (opposite side) (before.length + 1 : Nat) := by
  have hpos := h.pos (opposite side)
  have hpx : 1 ≤ px := by
    have hmem : (px, qty) ∈ b.bestFirst (opposite side) := by
      rw [hcross.eq]
      simp
    exact (h.sideBook _ _ _ (mem_bestFirst.mp hmem)).1
  refine ⟨?_, ?_, hpx, ?_⟩
  · unfold levelsToFill
    rw [if_neg (by omega), levelsLoop_crosses hcross hpos, Int.zero_add]
  · unfold priceToFill
    rw [if_neg (by omega), priceLoop_crosses hcross hpos]
  · have hsorted := bestFirst_sorted b side
    rw [hcross.eq, pairwise_append, pairwise_cons] at hsorted
    obtain ⟨-, ⟨hafter, -⟩, hbefore⟩ := hsorted
    have hstays : ∀ l ∈ before ++ [(px, qty)], past side px l.1 = false := by
      intro l hl
      rcases mem_append.mp hl with hl | hl
      · have hlt := hbefore l hl (px, qty) mem_cons_self
        unfold past at hlt ⊢
        by_cases hs : side = 'B'
        · simp only [hs, if_true, decide_eq_true_eq, decide_eq_false_iff_not] at hlt ⊢
          omega
        · simp only [hs, if_false, decide_eq_true_eq, decide_eq_false_iff_not] at hlt ⊢
          omega
      · obtain rfl := mem_singleton.mp hl
        unfold past
        split <;> simp
    unfold fillableShares
    rw [toTicks_ticks (by omega), cumulativeQty_eq, Int.toNat_natCast, hcross.take_eq, hcross.eq, append_cons,
      fillableLoop_eq hstays hafter, Int.zero_add]

theorem Shown.swept (h : b.Shown) (side : Char) (hn : 0 < n) : b.Swept side n (b.totalShares (opposite side)) := by
  have hpos := h.pos (opposite side)
  have hweight := bestFirst_weight b (opposite side)
  have hfilled : (b.expectedFill side n).1 = min n (b.totalShares (opposite side)) := by
    unfold expectedFill
    rw [if_neg (by omega), ← hweight]
    have hloop := expectedLoop_filled (Int.le_of_lt hn) hpos 0 0
    rw [Int.zero_add] at hloop
    exact hloop
  have hshort : b.totalShares (opposite side) < n → b.levelsToFill side n = -1 ∧ b.priceToFill side n = 0 := by
    intro hlt
    unfold levelsToFill priceToFill
    rw [if_neg (by omega), if_neg (by omega)]
    rw [← hweight] at hlt
    exact ⟨levelsLoop_short hlt hpos 0, priceLoop_short hlt hpos⟩
  have hcrossed : n ≤ b.totalShares (opposite side) →
      IsLeast {k : Int | n ≤ b.cumulativeQty (opposite side) k} (b.levelsToFill side n) ∧ 0 < b.priceToFill side n ∧
      b.fillableShares side (b.priceToFill side n) = b.cumulativeQty (opposite side) (b.levelsToFill side n) := by
    intro hle
    rw [← hweight] at hle
    obtain ⟨before, ⟨px, qty⟩, after, hcross⟩ := exists_crosses hn hle
    obtain ⟨hlevels, hprice, hpx, hfillable⟩ := h.crossed hn hcross
    obtain ⟨hcovers, hleast⟩ := hcross.isLeast hpos
    rw [hlevels, hprice]
    refine ⟨⟨?_, ?_⟩, ?_, hfillable⟩
    · show n ≤ b.cumulativeQty (opposite side) (before.length + 1 : Nat)
      rw [cumulativeQty_eq, Int.toNat_natCast]
      exact hcovers
    · intro k hk
      have hk : n ≤ b.cumulativeQty (opposite side) k := hk
      rw [cumulativeQty_eq] at hk
      have hnat : before.length + 1 ≤ k.toNat := hleast hk
      omega
    · have hticks : (0 : ℚ) < px := Int.cast_pos.mpr (by omega)
      positivity
  refine ⟨hfilled, ?_, ?_, ?_, fun hle => (hcrossed hle).1, fun hle => (hcrossed hle).2.2⟩
  · unfold fillShortfall
    rw [if_neg (by omega), hfilled]
  · constructor
    · intro hlevels
      by_contra hle
      have hcovers : n ≤ b.cumulativeQty (opposite side) (b.levelsToFill side n) := (hcrossed (by omega)).1.1
      rw [hlevels] at hcovers
      have hnone : b.cumulativeQty (opposite side) (-1) = 0 := rfl
      omega
    · exact fun hlt => (hshort hlt).1
  · constructor
    · intro hprice
      by_contra hle
      have hpositive := (hcrossed (by omega)).2.1
      rw [hprice] at hpositive
      exact lt_irrefl 0 hpositive
    · exact fun hlt => (hshort hlt).2

/-- After every run of messages, for either side and every size. -/
theorem depth_agrees (ms : List (ParsedMessage ℚ)) (hp : ∀ m ∈ ms, m.Priced) (side : Char) (n : Int) (hn : 0 < n) :
    (ms.foldl (apply toTicks) {}).Swept side n ((ms.foldl (apply toTicks) {}).totalShares (opposite side)) :=
  (shown_run ms hp).swept side hn

def sampleLevels : List (ParsedMessage ℚ) :=
  [.addOrder 1 'S' (1001 / 10) 50, .addOrder 2 'S' 100 30, .addOrder 3 'B' (199 / 2) 70, .addOrderMpid 4 'S' 100 5, .orderExecuted 2 10]

theorem depth_agrees_sample : (sampleLevels.foldl (apply toTicks) {}).levelsToFill 'B' 60 = 2 ∧
    (sampleLevels.foldl (apply toTicks) {}).Swept 'B' 60 ((sampleLevels.foldl (apply toTicks) {}).totalShares (opposite 'B')) :=
  ⟨by decide +kernel, depth_agrees sampleLevels (by decide +kernel) 'B' 60 (by decide)⟩

end ITCHOrderBook

end HftLab.Itch
