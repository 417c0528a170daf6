/-
  HftLab.Flat.Invariant — the representation of the aggregated book: the bitmaps tell which levels
  have a quantity, the cursors are at the best of them, and the sides do not overlap.

  `Rep` is what each round of `try_match` keeps; the rounds end with the sides apart, after at most
  `LEVELS` of them (`tryMatch_rep`), and refine the uncrossing of the depth.
-/

import HftLab.Flat.Book
import HftLab.Flat.Depth

namespace HftLab.Flat

open Lib Function Bool

/-! ## One side -/

/-- The levels of one side: 32-bit quantities, none negative, with a bit for each that is not 0. -/
structure Tracks (g : Grid) (qty : Nat → Int) (bits : Bitmap) : Prop where
  nonneg : ∀ p, 0 ≤ qty p
  small : ∀ p, qty p ≤ int32Max
  bit : ∀ p, p < g.levels → (bits.test p = true ↔ 0 < qty p)
  outside : ∀ p, g.levels ≤ p → qty p = 0

/-- The cursor of the BUY side. -/
def AtBestBid (qty : Nat → Int) (best : Int) : Prop :=
  (best = NO_BID ∧ ∀ p, qty p = 0) ∨ ∃ p : Nat, best = p ∧ Highest qty p

/-- The cursor of the SELL side. -/
def AtBestAsk (g : Grid) (qty : Nat → Int) (best : Int) : Prop :=
  (best = g.NO_ASK ∧ ∀ p, qty p = 0) ∨ ∃ p : Nat, best = p ∧ Lowest qty p

section

variable {g : Grid} {qty : Nat → Int} {bits : Bitmap} {best : Int} {p : Nat} {x : Int}

theorem Grid.levels_eq (g : Grid) : g.levels = 64 * g.words := by
  obtain ⟨k, hk⟩ := g.levels_pow
  have hpos := g.words_pos
  have h6 : 6 ≤ k := by
    by_contra hlt
    have : 2 ^ k ≤ 2 ^ 5 := Nat.pow_le_pow_right (by omega) (by omega)
    omega
  have hdvd : 64 ∣ g.levels := by
    rw [hk]
    exact Nat.pow_dvd_pow 2 h6
  unfold Grid.words
  omega

theorem Tracks.zero (h : Tracks g qty bits) {q : Nat} (hq : bits.test q = false ∨ g.levels ≤ q) : qty q = 0 := by
  by_cases hlt : q < g.levels
  · rcases hq with hq | hq
    · have h1 := h.nonneg q
      have h2 := mt (h.bit q hlt).mpr (by rw [hq]; exact false_ne_true)
      omega
    · omega
  · exact h.outside q (by omega)

/-- `set_bit` on a level that was empty, and the quantity added. -/
theorem Tracks.place (h : Tracks g qty bits) (hp : p < g.levels) (hx : 0 < x) (hfit : qty p + x ≤ int32Max) :
    Tracks g (update qty p (i32 (qty p + x))) (if qty p = 0 then bits.setBit p else bits) := by
  have h0 := h.nonneg p
  rw [i32_eq ⟨by unfold int32Min; omega, hfit⟩]
  refine ⟨fun q => ?_, fun q => ?_, fun q hq => ?_, fun q hq => ?_⟩
  · by_cases e : q = p
    · rw [e, update_self]
      omega
    · rw [update_of_ne e]
      exact h.nonneg q
  · by_cases e : q = p
    · rw [e, update_self]
      exact hfit
    · rw [update_of_ne e]
      exact h.small q
  · by_cases e : q = p
    · subst e
      rw [update_self]
      refine ⟨fun _ => by omega, fun _ => ?_⟩
      by_cases hz : qty q = 0
      · rw [if_pos hz, Bitmap.test_setBit, decide_eq_true rfl, Bool.or_true]
      · rw [if_neg hz]
        exact (h.bit q hq).mpr (by omega)
    · rw [update_of_ne e, ← h.bit q hq]
      split
      · rw [Bitmap.test_setBit, decide_eq_false e, Bool.or_false]
      · exact Iff.rfl
  · rw [update_of_ne (by omega)]
    exact h.outside q hq

/-- A level lowered to `x`, and `clear_bit` if that is 0. -/
theorem Tracks.lower (h : Tracks g qty bits) (hp : p < g.levels) (h0 : 0 ≤ x) (hle : x ≤ qty p) :
    Tracks g (update qty p x) (if x = 0 then bits.clearBit p else bits) := by
  refine ⟨fun q => ?_, fun q => ?_, fun q hq => ?_, fun q hq => ?_⟩
  · by_cases e : q = p
    · rw [e, update_self]
      exact h0
    · rw [update_of_ne e]
      exact h.nonneg q
  · by_cases e : q = p
    · have := h.small p
      rw [e, update_self]
      omega
    · rw [update_of_ne e]
      exact h.small q
  · by_cases e : q = p
    · subst e
      rw [update_self]
      by_cases hz : x = 0
      · rw [if_pos hz, Bitmap.test_clearBit, decide_eq_true rfl, Bool.not_true, Bool.and_false]
        exact ⟨fun hc => (Bool.false_ne_true hc).elim, fun hc => by omega⟩
      · rw [if_neg hz, h.bit q hq]
        omega
    · rw [update_of_ne e, ← h.bit q hq]
      split
      · rw [Bitmap.test_clearBit, decide_eq_false e, Bool.not_false, Bool.and_true]
      · exact Iff.rfl
  · rw [update_of_ne (by omega)]
    exact h.outside q hq

/-- `scan_down` finds the best level if there is none above where it starts. -/
theorem scanDown_best (h : Tracks g qty bits) (hlt : best < g.levels) (habove : ∀ q : Nat, best < q → qty q = 0) :
    AtBestBid qty (scanDown bits best) := by
  unfold scanDown
  by_cases h0 : best < 0
  · rw [if_pos h0]
    exact .inl ⟨rfl, fun q => habove q (by omega)⟩
  · rw [if_neg h0]
    cases hs : bits.scanDown best.toNat with
    | none =>
      refine .inl ⟨rfl, fun q => ?_⟩
      by_cases hq : q ≤ best.toNat
      · exact h.zero (.inl (Bitmap.scanDown_none hs hq))
      · exact habove q (by omega)
    | some r =>
      obtain ⟨h1, h2, h3⟩ := Bitmap.scanDown_some hs
      refine .inr ⟨r, rfl, (h.bit r (by omega)).mp h2, fun q hq => ?_⟩
      by_cases hqb : q ≤ best.toNat
      · exact h.zero (.inl (h3 q hq hqb))
      · exact habove q (by omega)

theorem scanUp_best (h : Tracks g qty bits) (h0 : 0 ≤ best) (hbelow : ∀ q : Nat, q < best → qty q = 0) :
    AtBestAsk g qty (scanUp g bits best) := by
  have hl := g.levels_eq
  unfold scanUp
  by_cases hlt : (g.levels : Int) ≤ best
  · rw [if_pos hlt]
    refine .inl ⟨rfl, fun q => ?_⟩
    by_cases hq : q < g.levels
    · exact hbelow q (by omega)
    · exact h.outside q (by omega)
  · rw [if_neg hlt]
    cases hs : bits.scanUp g.words best.toNat with
    | none =>
      refine .inl ⟨rfl, fun q => ?_⟩
      by_cases hq : best.toNat ≤ q
      · by_cases hql : q < g.levels
        · exact h.zero (.inl (Bitmap.scanUp_none hs hq (by omega)))
        · exact h.outside q (by omega)
      · exact hbelow q (by omega)
    | some r =>
      obtain ⟨h1, h2, h3, h4⟩ := Bitmap.scanUp_some hs (by omega)
      refine .inr ⟨r, rfl, (h.bit r (by omega)).mp h3, fun q hq => ?_⟩
      by_cases hqb : best.toNat ≤ q
      · exact h.zero (.inl (h4 q hqb hq))
      · exact hbelow q (by omega)

theorem AtBestBid.above (h : AtBestBid qty best) (q : Nat) (hq : best < q) : qty q = 0 := by
  rcases h with ⟨-, hz⟩ | ⟨p, rfl, hp⟩
  · exact hz q
  · exact hp.2 q (by omega)

theorem AtBestBid.lt (h : AtBestBid qty best) (ht : Tracks g qty bits) : best < g.levels := by
  rcases h with ⟨rfl, -⟩ | ⟨p, rfl, hp⟩
  · unfold NO_BID
    omega
  · by_contra hge
    have := ht.outside p (by omega)
    have := hp.1
    omega

theorem AtBestAsk.below (h : AtBestAsk g qty best) (q : Nat) (hq : q < best) : qty q = 0 := by
  rcases h with ⟨-, hz⟩ | ⟨p, rfl, hp⟩
  · exact hz q
  · exact hp.2 q (by omega)

theorem AtBestAsk.nonneg (h : AtBestAsk g qty best) : 0 ≤ best := by
  rcases h with ⟨rfl, -⟩ | ⟨p, rfl, -⟩
  · exact Int.natCast_nonneg _
  · exact Int.natCast_nonneg _

theorem AtBestBid.place (h : AtBestBid qty best) (hx : 0 < x) :
    AtBestBid (update qty p x) (if best < p then (p : Int) else best) := by
  by_cases hlt : best < p
  · rw [if_pos hlt]
    refine .inr ⟨p, rfl, by rw [update_self]; exact hx, fun q hq => ?_⟩
    rw [update_of_ne (by omega)]
    exact h.above q (by omega)
  · rw [if_neg hlt]
    rcases h with ⟨rfl, -⟩ | ⟨r, rfl, hr, habove⟩
    · unfold NO_BID at hlt
      omega
    · refine .inr ⟨r, rfl, ?_, fun q hq => ?_⟩
      · by_cases e : r = p
        · rw [e, update_self]
          exact hx
        · rw [update_of_ne e]
          exact hr
      · rw [update_of_ne (by omega)]
        exact habove q hq

theorem AtBestAsk.place (h : AtBestAsk g qty best) (hp : p < g.levels) (hx : 0 < x) :
    AtBestAsk g (update qty p x) (if (p : Int) < best then (p : Int) else best) := by
  by_cases hlt : (p : Int) < best
  · rw [if_pos hlt]
    refine .inr ⟨p, rfl, by rw [update_self]; exact hx, fun q hq => ?_⟩
    rw [update_of_ne (by omega)]
    exact h.below q (by omega)
  · rw [if_neg hlt]
    rcases h with ⟨rfl, -⟩ | ⟨r, rfl, hr, hbelow⟩
    · unfold Grid.NO_ASK at hlt
      omega
    · refine .inr ⟨r, rfl, ?_, fun q hq => ?_⟩
      · by_cases e : r = p
        · rw [e, update_self]
          exact hx
        · rw [update_of_ne e]
          exact hr
      · rw [update_of_ne (by omega)]
        exact hbelow q hq

theorem Tracks.inside (ht : Tracks g qty bits) (h : 0 < qty p) : p < g.levels := by
  by_contra hge
  have := ht.outside p (by omega)
  omega

theorem ne_of_update_pos {r : Nat} (h : 0 < update qty p 0 r) : r ≠ p := by
  intro e
  rw [e, update_self] at h
  omega

/-- The best bid level is lowered to `x`, and the cursor moves down if that is 0. -/
theorem Highest.lower (h : Highest qty p) (ht : Tracks g qty bits) (h0 : 0 ≤ x) (hle : x ≤ qty p) :
    AtBestBid (update qty p x) (if x = 0 then scanDown (bits.clearBit p) p else p) ∧
    (if x = 0 then scanDown (bits.clearBit p) p else p) ≤ (p : Int) ∧
    (x = 0 → scanDown (bits.clearBit p) p < p) := by
  have hp := ht.inside h.1
  by_cases hz : x = 0
  · subst hz
    have ht2 := ht.lower hp h0 hle
    rw [if_pos rfl] at ht2
    have hbest : AtBestBid (update qty p 0) (scanDown (bits.clearBit p) p) := by
      refine scanDown_best ht2 (by omega) fun q hq => ?_
      rw [update_of_ne (by omega)]
      exact h.2 q (by omega)
    have hlt : scanDown (bits.clearBit p) p < p := by
      rcases hbest with ⟨he, -⟩ | ⟨r, he, hr⟩
      · rw [he]
        unfold NO_BID
        omega
      · rw [he]
        have hne := ne_of_update_pos hr.1
        by_contra hge
        have h1 := hr.1
        rw [update_of_ne hne, h.2 r (by omega)] at h1
        omega
    rw [if_pos rfl]
    exact ⟨hbest, hlt.le, fun _ => hlt⟩
  · rw [if_neg hz]
    refine ⟨.inr ⟨p, rfl, by rw [update_self]; omega, fun q hq => ?_⟩, le_rfl, fun hc => absurd hc hz⟩
    rw [update_of_ne (by omega)]
    exact h.2 q hq

/-- The best ask level is lowered to `x`, and the cursor moves up if that is 0. -/
theorem Lowest.lower (h : Lowest qty p) (ht : Tracks g qty bits) (h0 : 0 ≤ x) (hle : x ≤ qty p) :
    AtBestAsk g (update qty p x) (if x = 0 then scanUp g (bits.clearBit p) p else p) ∧
    (p : Int) ≤ (if x = 0 then scanUp g (bits.clearBit p) p else p) ∧
    (x = 0 → p < scanUp g (bits.clearBit p) p) := by
  have hp := ht.inside h.1
  by_cases hz : x = 0
  · subst hz
    have ht2 := ht.lower hp h0 hle
    rw [if_pos rfl] at ht2
    have hbest : AtBestAsk g (update qty p 0) (scanUp g (bits.clearBit p) p) := by
      refine scanUp_best ht2 (by omega) fun q hq => ?_
      rw [update_of_ne (by omega)]
      exact h.2 q (by omega)
    have hlt : p < scanUp g (bits.clearBit p) p := by
      rcases hbest with ⟨he, -⟩ | ⟨r, he, hr⟩
      · rw [he]
        unfold Grid.NO_ASK
        omega
      · rw [he]
        have hne := ne_of_update_pos hr.1
        by_contra hge
        have h1 := hr.1
        rw [update_of_ne hne, h.2 r (by omega)] at h1
        omega
    rw [if_pos rfl]
    exact ⟨hbest, hlt.le, fun _ => hlt⟩
  · rw [if_neg hz]
    refine ⟨.inr ⟨p, rfl, by rw [update_self]; omega, fun q hq => ?_⟩, le_rfl, fun hc => absurd hc hz⟩
    rw [update_of_ne (by omega)]
    exact h.2 q hq

end

/-! ## The book -/

def FlatBook.depth (b : FlatBook) : Depth := ⟨b.bidQty, b.askQty⟩

structure Rep (g : Grid) (b : FlatBook) : Prop where
  bids : Tracks g b.bidQty b.bidBits
  asks : Tracks g b.askQty b.askBits
  bestBid : AtBestBid b.bidQty b.bestBid
  bestAsk : AtBestAsk g b.askQty b.bestAsk
  refs : ∀ id ref, b.ordersById id = some ref → 0 ≤ ref.price ∧ ref.price < g.levels ∧ 0 < ref.qty

section

variable {g : Grid} {b : FlatBook} {price qty : Int} {id : Nat}

/-- The loop condition: both cursors are at levels, and these overlap. -/
theorem Rep.crosses (h : Rep g b) (hc : b.crosses g) :
    ∃ p q : Nat, b.bestBid = p ∧ b.bestAsk = q ∧ Highest b.bidQty p ∧ Lowest b.askQty q ∧ q ≤ p := by
  unfold FlatBook.crosses at hc
  simp only [and_eq_true, decide_eq_true_eq] at hc
  obtain ⟨⟨h1, h2⟩, h3⟩ := hc
  rcases h.bestBid with ⟨he, -⟩ | ⟨p, hp, hhigh⟩
  · exact absurd he h1
  · rcases h.bestAsk with ⟨he, -⟩ | ⟨q, hq, hlow⟩
    · exact absurd he h2
    · exact ⟨p, q, hp, hq, hhigh, hlow, by omega⟩

theorem Rep.uncrossed (h : Rep g b) (hc : b.crosses g = false) : b.depth.Uncrossed := by
  intro p q hp hq
  by_contra hge
  have h1 : p ≤ b.bestBid := by
    by_contra hlt
    have := h.bestBid.above p (by omega)
    have : 0 < b.bidQty p := hp
    omega
  have h2 : b.bestAsk ≤ q := by
    by_contra hlt
    have := h.bestAsk.below q (by omega)
    have : 0 < b.askQty q := hq
    omega
  have h3 := h.bestBid.lt h.bids
  have h4 := h.bestAsk.nonneg
  have htrue : b.crosses g := by
    unfold FlatBook.crosses NO_BID Grid.NO_ASK
    simp only [and_eq_true, decide_eq_true_eq]
    omega
  rw [htrue] at hc
  cases hc

/-- One round: it keeps the representation, exchanges the two best levels and moves a cursor. -/
theorem matchBest_rep (h : Rep g b) {p q : Nat} (hbid : b.bestBid = p) (hask : b.bestAsk = q)
    (hp : Highest b.bidQty p) (hq : Lowest b.askQty q) :
    Rep g (b.matchBest g) ∧ (b.matchBest g).depth = b.depth.cross p q ∧
    (b.matchBest g).trades = b.trades + 1 ∧
    (b.matchBest g).traded = b.traded + min (b.bidQty p) (b.askQty q) ∧
    (b.matchBest g).bestBid - (b.matchBest g).bestAsk < b.bestBid - b.bestAsk := by
  have hp0 := hp.1
  have hq0 := hq.1
  have hps := h.bids.small p
  have hqs := h.asks.small q
  have hpl : p < g.levels := by
    have := h.bestBid.lt h.bids
    omega
  have hql : q < g.levels := by
    by_contra hge
    have := h.asks.outside q (by omega)
    omega
  have hfill : b.fill = min (b.bidQty p) (b.askQty q) := by
    unfold FlatBook.fill
    rw [hbid, hask]
    rfl
  obtain ⟨x, hx⟩ : ∃ x, x = b.bidQty p - min (b.bidQty p) (b.askQty q) := ⟨_, rfl⟩
  obtain ⟨y, hy⟩ : ∃ y, y = b.askQty q - min (b.bidQty p) (b.askQty q) := ⟨_, rfl⟩
  have hleft : i32 (b.bidQty b.bestBid.toNat - b.fill) = x := by
    rw [hfill, hbid, Int.toNat_natCast, ← hx]
    exact i32_eq ⟨by unfold int32Min; omega, by omega⟩
  have hright : i32 (b.askQty b.bestAsk.toNat - b.fill) = y := by
    rw [hfill, hask, Int.toNat_natCast, ← hy]
    exact i32_eq ⟨by unfold int32Min; omega, by omega⟩
  have heq : b.matchBest g =
      { b with trades := b.trades + 1
               traded := b.traded + min (b.bidQty p) (b.askQty q)
               bidQty := update b.bidQty p x
               askQty := update b.askQty q y
               bidBits := if x = 0 then b.bidBits.clearBit p else b.bidBits
               askBits := if y = 0 then b.askBits.clearBit q else b.askBits
               bestBid := if x = 0 then scanDown (b.bidBits.clearBit p) p else p
               bestAsk := if y = 0 then scanUp g (b.askBits.clearBit q) q else q } := by
    unfold FlatBook.matchBest
    dsimp only
    rw [hleft, hright, hfill]
    unfold FlatBook.advanceAsk FlatBook.advanceBid
    rw [hbid]
    split <;> split <;> simp [*]
  obtain ⟨hb1, hb2, hb3⟩ := hp.lower h.bids (by omega : 0 ≤ x) (by omega)
  obtain ⟨ha1, ha2, ha3⟩ := hq.lower h.asks (by omega : 0 ≤ y) (by omega)
  rw [heq]
  refine ⟨⟨?_, ?_, hb1, ha1, h.refs⟩, ?_, rfl, rfl, ?_⟩
  · exact h.bids.lower hpl (by omega) (by omega)
  · exact h.asks.lower hql (by omega) (by omega)
  · rw [hx, hy]
    rfl
  · show (if x = 0 then scanDown (b.bidBits.clearBit p) p else (p : Int)) -
      (if y = 0 then scanUp g (b.askBits.clearBit q) q else (q : Int)) < b.bestBid - b.bestAsk
    -- the smaller of the two levels is emptied
    by_cases hxz : x = 0
    · have := hb3 hxz
      rw [if_pos hxz]
      omega
    · have hyz : y = 0 := by omega
      have := ha3 hyz
      rw [if_pos hyz]
      omega

/-- The rounds of `try_match` from `b` to `b'`: `n` of them, and they stop because the sides are apart. -/
structure Matched (g : Grid) (b b' : FlatBook) (n : Nat) (v : Int) : Prop where
  rep : Rep g b'
  ended : b'.crosses g = false
  refines : Uncrosses b.depth n v b'.depth
  trades : b'.trades = b.trades + UInt64.ofNat n
  traded : b'.traded = b.traded + v

/-- Enough rounds: as many as the cursors are apart, each takes one from that. -/
theorem tryMatchUpTo_matched (n : Nat) (h : Rep g b) (hn : b.bestBid - b.bestAsk < n) :
    ∃ k v, Matched g b (b.tryMatchUpTo g n) k v := by
  induction n generalizing b with
  | zero =>
    have hc : b.crosses g = false := by
      unfold FlatBook.crosses
      rw [decide_eq_false (by omega : ¬ b.bestAsk ≤ b.bestBid), Bool.and_false]
    exact ⟨0, 0, h, hc, .done (h.uncrossed hc), (UInt64.add_zero _).symm, (Int.add_zero _).symm⟩
  | succ n ih =>
    unfold FlatBook.tryMatchUpTo
    cases hc : b.crosses g with
    | false => exact ⟨0, 0, h, hc, .done (h.uncrossed hc), (UInt64.add_zero _).symm, (Int.add_zero _).symm⟩
    | true =>
      obtain ⟨p, q, hbid, hask, hp, hq, hle⟩ := h.crosses hc
      obtain ⟨hrep, hdepth, htrades, htraded, hlt⟩ := matchBest_rep h hbid hask hp hq
      obtain ⟨k, v, hm⟩ := ih hrep (by omega)
      refine ⟨k + 1, min (b.bidQty p) (b.askQty q) + v, hm.rep, hm.ended, ?_, ?_, ?_⟩
      · have hrest := hm.refines
        rw [hdepth] at hrest
        exact .step hp hq hle hrest
      · rw [if_pos rfl, hm.trades, htrades, Nat.add_comm, UInt64.ofNat_add, UInt64.add_assoc]
        rfl
      · rw [if_pos rfl, hm.traded, htraded, Int.add_assoc]

theorem tryMatch_matched (h : Rep g b) : ∃ k v, Matched g b (b.tryMatch g) k v := by
  have h1 := h.bestBid.lt h.bids
  have h2 := h.bestAsk.nonneg
  exact tryMatchUpTo_matched g.levels h (by omega)

theorem valid_iff : g.valid price qty ↔ 0 ≤ price ∧ price < g.levels ∧ 0 < qty := by
  unfold Grid.valid
  simp only [not_eq_true', or_eq_false_iff, decide_eq_false_iff_not]
  omega

theorem fits_of {isBuy : Bool} (hv : g.valid price qty) (hfit : b.fits g isBuy price qty) :
    (if isBuy then b.bidQty price.toNat else b.askQty price.toNat) + qty ≤ int32Max := by
  unfold FlatBook.fits at hfit
  rw [hv, Bool.not_true, Bool.false_or] at hfit
  exact of_decide_eq_true hfit

theorem placeBuy_rep (h : Rep g b) (hv : g.valid price qty) (hfit : b.fits g true price qty) :
    Rep g (b.placeBuy price qty) ∧ (b.placeBuy price qty).depth = b.depth.add true price.toNat qty := by
  obtain ⟨h0, hl, hq⟩ := valid_iff.mp hv
  have hfit : b.bidQty price.toNat + qty ≤ int32Max := fits_of hv hfit
  have hnn := h.bids.nonneg price.toNat
  have hi : i32 (b.bidQty price.toNat + qty) = b.bidQty price.toNat + qty := i32_eq ⟨by unfold int32Min; omega, hfit⟩
  refine ⟨⟨h.bids.place (by omega) hq hfit, h.asks, ?_, h.bestAsk, h.refs⟩, ?_⟩
  · have hbest := h.bestBid.place (p := price.toNat) (x := i32 (b.bidQty price.toNat + qty)) (by rw [hi]; omega)
    rw [Int.toNat_of_nonneg h0] at hbest
    exact hbest
  · show Depth.mk (update _ _ (i32 _)) _ = Depth.mk (update _ _ _) _
    rw [hi]
    rfl

theorem placeSell_rep (h : Rep g b) (hv : g.valid price qty) (hfit : b.fits g false price qty) :
    Rep g (b.placeSell price qty) ∧ (b.placeSell price qty).depth = b.depth.add false price.toNat qty := by
  obtain ⟨h0, hl, hq⟩ := valid_iff.mp hv
  have hfit : b.askQty price.toNat + qty ≤ int32Max := fits_of hv hfit
  have hnn := h.asks.nonneg price.toNat
  have hi : i32 (b.askQty price.toNat + qty) = b.askQty price.toNat + qty := i32_eq ⟨by unfold int32Min; omega, hfit⟩
  refine ⟨⟨h.bids, h.asks.place (by omega) hq hfit, h.bestBid, ?_, h.refs⟩, ?_⟩
  · have hbest := h.bestAsk.place (p := price.toNat) (x := i32 (b.askQty price.toNat + qty)) (by omega) (by rw [hi]; omega)
    rw [Int.toNat_of_nonneg h0] at hbest
    exact hbest
  · show Depth.mk _ (update _ _ (i32 _)) = Depth.mk _ (update _ _ _)
    rw [hi]
    rfl

/-- The representation, with the sides apart. -/
structure Sound (g : Grid) (b : FlatBook) : Prop extends Rep g b where
  apart : b.bestBid ≠ NO_BID → b.bestAsk ≠ g.NO_ASK → b.bestBid < b.bestAsk

theorem apart_of_ended (hc : b.crosses g = false) : b.bestBid ≠ NO_BID → b.bestAsk ≠ g.NO_ASK → b.bestBid < b.bestAsk := by
  intro h1 h2
  by_contra hge
  unfold FlatBook.crosses at hc
  rw [decide_eq_true h1, decide_eq_true h2, decide_eq_true (by omega)] at hc
  cases hc

theorem tryMatch_sound (h : Rep g b) : Sound g (b.tryMatch g) := by
  obtain ⟨_, _, hm⟩ := tryMatch_matched h
  exact ⟨hm.rep, apart_of_ended hm.ended⟩

theorem addBuy_sound (h : Sound g b) (hfit : b.fits g true price qty) : Sound g (b.addBuy g price qty).2 := by
  unfold FlatBook.addBuy
  split
  · rename_i hv
    exact tryMatch_sound (placeBuy_rep h.toRep hv hfit).1
  · exact h

theorem addSell_sound (h : Sound g b) (hfit : b.fits g false price qty) : Sound g (b.addSell g price qty).2 := by
  unfold FlatBook.addSell
  split
  · rename_i hv
    exact tryMatch_sound (placeSell_rep h.toRep hv hfit).1
  · exact h

/-- An order with valid parameters is entered by its id. -/
theorem Rep.track (h : Rep g b) (id : Nat) (isBuy : Bool) (hv : g.valid price qty) :
    Rep g { b with ordersById := update b.ordersById id (some { price, qty, isBuy }) } := by
  refine ⟨h.bids, h.asks, h.bestBid, h.bestAsk, fun i ref href => ?_⟩
  have href : update b.ordersById id (some { price, qty, isBuy }) i = some ref := href
  by_cases e : i = id
  · rw [e, update_self] at href
    obtain rfl := Option.some.inj href
    exact valid_iff.mp hv
  · rw [update_of_ne e] at href
    exact h.refs i ref href

theorem submitWithId_sound (h : Sound g b) {isBuy : Bool} (hfit : b.opFits g (.submitWithId id price qty isBuy)) :
    Sound g (b.submitWithId g id price qty isBuy).2 := by
  unfold FlatBook.submitWithId
  split
  · exact h
  · rename_i hv
    have hv : g.valid price qty := by simpa using hv
    split
    · exact h
    · rename_i hnew
      have hfit : b.fits g isBuy price qty := by
        rcases or_eq_true_iff.mp hfit with hc | hc
        · exact absurd hc hnew
        · exact hc
      have hrep := h.toRep.track id isBuy hv
      cases isBuy with
      | true => exact tryMatch_sound (placeBuy_rep hrep hv hfit).1
      | false => exact tryMatch_sound (placeSell_rep hrep hv hfit).1

/-- A cancel lowers one level, whatever is left there of the order, and moves the cursor if it must. -/
theorem cancel_sound (h : Sound g b) (id : Nat) : Sound g (b.cancel g id).2 := by
  unfold FlatBook.cancel
  split
  · exact h
  · rename_i ref href
    obtain ⟨h0, hl, hq⟩ := h.refs id ref href
    have hrefs : ∀ i r, update b.ordersById id none i = some r → 0 ≤ r.price ∧ r.price < g.levels ∧ 0 < r.qty := by
      intro i r hr
      by_cases e : i = id
      · rw [e, update_self] at hr
        cases hr
      · rw [update_of_ne e] at hr
        exact h.refs i r hr
    dsimp only
    split
    · have hnn := h.bids.nonneg ref.price.toNat
      have hsm := h.bids.small ref.price.toNat
      rw [i32_eq
        ⟨by unfold int32Min; omega, by omega⟩]
      generalize hx : b.bidQty ref.price.toNat - min ref.qty (b.bidQty ref.price.toNat) = x
      have ht := h.bids.lower (p := ref.price.toNat) (x := x) (by omega) (by omega) (by omega)
      have hbest : AtBestBid (update b.bidQty ref.price.toNat x)
          (scanDown (if x = 0 then b.bidBits.clearBit ref.price.toNat else b.bidBits) b.bestBid) := by
        refine scanDown_best ht (h.bestBid.lt h.bids) fun q hq => ?_
        have hz := h.bestBid.above q hq
        by_cases e : q = ref.price.toNat
        · subst e
          rw [update_self]
          omega
        · rw [update_of_ne e]
          exact hz
      refine ⟨⟨ht, h.asks, hbest, h.bestAsk, hrefs⟩, fun h1 h2 => ?_⟩
      -- the cursor does not move up
      rcases hbest with ⟨he, -⟩ | ⟨r, he, hr⟩
      · exact absurd he h1
      · show scanDown _ _ < b.bestAsk
        rw [he]
        have hrb : r ≤ b.bestBid := by
          by_contra hlt
          have hz := h.bestBid.above r (by omega)
          have hpos := hr.1
          by_cases e : r = ref.price.toNat
          · subst e
            rw [update_self] at hpos
            omega
          · rw [update_of_ne e] at hpos
            omega
        have := h.apart (by unfold NO_BID; omega) h2
        omega
    · have hnn := h.asks.nonneg ref.price.toNat
      have hsm := h.asks.small ref.price.toNat
      rw [i32_eq
        ⟨by unfold int32Min; omega, by omega⟩]
      generalize hx : b.askQty ref.price.toNat - min ref.qty (b.askQty ref.price.toNat) = x
      have ht := h.asks.lower (p := ref.price.toNat) (x := x) (by omega) (by omega) (by omega)
      have hbest : AtBestAsk g (update b.askQty ref.price.toNat x)
          (scanUp g (if x = 0 then b.askBits.clearBit ref.price.toNat else b.askBits) b.bestAsk) := by
        refine scanUp_best ht h.bestAsk.nonneg fun q hq => ?_
        have hz := h.bestAsk.below q hq
        by_cases e : q = ref.price.toNat
        · subst e
          rw [update_self]
          omega
        · rw [update_of_ne e]
          exact hz
      refine ⟨⟨h.bids, ht, h.bestBid, hbest, hrefs⟩, fun h1 h2 => ?_⟩
      rcases hbest with ⟨he, -⟩ | ⟨r, he, hr⟩
      · exact absurd he h2
      · show b.bestBid < scanUp _ _ _
        rw [he]
        have hrb : b.bestAsk ≤ r := by
          by_contra hlt
          have hz := h.bestAsk.below r (by omega)
          have hpos := hr.1
          by_cases e : r = ref.price.toNat
          · subst e
            rw [update_self] at hpos
            omega
          · rw [update_of_ne e] at hpos
            omega
        have hlt : r < g.levels := by
          by_contra hge
          have := ht.outside r (by omega)
          have := hr.1
          omega
        have := h.apart h1 (by unfold Grid.NO_ASK; omega)
        omega

theorem modify_sound (h : Sound g b) {p q : Int} (hfit : b.opFits g (.modify id p q)) : Sound g (b.modify g id p q).2 := by
  unfold FlatBook.modify
  cases hr : b.ordersById id with
  | none => exact h
  | some ref =>
    have hfit : (b.ordersById id).all (fun ref => (b.cancel g id).2.fits g ref.isBuy p q) := hfit
    rw [hr] at hfit
    exact submitWithId_sound (cancel_sound h id) (or_eq_true_iff.mpr (.inr hfit))

end

/-! ## Runs -/

theorem fresh_sound (g : Grid) : Sound g (fresh g) := by
  have hzero : Tracks g (fun _ => 0) Bitmap.empty := by
    refine ⟨fun _ => le_rfl, fun _ => by unfold int32Max; omega, fun p _ => ?_, fun _ _ => rfl⟩
    rw [Bitmap.test_empty]
    exact ⟨fun hc => (false_ne_true hc).elim, fun hc => absurd hc (lt_irrefl 0)⟩
  refine ⟨⟨hzero, hzero, .inl ⟨rfl, fun _ => rfl⟩, .inl ⟨rfl, fun _ => rfl⟩, fun id ref h => ?_⟩, fun h => absurd rfl h⟩
  cases h

theorem exec_sound {g : Grid} {b : FlatBook} (h : Sound g b) {op : Op} (hop : b.opFits g op) :
    Sound g (b.exec g op) := by
  cases op with
  | addBuy p q => exact addBuy_sound h hop
  | addSell p q => exact addSell_sound h hop
  | submitWithId id p q side => exact submitWithId_sound h hop
  | cancel id => exact cancel_sound h id
  | modify id p q => exact modify_sound h hop

/-- A list of calls, one after another. -/
def FlatBook.run (g : Grid) (b : FlatBook) (ops : List Op) : FlatBook := ops.foldl (FlatBook.exec g) b

/-- No call of the list makes a level overflow. -/
def FlatBook.runFits (g : Grid) (b : FlatBook) : List Op → Bool
  | [] => true
  | op :: ops => b.opFits g op && FlatBook.runFits g (b.exec g op) ops

theorem Reach.run {g : Grid} {b : FlatBook} (h : Reach g b) (ops : List Op) (hfit : b.runFits g ops) :
    Reach g (b.run g ops) := by
  induction ops generalizing b with
  | nil => exact h
  | cons op ops ih =>
    obtain ⟨h1, h2⟩ := and_eq_true_iff.mp hfit
    exact ih (.step op h h1) h2

/-- A grid of two words. -/
def grid128 : Grid := ⟨128, ⟨7, rfl⟩, by decide, by decide⟩

/-- In every state that calls without overflow reach: bits, quantities and cursors agree, and the best bid
    is below the best ask. -/
theorem representation_sound {g : Grid} {b : FlatBook} (h : Reach g b) : Sound g b := by
  induction h with
  | init => exact fresh_sound g
  | step op _ hop ih => exact exec_sound ih hop

/-- Across the boundary of the words: a BUY order eats two SELL levels, a modify moves it down, and the
    cancel of a SELL order finds nothing left of it. -/
theorem representation_sound_small : Sound grid128 ((fresh grid128).run grid128
    [.submitWithId 1 63 5 false, .submitWithId 2 64 4 false, .addSell 127 2, .submitWithId 3 64 10 true, .modify 3 20 1,
     .cancel 2]) :=
  representation_sound (Reach.init.run _ (by decide +kernel))

end HftLab.Flat
