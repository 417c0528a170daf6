/-
  HftLab.Flat.Modify — what a cancel and a modify do to the levels.

  A cancel takes from the level of the order the quantity the order was submitted with, or all there is
  (`cancel_depth`). A modify is a cancel and then a submission, and the submission checks the new price
  and quantity when the order is already gone.

  - `modify_atomic_iff`: it replaces the order or leaves the book as it was, unless the new parameters
    are ones that the submission refuses.
-/

import HftLab.Flat.Invariant

namespace HftLab.Flat

open Lib

/-- The quantities of one side. -/
def FlatBook.side (b : FlatBook) (isBuy : Bool) : Nat → Int := if isBuy then b.bidQty else b.askQty

/-- What a cancel of the order `ref` takes from its level. -/
def FlatBook.drop (b : FlatBook) (ref : OrderRef) : Int := min ref.qty (b.side ref.isBuy ref.price.toNat)

/-- Quantities, occupancy, best prices and the orders by id are the same. -/
structure Untouched (b b' : FlatBook) : Prop where
  bidQty : b'.bidQty = b.bidQty
  askQty : b'.askQty = b.askQty
  bidBits : b'.bidBits = b.bidBits
  askBits : b'.askBits = b.askBits
  bestBid : b'.bestBid = b.bestBid
  bestAsk : b'.bestAsk = b.bestAsk
  ordersById : b'.ordersById = b.ordersById

/-- `modify` answered `r.1` and left `r.2`: the order was taken out and one with the new parameters added
    and matched, or nothing was done. -/
structure Atomic (b : FlatBook) (id : Nat) (newPrice newQty : Int) (r : Bool × FlatBook) : Prop where
  replaced : r.1 = true → ∃ ref, b.ordersById id = some ref ∧
    r.2.ordersById = Function.update b.ordersById id (some ⟨newPrice, newQty, ref.isBuy⟩) ∧
    ∃ n v, Uncrosses ((b.depth.add ref.isBuy ref.price.toNat (-b.drop ref)).add ref.isBuy newPrice.toNat newQty) n v r.2.depth
  kept : r.1 = false → Untouched b r.2

section

variable {g : Grid} {b : FlatBook} {id : Nat} {ref : OrderRef} {price qty : Int}

theorem tryMatch_ordersById (b : FlatBook) : (b.tryMatch g).ordersById = b.ordersById := by
  have hrounds : ∀ n (b : FlatBook), (b.tryMatchUpTo g n).ordersById = b.ordersById := by
    intro n
    induction n with
    | zero => exact fun _ => rfl
    | succ n ih =>
      intro b
      unfold FlatBook.tryMatchUpTo
      split
      · rw [ih]
        simp only [FlatBook.matchBest, FlatBook.advanceAsk, FlatBook.advanceBid]
        split <;> split <;> rfl
      · rfl
  exact hrounds g.levels b

theorem cancel_ordersById (h : b.ordersById id = some ref) :
    (b.cancel g id).2.ordersById = Function.update b.ordersById id none := by
  unfold FlatBook.cancel
  rw [h]
  dsimp only
  split <;> rfl

/-- A cancel lowers the level of the order, and nothing else. -/
theorem cancel_depth (h : Rep g b) (hid : b.ordersById id = some ref) :
    (b.cancel g id).2.depth = b.depth.add ref.isBuy ref.price.toNat (-b.drop ref) := by
  obtain ⟨h0, hl, hq⟩ := h.refs id ref hid
  have hlow : ∀ x : Int, 0 ≤ x → x ≤ int32Max → i32 (x - min ref.qty x) = x + -min ref.qty x := by
    intro x h1 h2
    rw [i32_eq ⟨by unfold int32Min; omega, by omega⟩]
    omega
  unfold FlatBook.cancel
  rw [hid]
  dsimp only
  unfold FlatBook.drop FlatBook.side FlatBook.depth Depth.add
  split
  · rw [hlow _ (h.bids.nonneg _) (h.bids.small _)]
  · rw [hlow _ (h.asks.nonneg _) (h.asks.small _)]

/-- An accepted submission adds the order and lets the sides match. -/
theorem submitWithId_uncrosses {isBuy : Bool} (h : Rep g b) (hid : b.ordersById id = none) (hv : g.valid price qty)
    (hfit : b.fits g isBuy price qty) : (b.submitWithId g id price qty isBuy).1 ∧
      (b.submitWithId g id price qty isBuy).2.ordersById = Function.update b.ordersById id (some ⟨price, qty, isBuy⟩) ∧
      ∃ n v, Uncrosses (b.depth.add isBuy price.toNat qty) n v (b.submitWithId g id price qty isBuy).2.depth := by
  have hdup : ¬ (b.ordersById id).isSome := by
    rw [hid]
    exact Bool.false_ne_true
  have hrep := h.track id isBuy hv
  unfold FlatBook.submitWithId
  rw [hv, if_neg (by simp), if_neg hdup]
  refine ⟨rfl, ?_, ?_⟩
  · rw [tryMatch_ordersById]
    split <;> rfl
  · cases isBuy with
    | true =>
      obtain ⟨hplaced, hdepth⟩ := placeBuy_rep hrep hv hfit
      obtain ⟨n, v, hm⟩ := tryMatch_matched hplaced
      have href := hm.refines
      rw [hdepth] at href
      exact ⟨n, v, href⟩
    | false =>
      obtain ⟨hplaced, hdepth⟩ := placeSell_rep hrep hv hfit
      obtain ⟨n, v, hm⟩ := tryMatch_matched hplaced
      have href := hm.refines
      rw [hdepth] at href
      exact ⟨n, v, href⟩

theorem submitWithId_refused {isBuy : Bool} (hv : g.valid price qty = false) :
    b.submitWithId g id price qty isBuy = (false, b) := by
  unfold FlatBook.submitWithId
  rw [hv]
  rfl

end

/-- In every state that calls without overflow reach, and where the new quantity overflows no level: `modify` replaces the order or
    leaves the book untouched, exactly if it knows no order with the id or its new parameters are valid. -/
theorem modify_atomic_iff {g : Grid} {b : FlatBook} {id : Nat} {newPrice newQty : Int} (h : Reach g b)
    (hfit : b.opFits g (.modify id newPrice newQty) = true) :
    Atomic b id newPrice newQty (b.modify g id newPrice newQty) ↔ b.ordersById id = none ∨ g.valid newPrice newQty = true := by
  have hsound := representation_sound h
  unfold FlatBook.modify
  cases hid : b.ordersById id with
  | none =>
    refine ⟨fun _ => Or.inl rfl, fun _ => ⟨fun hc => ?_, fun _ => ?_⟩⟩
    · cases hc
    · exact ⟨rfl, rfl, rfl, rfl, rfl, rfl, rfl⟩
  | some ref =>
    have hgone : (b.cancel g id).2.ordersById id = none := by
      rw [cancel_ordersById hid, Function.update_self]
    have hfit' : (b.cancel g id).2.fits g ref.isBuy newPrice newQty = true := by
      have hfit : (b.ordersById id).all (fun ref => (b.cancel g id).2.fits g ref.isBuy newPrice newQty) = true := hfit
      rw [hid] at hfit
      exact hfit
    dsimp only
    cases hv : g.valid newPrice newQty with
    | true =>
      obtain ⟨hok, hrefs, hunc⟩ := submitWithId_uncrosses (cancel_sound hsound id).toRep hgone hv hfit'
      refine ⟨fun _ => Or.inr rfl, fun _ => ⟨fun _ => ⟨ref, hid, ?_, ?_⟩, fun hc => ?_⟩⟩
      · rw [hrefs, cancel_ordersById hid, Function.update_idem]
      · rw [cancel_depth hsound.toRep hid] at hunc
        exact hunc
      · rw [hok] at hc
        cases hc
    | false =>
      -- the order is gone when its replacement is refused
      rw [submitWithId_refused hv]
      refine ⟨fun hatomic => ?_, fun hc => ?_⟩
      · have hkept := congrFun (hatomic.kept rfl).ordersById id
        rw [hgone, hid] at hkept
        cases hkept
      · rcases hc with hc | hc <;> cases hc

/-- An order is moved away from the ask and made smaller. -/
theorem modify_atomic_small : Atomic ((fresh grid128).run grid128 [.submitWithId 1 63 5 true, .addSell 64 2]) 1 60 3
    (((fresh grid128).run grid128 [.submitWithId 1 63 5 true, .addSell 64 2]).modify grid128 1 60 3) :=
  (modify_atomic_iff (Reach.init.run _ (by decide +kernel)) (by decide +kernel)).mpr (Or.inr (by decide))

/-- A modify to a price that is not on the grid fails and takes the order away. -/
theorem refused_modify_cancels :
    ((((fresh grid128).run grid128 [.submitWithId 1 63 5 true]).modify grid128 1 128 5).1 = false) ∧
    ¬ Atomic ((fresh grid128).run grid128 [.submitWithId 1 63 5 true]) 1 128 5
      (((fresh grid128).run grid128 [.submitWithId 1 63 5 true]).modify grid128 1 128 5) := by
  have hrefused : (((fresh grid128).run grid128 [.submitWithId 1 63 5 true]).modify grid128 1 128 5).1 = false := by
    decide +kernel
  have hqty : (((fresh grid128).run grid128 [.submitWithId 1 63 5 true]).modify grid128 1 128 5).2.bidQty 63 = 0 := by
    decide +kernel
  have hbefore : ((fresh grid128).run grid128 [.submitWithId 1 63 5 true]).bidQty 63 = 5 := by decide +kernel
  refine ⟨hrefused, fun hatomic => ?_⟩
  have hkept := congrFun (hatomic.kept hrefused).bidQty 63
  rw [hqty, hbefore] at hkept
  cases hkept

end HftLab.Flat
