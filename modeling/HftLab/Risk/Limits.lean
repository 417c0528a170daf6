/-
  HftLab.Risk.Limits — what the limits of `check_order` are worth to a desk that uses the manager as it is meant to be
  used: an order is sent only after ALLOW, and filled or cancelled for no more than was sent.

  `check_order` looks at the net of what is working, so a BUY makes room for a SELL of twice its size. Once the SELL is
  filled and the BUY is not, the position is past the cap. What keeps the limits through every order of fills and
  cancels is room for the two sides apart: between them lie all positions that the working orders can still lead to.
-/

import HftLab.Risk.Exposure
import Mathlib.Algebra.Order.BigOperators.Group.Finset

namespace HftLab.Risk

open Lib List
open HftLab.Oms (Side symToKey abs32)

/-! ## The desk -/

structure Order where
  symbol : List UInt8
  side : Side
  remaining : Int
  deriving DecidableEq, Repr

structure Desk (D : Type) where
  risk : RiskManager D
  /-- Orders that `check_order` allowed and that were not sent yet. -/
  approved : List Order := []
  working : List Order := []

inductive Act (D : Type) where
  | check (symbol : List UInt8) (side : Side) (price : D) (quantity now : Int)
  | send (i : Nat)
  | fill (i : Nat) (q : Int)
  | cancel (i : Nat) (q : Int)
  | pnl (change : D)

/-- `q` of the order at place `i` is filled or cancelled. -/
def workOff (w : List Order) (i : Nat) (o : Order) (q : Int) : List Order := w.set i { o with remaining := o.remaining - q }

/-- `none` where the desk would break its own rules. -/
def Desk.exec {D : Type} (F : Doubles D) (d : Desk D) : Act D → Option (Desk D)
  | .check symbol side price quantity now =>
    if 0 < quantity then
      let res := d.risk.checkOrder F symbol side price quantity now
      let approved := if res.1.action = .allow then d.approved ++ [⟨symbol, side, quantity⟩] else d.approved
      some { d with risk := res.2, approved }
    else none
  | .send i => d.approved[i]?.map fun o =>
    { risk := d.risk.onOrderSent o.symbol o.side o.remaining
      approved := d.approved.eraseIdx i
      working := o :: d.working }
  | .fill i q => d.working[i]?.bind fun o =>
    if 0 < q ∧ q ≤ o.remaining then
      some { d with
        risk := d.risk.updatePosition o.symbol o.side q
        working := workOff d.working i o q }
    else none
  | .cancel i q => d.working[i]?.bind fun o =>
    if 0 < q ∧ q ≤ o.remaining then
      some { d with
        risk := d.risk.onOrderCancelled o.symbol o.side q
        working := workOff d.working i o q }
    else none
  | .pnl change => some { d with risk := d.risk.updatePnl F change }

/-! ## Limits and room -/

section

variable {D : Type} (r : RiskManager D) (w : List Order) (k : Nat)

/-- A long position is within the long cap, a short one within the short cap. -/
def RiskManager.Capped (x : Int) : Prop := if 0 ≤ x then x ≤ r.longCap k else -x ≤ r.shortCap k

structure RiskManager.Within : Prop where
  position : ∀ k, r.Capped k (lookup r.positions k)
  exposure : ∀ k, r.Capped k (lookup r.positions k + lookup r.pending k)
  total : r.totalAbsExposure ≤ r.limits.maxPortfolioExposure

/-- What is working on one side of a symbol. -/
def workingQty (side : Side) : Int :=
  (w.map fun o => if o.side = side ∧ symToKey o.symbol = k then o.remaining else 0).sum

/-- The position if every BUY is filled and no SELL. -/
def longest : Int := lookup r.positions k + workingQty w k .buy

/-- How short the position is if every SELL is filled and no BUY. -/
def shortest : Int := workingQty w k .sell - lookup r.positions k

/-- The symbols that are held or worked. -/
def usedSymbols : Finset Nat := r.symbols ∪ (w.map fun o => symToKey o.symbol).toFinset

/-- The limits hold whichever of the orders `w` are filled or cancelled, and 32 bits hold the quantities. -/
structure Room : Prop where
  long : ∀ k, longest r w k ≤ r.longCap k
  short : ∀ k, shortest r w k ≤ r.shortCap k
  total : ∑ k ∈ usedSymbols r w, max (longest r w k) (shortest r w k) ≤ r.limits.maxPortfolioExposure
  fits : ∀ k, longest r w k ≤ int32Max ∧ shortest r w k ≤ int32Max ∧ ∀ side, workingQty w k side ≤ int32Max

end

/-- A send finds room for its order beside those that are working. -/
def Desk.hasRoom {D : Type} (d : Desk D) : Act D → Prop
  | .send i => ∀ o, d.approved[i]? = some o → Room d.risk (o :: d.working)
  | _ => True

/-! ## Quantities at work -/

section

variable {D : Type} {F : Doubles D} {r r' : RiskManager D} {w w' : List Order} {o : Order} {k : Nat} {side : Side}

theorem workingQty_nonneg (hw : ∀ o ∈ w, 0 ≤ o.remaining) (k : Nat) (side : Side) : 0 ≤ workingQty w k side := by
  refine sum_nonneg fun x hx => ?_
  obtain ⟨o, ho, rfl⟩ := mem_map.mp hx
  split
  · exact hw o ho
  · exact Int.le_refl 0

theorem workingQty_cons (o : Order) (w : List Order) (k : Nat) (side : Side) : workingQty (o :: w) k side =
    (if o.side = side ∧ symToKey o.symbol = k then o.remaining else 0) + workingQty w k side := by
  unfold workingQty
  rw [map_cons, sum_cons]

/-- `q` of a working order is done with. -/
theorem workingQty_set {i : Nat} (h : w[i]? = some o) (q : Int) (k : Nat) (side : Side) :
    workingQty (w.set i { o with remaining := o.remaining - q }) k side =
      workingQty w k side - if o.side = side ∧ symToKey o.symbol = k then q else 0 := by
  unfold workingQty
  rw [sum_map_set _ h]
  dsimp only
  split <;> omega

/-- The part of the order `o` in the net of symbol `k`. -/
theorem working_net (o : Order) (k : Nat) (q : Int) :
    (if o.side = .buy ∧ symToKey o.symbol = k then q else 0) - (if o.side = .sell ∧ symToKey o.symbol = k then q else 0) =
      if k = symToKey o.symbol then signed o.side q else 0 := by
  by_cases e : symToKey o.symbol = k
  · rw [if_pos e.symm]
    cases hs : o.side
    · rw [if_pos ⟨rfl, e⟩, if_neg (by rintro ⟨h, -⟩; cases h)]
      exact Int.sub_zero q
    · rw [if_neg (by rintro ⟨h, -⟩; cases h), if_pos ⟨rfl, e⟩]
      exact Int.zero_sub q
  · rw [if_neg (fun h => e h.2), if_neg (fun h => e h.2), if_neg (Ne.symm e)]
    rfl

/-- Less room is taken: fewer orders, or the same ones further on. -/
theorem Room.mono (h : Room r w) (hl : r'.limits = r.limits) (hp : r'.symbolPosLimit = r.symbolPosLimit)
    (hw : ∀ o ∈ w, 0 ≤ o.remaining) (hsym : usedSymbols r' w' ⊆ usedSymbols r w)
    (hlong : ∀ k, longest r' w' k ≤ longest r w k) (hshort : ∀ k, shortest r' w' k ≤ shortest r w k)
    (hqty : ∀ k side, workingQty w' k side ≤ workingQty w k side) : Room r' w' := by
  have hcap : ∀ k, r'.longCap k = r.longCap k := by
    intro k
    unfold RiskManager.longCap
    rw [hl, hp]
  have hcap' : ∀ k, r'.shortCap k = r.shortCap k := by
    intro k
    unfold RiskManager.shortCap
    rw [hl, hcap]
  refine ⟨fun k => ?_, fun k => ?_, ?_, fun k => ⟨?_, ?_, fun side => ?_⟩⟩
  · rw [hcap]
    exact (hlong k).trans (h.long k)
  · rw [hcap']
    exact (hshort k).trans (h.short k)
  · rw [hl]
    calc ∑ k ∈ usedSymbols r' w', max (longest r' w' k) (shortest r' w' k)
        ≤ ∑ k ∈ usedSymbols r' w', max (longest r w k) (shortest r w k) :=
          Finset.sum_le_sum fun k _ => max_le_max (hlong k) (hshort k)
      _ ≤ ∑ k ∈ usedSymbols r w, max (longest r w k) (shortest r w k) := by
          refine Finset.sum_le_sum_of_subset_of_nonneg hsym fun k _ _ => ?_
          have h1 := workingQty_nonneg hw k .buy
          have h2 := workingQty_nonneg hw k .sell
          unfold longest shortest
          omega
      _ ≤ r.limits.maxPortfolioExposure := h.total
  · exact (hlong k).trans (h.fits k).1
  · exact (hshort k).trans (h.fits k).2.1
  · exact (hqty k side).trans ((h.fits k).2.2 side)

/-- Two sides that fit and a position between the extremes: position, net and exposure fit. -/
theorem Room.isInt32 (h : Room r w) (hw : ∀ o ∈ w, 0 ≤ o.remaining) {p : Int}
    (hp : p = workingQty w k .buy - workingQty w k .sell) :
    IsInt32 (lookup r.positions k) ∧ IsInt32 p ∧ IsInt32 |lookup r.positions k + p| := by
  obtain ⟨h1, h2, h3⟩ := h.fits k
  have h4 := workingQty_nonneg hw k .buy
  have h5 := workingQty_nonneg hw k .sell
  have h6 := h3 .buy
  have h7 := h3 .sell
  have h8 := abs_nonneg (lookup r.positions k + p)
  unfold longest at h1
  unfold shortest at h2
  have h9 : |lookup r.positions k + p| ≤ int32Max := by
    rw [abs_eq_max_neg]
    exact max_le (by omega) (by omega)
  unfold IsInt32 int32Min int32Max at *
  omega

/-! ## The invariant -/

structure Desk.Sound (d : Desk D) : Prop where
  approved : ∀ o ∈ d.approved, 0 < o.remaining
  working : ∀ o ∈ d.working, 0 ≤ o.remaining
  pending : ∀ k, lookup d.risk.pending k = workingQty d.working k .buy - workingQty d.working k .sell
  room : Room d.risk d.working
  exact : d.risk.totalAbsExposure = d.risk.netExposure

variable {d d' : Desk D}

/-- Position and exposure lie between the two extremes. -/
theorem Desk.Sound.between (h : d.Sound) (k : Nat) :
    lookup d.risk.positions k ≤ longest d.risk d.working k ∧ -lookup d.risk.positions k ≤ shortest d.risk d.working k ∧
    lookup d.risk.positions k + lookup d.risk.pending k ≤ longest d.risk d.working k ∧
    -(lookup d.risk.positions k + lookup d.risk.pending k) ≤ shortest d.risk d.working k := by
  have h1 := workingQty_nonneg h.working k .buy
  have h2 := workingQty_nonneg h.working k .sell
  have h3 := h.pending k
  unfold longest shortest
  omega

theorem Desk.Sound.within (h : d.Sound) : d.risk.Within := by
  have hcap : ∀ k x, x ≤ longest d.risk d.working k → -x ≤ shortest d.risk d.working k → d.risk.Capped k x := by
    intro k x h1 h2
    unfold RiskManager.Capped
    split
    · exact h1.trans (h.room.long k)
    · exact h2.trans (h.room.short k)
  refine ⟨fun k => ?_, fun k => ?_, ?_⟩
  · obtain ⟨h1, h2, -⟩ := h.between k
    exact hcap k _ h1 h2
  · obtain ⟨-, -, h1, h2⟩ := h.between k
    exact hcap k _ h1 h2
  · rw [h.exact, netExposure_of_subset Finset.subset_union_left]
    refine (Finset.sum_le_sum fun k _ => ?_).trans h.room.total
    obtain ⟨-, -, h1, h2⟩ := h.between k
    rw [abs_eq_max_neg]
    exact max_le_max h1 h2

/-! ## Steps -/

/-- The manager was not told about quantities. -/
theorem Desk.Sound.congr (h : d.Sound) (ha : ∀ o ∈ d'.approved, 0 < o.remaining) (hw : d'.working = d.working)
    (h1 : d'.risk.positions = d.risk.positions) (h2 : d'.risk.pending = d.risk.pending)
    (h3 : d'.risk.totalAbsExposure = d.risk.totalAbsExposure) (h4 : d'.risk.limits = d.risk.limits)
    (h5 : d'.risk.symbolPosLimit = d.risk.symbolPosLimit) : d'.Sound := by
  refine ⟨ha, by rw [hw]; exact h.working, by rw [hw, h2]; exact h.pending, ?_, ?_⟩
  · have hlong : ∀ k, longest d'.risk d'.working k = longest d.risk d.working k := by
      intro k
      unfold longest
      rw [h1, hw]
    have hshort : ∀ k, shortest d'.risk d'.working k = shortest d.risk d.working k := by
      intro k
      unfold shortest
      rw [h1, hw]
    have hsym : usedSymbols d'.risk d'.working = usedSymbols d.risk d.working := by
      unfold usedSymbols RiskManager.symbols
      rw [h1, h2, hw]
    exact h.room.mono h4 h5 h.working hsym.le (fun k => (hlong k).le) (fun k => (hshort k).le) fun k side => by rw [hw]
  · rw [h3, h.exact, netExposure_congr h1 h2]

theorem Desk.Sound.check {symbol : List UInt8} {side : Side} {price : D} {quantity now : Int} (h : d.Sound)
    (hs : d.exec F (.check symbol side price quantity now) = some d') : d'.Sound := by
  obtain ⟨h1, h2, h3, h4, h5⟩ := checkOrder_keeps (F := F) d.risk symbol side price quantity now
  rw [Desk.exec] at hs
  split at hs
  · cases hs
    refine h.congr ?_ rfl h1 h2 h3 h4 h5
    intro o ho
    split at ho
    · rcases mem_append.mp ho with ho | ho
      · exact h.approved o ho
      · cases mem_singleton.mp ho
        assumption
    · exact h.approved o ho
  · cases hs

theorem Desk.Sound.pnl {change : D} (h : d.Sound) (hs : d.exec F (.pnl change) = some d') : d'.Sound := by
  obtain ⟨h1, h2, h3, h4, h5⟩ := updatePnl_keeps (F := F) d.risk change
  cases hs
  exact h.congr h.approved rfl h1 h2 h3 h4 h5

/-- The call named a symbol that is worked. -/
theorem usedSymbols_subset (hk : k ∈ (w.map fun o => symToKey o.symbol).toFinset) (hsym : r'.symbols ⊆ insert k r.symbols) :
    usedSymbols r' w ⊆ usedSymbols r w := by
  refine Finset.union_subset (hsym.trans (Finset.insert_subset ?_ Finset.subset_union_left)) Finset.subset_union_right
  exact Finset.mem_union_right _ hk

theorem isInt32_signed {q : Int} (h0 : 0 ≤ q) (h : q ≤ int32Max) (side : Side) : IsInt32 (signed side q) := by
  unfold signed IsInt32 int32Min int32Max at *
  cases side <;> dsimp only <;> omega

theorem Desk.Sound.send {i : Nat} (h : d.Sound) (ho : d.approved[i]? = some o) (hroom : Room d.risk (o :: d.working)) :
    ({ risk := d.risk.onOrderSent o.symbol o.side o.remaining, approved := d.approved.eraseIdx i,
       working := o :: d.working } : Desk D).Sound := by
  have hpos : 0 < o.remaining := h.approved o (mem_of_getElem? ho)
  have hw : ∀ x ∈ o :: d.working, 0 ≤ x.remaining := by
    intro x hx
    rcases mem_cons.mp hx with rfl | hx
    · omega
    · exact h.working x hx
  have hle : o.remaining ≤ workingQty (o :: d.working) (symToKey o.symbol) o.side := by
    have h1 := workingQty_nonneg h.working (symToKey o.symbol) o.side
    rw [workingQty_cons, if_pos ⟨rfl, rfl⟩]
    omega
  have hnet : ∀ k, lookup d.risk.pending k + (if k = symToKey o.symbol then signed o.side o.remaining else 0) =
      workingQty (o :: d.working) k .buy - workingQty (o :: d.working) k .sell := by
    intro k
    have h1 := h.pending k
    have h2 := working_net o k o.remaining
    rw [workingQty_cons, workingQty_cons]
    omega
  have hfits : d.risk.fits (.onOrderSent o.symbol o.side o.remaining) := by
    have hk := hnet (symToKey o.symbol)
    rw [if_pos rfl] at hk
    obtain ⟨-, -, h1⟩ := h.room.isInt32 h.working (h.pending (symToKey o.symbol))
    obtain ⟨-, h2, h3⟩ := hroom.isInt32 hw hk
    exact ⟨isInt32_signed hpos.le (hle.trans ((hroom.fits _).2.2 _)) _, h2, h1, h3⟩
  rw [onOrderSent_eq hfits]
  refine ⟨fun x hx => h.approved x (mem_of_mem_eraseIdx hx), hw, fun k => ?_, ?_, adjustPending_exact h.exact hfits⟩
  · rw [← hnet k]
    rw [adjustPending_pending hfits.2.1, lookup_insert]
    split
    · rename_i e
      rw [e]
    · rw [Int.add_zero]
  · have hsym : usedSymbols (d.risk.adjustPending (symToKey o.symbol) (signed o.side o.remaining)) (o :: d.working) ⊆
        usedSymbols d.risk (o :: d.working) :=
      usedSymbols_subset (mem_toFinset.mpr mem_cons_self) (symbols_adjustPending _ _ _)
    exact hroom.mono rfl rfl hw hsym (fun _ => le_rfl) (fun _ => le_rfl) fun _ _ => le_rfl

section

variable {i : Nat} {q : Int}

theorem workOff_nonneg (hw : ∀ o ∈ w, 0 ≤ o.remaining) (hq : q ≤ o.remaining) : ∀ x ∈ workOff w i o q, 0 ≤ x.remaining := by
  intro x hx
  rcases mem_or_eq_of_mem_set hx with hx | rfl
  · exact hw x hx
  · show 0 ≤ o.remaining - q
    omega

theorem usedSymbols_workOff (ho : w[i]? = some o) (hsym : r'.symbols ⊆ insert (symToKey o.symbol) r.symbols) :
    usedSymbols r' (workOff w i o q) ⊆ usedSymbols r w := by
  have hmem : ∀ x ∈ w, symToKey x.symbol ∈ (w.map fun o => symToKey o.symbol).toFinset :=
    fun x hx => mem_toFinset.mpr (mem_map_of_mem hx)
  have ho' := hmem o (mem_of_getElem? ho)
  refine Finset.union_subset ?_ fun k hk => Finset.mem_union_right _ ?_
  · exact hsym.trans (Finset.insert_subset (Finset.mem_union_right _ ho') Finset.subset_union_left)
  · obtain ⟨x, hx, rfl⟩ := mem_map.mp (mem_toFinset.mp hk)
    rcases mem_or_eq_of_mem_set hx with hx | rfl
    · exact hmem x hx
    · exact ho'

theorem Desk.Sound.net_workOff (h : d.Sound) (ho : d.working[i]? = some o) (k : Nat) :
    lookup d.risk.pending k - (if k = symToKey o.symbol then signed o.side q else 0) =
      workingQty (workOff d.working i o q) k .buy - workingQty (workOff d.working i o q) k .sell := by
  have h1 := h.pending k
  have h2 := working_net o k q
  unfold workOff
  rw [workingQty_set ho, workingQty_set ho]
  omega

theorem workingQty_workOff_le (ho : w[i]? = some o) (hq : 0 < q) (k : Nat) (side : Side) :
    workingQty (workOff w i o q) k side ≤ workingQty w k side := by
  unfold workOff
  rw [workingQty_set ho]
  split <;> omega

theorem Desk.Sound.le_workingQty (h : d.Sound) (ho : d.working[i]? = some o) (hq : q ≤ o.remaining) :
    q ≤ workingQty d.working (symToKey o.symbol) o.side := by
  have h1 := workingQty_nonneg (workOff_nonneg (i := i) h.working hq) (symToKey o.symbol) o.side
  unfold workOff at h1
  rw [workingQty_set ho, if_pos ⟨rfl, rfl⟩] at h1
  omega

theorem neg_signed (side : Side) (q : Int) : ∃ s, -signed side q = signed s q := by
  cases side with
  | buy => exact ⟨.sell, rfl⟩
  | sell => exact ⟨.buy, Int.neg_neg q⟩

theorem Desk.Sound.cancel (h : d.Sound) (ho : d.working[i]? = some o) (h0 : 0 < q) (hq : q ≤ o.remaining) :
    ({ d with risk := d.risk.onOrderCancelled o.symbol o.side q, working := workOff d.working i o q } : Desk D).Sound := by
  have hw := workOff_nonneg (i := i) h.working hq
  have hle := workingQty_workOff_le ho h0
  have hlong : ∀ k, longest d.risk (workOff d.working i o q) k ≤ longest d.risk d.working k := by
    intro k
    have h1 := hle k .buy
    unfold longest
    omega
  have hshort : ∀ k, shortest d.risk (workOff d.working i o q) k ≤ shortest d.risk d.working k := by
    intro k
    have h1 := hle k .sell
    unfold shortest
    omega
  have hroom : Room d.risk (workOff d.working i o q) :=
    h.room.mono rfl rfl h.working (usedSymbols_workOff ho (Finset.subset_insert _ _)) hlong hshort hle
  have hfits : d.risk.fits (.onOrderCancelled o.symbol o.side q) := by
    have hk := h.net_workOff (q := q) ho (symToKey o.symbol)
    rw [if_pos rfl, Int.sub_eq_add_neg] at hk
    obtain ⟨-, -, h1⟩ := h.room.isInt32 h.working (h.pending (symToKey o.symbol))
    obtain ⟨-, h2, h3⟩ := hroom.isInt32 hw hk
    have hmax := (h.le_workingQty ho hq).trans ((h.room.fits _).2.2 _)
    refine ⟨isInt32_signed h0.le hmax _, ?_, h2, h1, h3⟩
    obtain ⟨s, h4⟩ := neg_signed o.side q
    rw [h4]
    exact isInt32_signed h0.le hmax _
  rw [onOrderCancelled_eq hfits]
  refine ⟨h.approved, hw, fun k => ?_, ?_, adjustPending_exact h.exact hfits.2⟩
  · rw [← h.net_workOff ho k]
    rw [adjustPending_pending hfits.2.2.1, lookup_insert]
    split
    · rename_i e
      rw [e]
      omega
    · rw [Int.sub_zero]
  · exact h.room.mono rfl rfl h.working (usedSymbols_workOff ho (symbols_adjustPending _ _ _)) hlong hshort hle

theorem Desk.Sound.fill (h : d.Sound) (ho : d.working[i]? = some o) (h0 : 0 < q) (hq : q ≤ o.remaining) :
    ({ d with risk := d.risk.updatePosition o.symbol o.side q, working := workOff d.working i o q } : Desk D).Sound := by
  have hw := workOff_nonneg (i := i) h.working hq
  have hle := workingQty_workOff_le ho h0
  have hmax := (h.le_workingQty ho hq).trans ((h.room.fits _).2.2 _)
  have hfits : d.risk.fits (.updatePosition o.symbol o.side q) := by
    have hnet := h.net_workOff (q := q) ho (symToKey o.symbol)
    have h1 := workingQty_nonneg hw (symToKey o.symbol) .buy
    have h2 := workingQty_nonneg hw (symToKey o.symbol) .sell
    have h3 := hle (symToKey o.symbol) .buy
    have h4 := hle (symToKey o.symbol) .sell
    obtain ⟨h5, h6, h7⟩ := h.room.fits (symToKey o.symbol)
    have h8 := h7 .buy
    have h9 := h7 .sell
    have h10 := h.le_workingQty ho hq
    have h11 := working_net o (symToKey o.symbol) q
    rw [if_pos rfl] at hnet h11
    unfold longest at h5
    unfold shortest at h6
    refine ⟨isInt32_signed h0.le hmax _, ?_, ?_⟩
    · cases hs : o.side <;> rw [hs] at h10 <;> unfold signed IsInt32 int32Min int32Max at * <;> dsimp only <;> omega
    · unfold IsInt32 int32Min int32Max at *
      omega
  have hpos : ∀ k, lookup (d.risk.updatePosition o.symbol o.side q).positions k =
      lookup d.risk.positions k + if k = symToKey o.symbol then signed o.side q else 0 := by
    intro k
    rw [updatePosition_positions hfits, lookup_insert]
    split
    · rename_i e
      rw [e]
    · rw [Int.add_zero]
  -- A filled BUY was in `longest` already, and makes the position less short.
  have hlong : ∀ k, longest (d.risk.updatePosition o.symbol o.side q) (workOff d.working i o q) k ≤ longest d.risk d.working k := by
    intro k
    unfold longest workOff
    rw [hpos, workingQty_set ho]
    have h1 := working_net o k q
    split_ifs at h1 ⊢ <;> omega
  have hshort : ∀ k, shortest (d.risk.updatePosition o.symbol o.side q) (workOff d.working i o q) k ≤ shortest d.risk d.working k := by
    intro k
    unfold shortest workOff
    rw [hpos, workingQty_set ho]
    have h1 := working_net o k q
    split_ifs at h1 ⊢ <;> omega
  refine ⟨h.approved, hw, fun k => ?_, ?_, updatePosition_exact h.exact hfits⟩
  · rw [← h.net_workOff ho k]
    rw [updatePosition_pending hfits, lookup_insert]
    split
    · rename_i e
      rw [e]
    · rw [Int.sub_zero]
  · exact h.room.mono rfl rfl h.working (usedSymbols_workOff ho (symbols_updatePosition _ _ _ _)) hlong hshort hle

end

theorem Desk.Sound.exec {a : Act D} (h : d.Sound) (hroom : d.hasRoom a) (hs : d.exec F a = some d') : d'.Sound := by
  cases a with
  | check => exact h.check hs
  | pnl => exact h.pnl hs
  | send i =>
    obtain ⟨o, ho, rfl⟩ := Option.map_eq_some_iff.mp hs
    exact h.send ho (hroom o ho)
  | fill i q =>
    obtain ⟨o, ho, hs⟩ := Option.bind_eq_some_iff.mp hs
    split at hs
    · rename_i hq
      cases hs
      exact h.fill ho hq.1 hq.2
    · cases hs
  | cancel i q =>
    obtain ⟨o, ho, hs⟩ := Option.bind_eq_some_iff.mp hs
    split at hs
    · rename_i hq
      cases hs
      exact h.cancel ho hq.1 hq.2
    · cases hs

end

/-- Nothing is held, sent or approved. -/
structure Desk.Idle {D : Type} (d : Desk D) : Prop where
  positions : d.risk.positions = ∅
  pending : d.risk.pending = ∅
  total : d.risk.totalAbsExposure = 0
  approved : d.approved = []
  working : d.working = []

section

variable {D : Type} {F : Doubles D} {r : RiskManager D} {d₀ d : Desk D}

theorem lookup_empty (k : Nat) : lookup ∅ k = 0 := lookup_of_notMem (AList.notMem_empty k)

theorem shortCap_nonneg {k : Nat} (h : 0 ≤ r.longCap k) : 0 ≤ r.shortCap k := by
  unfold RiskManager.shortCap
  split <;> omega

theorem Desk.Idle.sound (h : d.Idle) (hcap : ∀ k, 0 ≤ d.risk.longCap k) (hmax : 0 ≤ d.risk.limits.maxPortfolioExposure) :
    d.Sound := by
  have hsym : d.risk.symbols = ∅ := by
    unfold RiskManager.symbols
    rw [h.positions, h.pending]
    rfl
  refine ⟨?_, ?_, fun k => ?_, ⟨fun k => ?_, fun k => ?_, ?_, fun k => ?_⟩, ?_⟩
  · rw [h.approved]
    exact fun _ ho => absurd ho not_mem_nil
  · rw [h.working]
    exact fun _ ho => absurd ho not_mem_nil
  · rw [h.pending, h.working, lookup_empty]
    rfl
  · unfold longest
    rw [h.positions, h.working, lookup_empty]
    exact hcap k
  · unfold shortest
    rw [h.positions, h.working, lookup_empty]
    exact shortCap_nonneg (hcap k)
  · unfold usedSymbols
    rw [hsym, h.working]
    exact hmax
  · unfold longest shortest
    rw [h.positions, h.working, lookup_empty]
    have h0 : 0 ≤ int32Max := by decide
    exact ⟨h0, h0, fun _ => h0⟩
  · unfold RiskManager.netExposure
    rw [hsym, h.total]
    rfl

end

/-- A desk whose every send finds room stays within the limits, whatever is filled or cancelled and in whichever order. -/
theorem limits_hold {D : Type} (F : Doubles D) {d₀ d : Desk D} (h0 : d₀.Idle) (hcap : ∀ k, 0 ≤ d₀.risk.longCap k)
    (hmax : 0 ≤ d₀.risk.limits.maxPortfolioExposure)
    (h : Reachable (· = d₀) (fun d d' => ∃ a, d.hasRoom a ∧ d.exec F a = some d') d) : d.risk.Within := by
  have hsound : d.Sound := by
    refine h.invariant ?_ ?_
    · rintro s rfl
      exact h0.sound hcap hmax
    · rintro s s' hs ⟨a, hroom, ha⟩
      exact hs.exec hroom ha
  exact hsound.within

def sampleDesk : Desk Int := { risk := fresh wholeDoubles sampleLimits }

theorem sampleDesk_idle : sampleDesk.Idle := ⟨rfl, rfl, rfl, rfl, rfl⟩

/-- A desk that holds and works nothing has room for an order within the caps. -/
theorem room_first {D : Type} {r : RiskManager D} {o : Order} (hpos : r.positions = ∅) (hpend : r.pending = ∅)
    (h0 : 0 ≤ o.remaining) (hlong : ∀ k, o.remaining ≤ r.longCap k) (hshort : ∀ k, o.remaining ≤ r.shortCap k)
    (hmax : o.remaining ≤ r.limits.maxPortfolioExposure) (h32 : o.remaining ≤ int32Max) : Room r [o] := by
  have hqty : ∀ k side, 0 ≤ workingQty [o] k side ∧ workingQty [o] k side ≤ o.remaining := by
    intro k side
    unfold workingQty
    rw [map_singleton, sum_singleton]
    split <;> omega
  have hl : ∀ k, longest r [o] k ≤ o.remaining := by
    intro k
    unfold longest
    rw [hpos, lookup_empty, Int.zero_add]
    exact (hqty k .buy).2
  have hs : ∀ k, shortest r [o] k ≤ o.remaining := by
    intro k
    unfold shortest
    rw [hpos, lookup_empty, Int.sub_zero]
    exact (hqty k .sell).2
  have hsym : usedSymbols r [o] = {symToKey o.symbol} := by
    unfold usedSymbols RiskManager.symbols
    rw [hpos, hpend]
    rfl
  refine ⟨fun k => (hl k).trans (hlong k), fun k => (hs k).trans (hshort k), ?_, fun k => ⟨?_, ?_, fun side => ?_⟩⟩
  · rw [hsym, Finset.sum_singleton]
    exact (max_le (hl _) (hs _)).trans hmax
  · exact (hl k).trans h32
  · exact (hs k).trans h32
  · exact (hqty k side).2.trans h32

/-- A BUY of 400 is allowed, sent and filled for 150. -/
theorem limits_hold_sample : ∃ d : Desk Int, lookup d.risk.positions 65 = 150 ∧ d.risk.Within := by
  obtain ⟨r, hr⟩ : ∃ r, r = (sampleDesk.risk.checkOrder wholeDoubles [65] .buy 10 400 0).2 := ⟨_, rfl⟩
  obtain ⟨hpos, hpend, -, hlim, hover⟩ := checkOrder_keeps (F := wholeDoubles) sampleDesk.risk [65] .buy 10 400 0
  rw [← hr] at hpos hpend hlim hover
  have hallow : (sampleDesk.risk.checkOrder wholeDoubles [65] .buy 10 400 0).1.action = .allow := by decide +kernel
  have hcheck : sampleDesk.exec wholeDoubles (.check [65] .buy 10 400 0) =
      some { risk := r, approved := [⟨[65], .buy, 400⟩] } := by
    rw [Desk.exec, if_pos (by decide)]
    dsimp only
    rw [if_pos hallow, hr]
    rfl
  have hroom : Room r [⟨[65], .buy, 400⟩] := by
    refine room_first hpos hpend (by decide) (fun k => ?_) (fun k => ?_) (by rw [hlim]; decide) (by decide)
    · unfold RiskManager.longCap
      rw [hlim, hover]
      show 400 ≤ 1000
      decide
    · unfold RiskManager.shortCap RiskManager.longCap
      rw [hlim, hover]
      show 400 ≤ 1000
      decide
  refine ⟨_, ?_, limits_hold wholeDoubles sampleDesk_idle (fun _ => ?_) (by decide) (.step (.step (.step (.start rfl)
    ⟨.check [65] .buy 10 400 0, trivial, hcheck⟩) ⟨.send 0, ?_, rfl⟩) ⟨.fill 0 150, trivial, rfl⟩)⟩
  · rw [hr]
    decide +kernel
  · show 0 ≤ 1000
    decide
  · rintro o ⟨⟩
    exact hroom

/-- The SELL is allowed because it is twice the BUY that is working. -/
def crossedOrders : List (Act Int) :=
  [.check [65] .buy 10 1000 0, .send 0, .check [65] .sell 10 2000 0, .send 0, .fill 0 2000]

theorem position_past_cap : ∃ d : Desk Int,
    Reachable (· = sampleDesk) (fun d d' => ∃ a, d.exec wholeDoubles a = some d') d ∧
    lookup d.risk.positions 65 = -2000 ∧ d.risk.shortCap 65 = 1000 ∧ ¬ d.risk.Within := by
  have hrun : (runEvents (Desk.exec wholeDoubles) crossedOrders sampleDesk).map
      (fun d => (lookup d.risk.positions 65, d.risk.shortCap 65)) = some (-2000, 1000) := by
    decide +kernel
  obtain ⟨d, hd, hval⟩ := Option.map_eq_some_iff.mp hrun
  obtain ⟨hpos, hcap⟩ := Prod.mk.inj hval
  refine ⟨d, .run (fun s a s' h => ⟨a, h⟩) crossedOrders (.start rfl) hd, hpos, hcap, fun h => ?_⟩
  have h1 := h.position 65
  unfold RiskManager.Capped at h1
  rw [hpos, if_neg (by decide), hcap] at h1
  revert h1
  decide

end HftLab.Risk
