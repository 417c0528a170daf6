/-
  HftLab.Oms.Ledger — the positions against the orders.

  A position's `net_qty` and `pending_qty` are kept by hand in every operation. `Inv`: modulo 2^32
  they are the signed sums over the orders of the symbol, of what was filled and of what working
  orders have left. So they are those sums exactly while these fit in 32 bits
  (`ledger_reconciled_iff`); nothing bounds the filled one.
-/

import HftLab.Lib.Sequence
import HftLab.Oms.Orders
import Mathlib.Data.List.TakeWhile

namespace HftLab.Oms

open Lib Function List

variable {c : Config} {s : OMS}

/-! ## Sums over orders -/

def Side.sign : Side → Int → Int
  | .buy, x => x
  | .sell, x => -x

/-- What the order still adds to the exposure in symbol `k`, signed. -/
def Order.openQty (k : Nat) (o : Order) : Int :=
  if symToKey o.symbol = k ∧ o.isActive = true then o.side.sign (o.quantity - o.filledQty) else 0

/-- What the order added to the position in symbol `k`, signed. -/
def Order.doneQty (k : Nat) (o : Order) : Int := if symToKey o.symbol = k then o.side.sign o.filledQty else 0

/-- The sum of `f` over the orders. -/
def OMS.total (s : OMS) (f : Order → Int) : Int := ∑ i ∈ Finset.range s.nextId, ((s.orders i).map f).getD 0

structure Order.Sound (o : Order) : Prop where
  filled : o.filledQty ≤ o.quantity
  small : (o.quantity : Int) ≤ int32Max
  working : o.isActive = true → o.filledQty < o.quantity
  complete : o.status = .filled → o.filledQty = o.quantity
  known : o.isActive = true ∨ o.status = .filled ∨ o.status = .cancelled

structure Inv (s : OMS) : Prop where
  ids : ∀ i o, s.orders i = some o → i < s.nextId
  sound : ∀ i o, s.orders i = some o → o.Sound
  placed : ∀ i o, s.orders i = some o → (s.positions (symToKey o.symbol)).isSome = true
  pending : ∀ k, s.pendingQty k = i32 (s.total (·.openQty k))
  net : ∀ k, s.netQty k = i32 (s.total (·.doneQty k))

section

variable {c : Config} {s s' : OMS} {i k : Nat} {o o' : Order} {x q key : Nat} {pend net p : Int}

theorem symToKey_copySymbol (sym : List UInt8) : symToKey (copySymbol sym) = symToKey sym := by
  unfold symToKey copySymbol
  rw [take_take, min_self, take_takeWhile, takeWhile_idem]

theorem signedQty_eq (side : Side) {x : Int} (h0 : 0 ≤ x) (h1 : x ≤ int32Max) : signedQty side x = side.sign x := by
  have hx : i32 x = x := i32_eq ⟨by unfold int32Min; omega, h1⟩
  cases side with
  | buy => exact hx
  | sell =>
    show i32 (-i32 x) = -x
    rw [hx]
    exact i32_eq ⟨by unfold int32Min; unfold int32Max at h1; omega, by unfold int32Max; omega⟩

/-- `(int32)quantity - (int32)filled_qty`. -/
theorem remaining_eq {f : Nat} (hf : f ≤ q) (hq : (q : Int) ≤ int32Max) : i32 (i32 q - i32 f) = q - f := by
  have h1 : i32 q = q := i32_eq ⟨by unfold int32Min; omega, hq⟩
  have h2 : i32 f = f := i32_eq ⟨by unfold int32Min; omega, by omega⟩
  rw [h1, h2]
  exact i32_eq ⟨by unfold int32Min; omega, by omega⟩

/-! ## One order changes -/

theorem total_setOrder (f : Order → Int) (hi : i < s.nextId) (ho : s.orders i = some o) (hn : s'.nextId = s.nextId)
    (hs : s'.orders = update s.orders i (some o')) : s'.total f = s.total f + (f o' - f o) := by
  unfold OMS.total
  rw [hn, sum_range_change (f := fun j => ((s.orders j).map f).getD 0) hi]
  · rw [hs, update_self, ho]
    rfl
  · intro j hj
    rw [hs, update_of_ne hj]

theorem total_submit (f : Order → Int) (hs : s'.orders = update s.orders s.nextId (some o))
    (hn : s'.nextId = s.nextId + 1) : s'.total f = s.total f + f o := by
  unfold OMS.total
  rw [hn, Finset.sum_range_succ, hs, update_self]
  congr 1
  refine Finset.sum_congr rfl fun j hj => ?_
  rw [update_of_ne (Finset.mem_range.mp hj).ne]

/-- The position of symbol `key` moves, no other does. -/
structure Shifts (s s' : OMS) (key : Nat) (pend net : Int) : Prop where
  others : ∀ k, k ≠ key → s'.positions k = s.positions k
  some : (s'.positions key).isSome = true
  pending : s'.pendingQty key = i32 (s.pendingQty key + pend)
  net : s'.netQty key = i32 (s.netQty key + net)

theorem Inv.pending_int32 (h : Inv s) (k : Nat) : IsInt32 (s.pendingQty k) := by
  rw [h.pending]
  exact isInt32_i32 _

theorem Inv.net_int32 (h : Inv s) (k : Nat) : IsInt32 (s.netQty k) := by
  rw [h.net]
  exact isInt32_i32 _

theorem Shifts.isSome (h : Shifts s s' key pend net) (hk : (s.positions k).isSome) : (s'.positions k).isSome := by
  by_cases e : k = key
  · exact e ▸ h.some
  · rw [h.others k e]
    exact hk

theorem Shifts.pending_eq (h : Shifts s s' key pend net) (hi : Inv s) (k : Nat) :
    s'.pendingQty k = i32 (s.pendingQty k + if k = key then pend else 0) := by
  by_cases e : k = key
  · rw [if_pos e, e]
    exact h.pending
  · rw [if_neg e, Int.add_zero, i32_eq (hi.pending_int32 k)]
    unfold OMS.pendingQty
    rw [h.others k e]

theorem Shifts.net_eq (h : Shifts s s' key pend net) (hi : Inv s) (k : Nat) :
    s'.netQty k = i32 (s.netQty k + if k = key then net else 0) := by
  by_cases e : k = key
  · rw [if_pos e, e]
    exact h.net
  · rw [if_neg e, Int.add_zero, i32_eq (hi.net_int32 k)]
    unfold OMS.netQty
    rw [h.others k e]

/-- An order is rewritten and the position of its symbol follows. -/
theorem Inv.change (h : Inv s) (o' : Order) (ho : s.orders i = some o) (hsym : o'.symbol = o.symbol) (hso : o'.Sound)
    (horders : s'.orders = update s.orders i (some o')) (hn : s'.nextId = s.nextId)
    (hp : Shifts s s' (symToKey o.symbol) (o'.openQty (symToKey o.symbol) - o.openQty (symToKey o.symbol))
      (o'.doneQty (symToKey o.symbol) - o.doneQty (symToKey o.symbol))) : Inv s' := by
  have hi := h.ids i o ho
  have hcases : ∀ j x, s'.orders j = some x → (j = i ∧ x = o') ∨ s.orders j = some x := by
    intro j x hx
    rw [horders] at hx
    by_cases e : j = i
    · subst e
      rw [update_self] at hx
      exact .inl ⟨rfl, (Option.some.inj hx).symm⟩
    · rw [update_of_ne e] at hx
      exact .inr hx
  -- a symbol other than the order's sees no difference
  have hopen : ∀ k, (if k = symToKey o.symbol then o'.openQty (symToKey o.symbol) - o.openQty (symToKey o.symbol) else 0) =
      o'.openQty k - o.openQty k := by
    intro k
    by_cases e : k = symToKey o.symbol
    · rw [if_pos e, e]
    · unfold Order.openQty
      rw [if_neg e, hsym, if_neg fun hc => e hc.1.symm, if_neg fun hc => e hc.1.symm]
      rfl
  have hdone : ∀ k, (if k = symToKey o.symbol then o'.doneQty (symToKey o.symbol) - o.doneQty (symToKey o.symbol) else 0) =
      o'.doneQty k - o.doneQty k := by
    intro k
    by_cases e : k = symToKey o.symbol
    · rw [if_pos e, e]
    · unfold Order.doneQty
      rw [if_neg e, hsym, if_neg fun hc => e hc.symm, if_neg fun hc => e hc.symm]
      rfl
  refine ⟨?_, ?_, ?_, fun k => ?_, fun k => ?_⟩
  · intro j x hx
    rw [hn]
    rcases hcases j x hx with ⟨rfl, -⟩ | hx
    · exact hi
    · exact h.ids j x hx
  · intro j x hx
    rcases hcases j x hx with ⟨-, rfl⟩ | hx
    · exact hso
    · exact h.sound j x hx
  · intro j x hx
    rcases hcases j x hx with ⟨-, rfl⟩ | hx
    · rw [hsym]
      exact hp.some
    · exact hp.isSome (h.placed j x hx)
  · rw [hp.pending_eq h, h.pending, i32_add_left, hopen, total_setOrder _ hi ho hn horders]
  · rw [hp.net_eq h, h.net, i32_add_left, hdone, total_setOrder _ hi ho hn horders]

/-! ## The operations keep the ledger -/

theorem setPosition_shifts {pos : Position} (ho : s'.positions = update s.positions key (some pos))
    (hp : pos.pendingQty = i32 (s.pendingQty key + pend)) (hn : pos.netQty = i32 (s.netQty key + net)) :
    Shifts s s' key pend net := by
  refine ⟨fun k hk => ?_, ?_, ?_, ?_⟩
  · rw [ho, update_of_ne hk]
  · rw [ho, update_self]
    rfl
  · unfold OMS.pendingQty
    rw [ho, update_self]
    exact hp
  · unfold OMS.netQty
    rw [ho, update_self]
    exact hn

/-- The position an operation works on: the symbol's, or a new one. -/
theorem getD_position (s : OMS) (key : Nat) (sym : List UInt8) :
    ((s.positions key).getD { symbol := sym }).pendingQty = s.pendingQty key ∧
    ((s.positions key).getD { symbol := sym }).netQty = s.netQty key := by
  unfold OMS.pendingQty OMS.netQty
  cases s.positions key <;> exact ⟨rfl, rfl⟩

theorem applyFill_net (pos : Position) (f q p : Int) : (applyFillToPosition pos f q p).netQty = i32 (pos.netQty + f) ∧
    (applyFillToPosition pos f q p).pendingQty = pos.pendingQty := by
  unfold applyFillToPosition
  dsimp only
  split <;> exact ⟨rfl, rfl⟩

theorem shiftPending_shifts (d : Int) (h : Inv s) (hk : (s.positions key).isSome) :
    Shifts s (s.shiftPending key d) key d 0 := by
  obtain ⟨pos, hpos⟩ := Option.isSome_iff_exists.mp hk
  have hs : s.shiftPending key d = s.setPosition key { pos with pendingQty := i32 (pos.pendingQty + d) } := by
    unfold OMS.shiftPending
    rw [hpos]
  have hpend : s.pendingQty key = pos.pendingQty := by
    unfold OMS.pendingQty
    rw [hpos]
    rfl
  have hnet : s.netQty key = pos.netQty := by
    unfold OMS.netQty
    rw [hpos]
    rfl
  rw [hs]
  refine setPosition_shifts rfl (by rw [hpend]) ?_
  rw [Int.add_zero, i32_eq (h.net_int32 key)]
  exact hnet.symm

theorem shiftPending_rest (key : Nat) (d : Int) : (s.shiftPending key d).orders = s.orders ∧
    (s.shiftPending key d).nextId = s.nextId := by
  unfold OMS.shiftPending
  split <;> exact ⟨rfl, rfl⟩

theorem Shifts.setOrder (h : Shifts s s' key pend net) :
    Shifts s (s'.setOrder i o) key pend net := ⟨h.others, h.some, h.pending, h.net⟩

theorem openQty_active (hk : symToKey o.symbol = k) (ha : o.isActive) :
    o.openQty k = o.side.sign (o.quantity - o.filledQty) := if_pos ⟨hk, ha⟩

theorem openQty_inactive (ha : o.isActive = false) : o.openQty k = 0 := by
  refine if_neg fun hc => ?_
  rw [ha] at hc
  cases hc.2

theorem doneQty_eq (hk : symToKey o.symbol = k) : o.doneQty k = o.side.sign o.filledQty := if_pos hk

/-- A working order is cancelled. -/
theorem cancelOrder_eq (h : Inv s) (ho : s.orders i = some o) (ha : o.isActive) : s.cancelOrder i =
    (s.shiftPending (symToKey o.symbol) (-o.side.sign (o.quantity - o.filledQty))).setOrder i { o with status := .cancelled } := by
  have hso := h.sound i o ho
  have hle := hso.filled
  have hsm := hso.small
  unfold OMS.cancelOrder
  rw [ho]
  dsimp only
  rw [ha, remaining_eq hso.filled hso.small, signedQty_eq o.side (by omega) (by omega)]
  rfl

theorem cancelOrder_inv (h : Inv s) (i : Nat) : Inv (s.cancelOrder i) := by
  cases ho : s.orders i with
  | none =>
    unfold OMS.cancelOrder
    rw [ho]
    exact h
  | some o =>
    by_cases ha : o.isActive
    · have hso := h.sound i o ho
      obtain ⟨h1, h2⟩ := shiftPending_rest (symToKey o.symbol) (-o.side.sign (o.quantity - o.filledQty))
      rw [cancelOrder_eq h ho ha]
      refine h.change { o with status := .cancelled } ho rfl ⟨hso.filled, hso.small, ?_, ?_, .inr (.inr rfl)⟩ ?_ h2 ?_
      · intro hc
        cases hc
      · intro hc
        cases hc
      · show update _ i _ = _
        rw [h1]
      · rw [openQty_inactive rfl, openQty_active rfl ha, Int.zero_sub,
          doneQty_eq (o := { o with status := .cancelled }) rfl, doneQty_eq rfl, Int.sub_self]
        exact (shiftPending_shifts _ h (h.placed i o ho)).setOrder
    · unfold OMS.cancelOrder
      rw [ho]
      dsimp only
      rw [Bool.eq_false_iff.mpr ha]
      exact h

/-- What holds of the state and is kept by every cancel of an order holds after the cancels. -/
theorem cancelWhere_keeps {I : OMS → Prop} (hI : ∀ s id, I s → I (s.cancelOrder id)) (c : Config) (h : I s)
    (which : Order → Bool) : I (s.cancelWhere c which).2 := by
  have hfold : ∀ (l : List Nat) (x : Nat × OMS), I x.2 → I (l.foldl (fun x id =>
      if (x.2.orders id).any fun o => o.isActive && which o then (x.1 + 1, x.2.cancelOrder id) else x) x).2 := by
    intro l
    induction l with
    | nil => exact fun _ h => h
    | cons id l ih =>
      intro x h
      rw [foldl_cons]
      apply ih
      split
      · exact hI x.2 id h
      · exact h
  exact hfold _ (0, s) h

theorem cancelWhere_inv (c : Config) (h : Inv s) (which : Order → Bool) : Inv (s.cancelWhere c which).2 :=
  cancelWhere_keeps (I := Inv) (fun _ id h => cancelOrder_inv h id) c h which

theorem fill_active (x : Nat) : (o.fill x).isActive ↔ o.filledQty + x < o.quantity := by
  unfold Order.isActive Order.fill
  by_cases hfull : o.quantity ≤ o.filledQty + x
  · simp [hfull]
  · simp [hfull]
    omega

theorem fill_sound (h : o.Sound) (hx : o.filledQty + x ≤ o.quantity) : (o.fill x).Sound := by
  refine ⟨hx, h.small, (fill_active x).mp, fun hc => ?_, ?_⟩
  · have hfull : o.quantity ≤ o.filledQty + x := by
      by_contra hn
      have : (o.fill x).status = .partial_ := if_neg hn
      rw [this] at hc
      cases hc
    show o.filledQty + x = o.quantity
    omega
  · by_cases hfull : o.quantity ≤ o.filledQty + x
    · exact .inr (.inl (if_pos hfull))
    · exact .inl ((fill_active x).mpr (by omega))

/-- A fill moves as much from the open quantity to the filled one. -/
theorem fill_moves (ha : o.isActive) (hx : o.filledQty + x ≤ o.quantity) :
    (o.fill x).openQty (symToKey o.symbol) - o.openQty (symToKey o.symbol) = -o.side.sign x ∧
    (o.fill x).doneQty (symToKey o.symbol) - o.doneQty (symToKey o.symbol) = o.side.sign x := by
  have hopen : (o.fill x).openQty (symToKey o.symbol) = o.side.sign (o.quantity - (o.filledQty + x : Nat)) := by
    by_cases hlt : o.filledQty + x < o.quantity
    · exact openQty_active rfl ((fill_active x).mpr hlt)
    · rw [openQty_inactive (Bool.eq_false_iff.mpr fun hc => hlt ((fill_active x).mp hc))]
      have : (o.quantity : Int) - ((o.filledQty + x : Nat) : Int) = 0 := by omega
      rw [this]
      cases o.side <;> rfl
  have hdone : (o.fill x).doneQty (symToKey o.symbol) = o.side.sign ((o.filledQty + x : Nat) : Int) := doneQty_eq rfl
  rw [hopen, openQty_active rfl ha, hdone, doneQty_eq rfl]
  cases o.side with
  | buy =>
    show (o.quantity : Int) - ((o.filledQty + x : Nat) : Int) - (o.quantity - o.filledQty) = -x ∧
      ((o.filledQty + x : Nat) : Int) - o.filledQty = x
    omega
  | sell =>
    show -((o.quantity : Int) - ((o.filledQty + x : Nat) : Int)) - -(o.quantity - o.filledQty : Int) = - -(x : Int) ∧
      -((o.filledQty + x : Nat) : Int) - -(o.filledQty : Int) = -(x : Int)
    omega

/-- What `fill_order` does: nothing, or `x` of a working order moves. -/
theorem fillOrder_cases (c : Config) (h : Inv s) (i q : Nat) (p : Int) : (s.fillOrder c i q p).2 = s ∨
    ∃ o x, s.orders i = some o ∧ o.isActive ∧ o.filledQty + x ≤ o.quantity ∧
      (s.fillOrder c i q p).2.orders = update s.orders i (some (o.fill x)) ∧
      (s.fillOrder c i q p).2.nextId = s.nextId ∧
      Shifts s (s.fillOrder c i q p).2 (symToKey o.symbol) (-o.side.sign x) (o.side.sign x) := by
  unfold OMS.fillOrder
  split
  · exact .inl rfl
  · split
    · exact .inl rfl
    · rename_i o ho
      split
      · exact .inl rfl
      · rename_i ha
        dsimp only
        split
        · exact .inl rfl
        · have hso := h.sound i o ho
          have ha : o.isActive := by simpa using ha
          have hlt := hso.working ha
          have hsm := hso.small
          generalize hxe : min q (o.quantity - o.filledQty) = x
          have hle : o.filledQty + x ≤ o.quantity := by omega
          refine .inr ⟨o, x, ho, ha, hle, rfl, rfl, ?_⟩
          rw [signedQty_eq o.side (by omega) (by omega)]
          obtain ⟨hgp, hgn⟩ := getD_position s (symToKey o.symbol) (copySymbol o.symbol)
          obtain ⟨h1, h2⟩ := applyFill_net { (s.positions (symToKey o.symbol)).getD { symbol := copySymbol o.symbol } with
            pendingQty := i32 (((s.positions (symToKey o.symbol)).getD { symbol := copySymbol o.symbol }).pendingQty -
              o.side.sign x) } (o.side.sign x) x p
          refine setPosition_shifts rfl (h2.trans ?_) (h1.trans ?_)
          · rw [hgp, Int.sub_eq_add_neg]
          · rw [hgn]

theorem fillOrder_inv (c : Config) (h : Inv s) (i q : Nat) (p : Int) : Inv (s.fillOrder c i q p).2 := by
  rcases fillOrder_cases c h i q p with he | ⟨o, x, ho, ha, hx, horders, hn, hp⟩
  · rw [he]
    exact h
  · obtain ⟨h1, h2⟩ := fill_moves ha hx
    refine h.change (o.fill x) ho rfl (fill_sound (h.sound i o ho) hx) horders hn ?_
    rw [h1, h2]
    exact hp

theorem replace_active (p : Int) (q : Nat) : (o.replace p q).isActive ↔ o.filledQty < q := by
  unfold Order.isActive Order.replace
  by_cases hfull : q ≤ o.filledQty
  · simp [hfull]
  · by_cases h0 : 0 < o.filledQty
    · simp [hfull, h0]
      omega
    · simp [hfull, h0]
      omega

theorem replace_sound (hq : o.filledQty ≤ q) (hsm : (q : Int) ≤ int32Max) : (o.replace p q).Sound := by
  refine ⟨hq, hsm, (replace_active p q).mp, fun hc => ?_, ?_⟩
  · have hfull : q ≤ o.filledQty := by
      by_contra hn
      have hact := (replace_active (o := o) p q).mpr (by omega)
      unfold Order.isActive at hact
      rw [hc] at hact
      cases hact
    show o.filledQty = q
    omega
  · by_cases hfull : q ≤ o.filledQty
    · exact .inr (.inl (if_pos hfull))
    · exact .inl ((replace_active p q).mpr (by omega))

/-- A replace changes the open quantity only. -/
theorem replace_moves (ha : o.isActive) (hq : o.filledQty ≤ q) :
    (o.replace p q).openQty (symToKey o.symbol) - o.openQty (symToKey o.symbol) =
      o.side.sign (q - o.filledQty) - o.side.sign (o.quantity - o.filledQty) ∧
    (o.replace p q).doneQty (symToKey o.symbol) - o.doneQty (symToKey o.symbol) = 0 := by
  have hopen : (o.replace p q).openQty (symToKey o.symbol) = o.side.sign (q - o.filledQty) := by
    by_cases hlt : o.filledQty < q
    · exact openQty_active rfl ((replace_active p q).mpr hlt)
    · rw [openQty_inactive (Bool.eq_false_iff.mpr fun hc => hlt ((replace_active p q).mp hc))]
      have : (q : Int) - o.filledQty = 0 := by omega
      rw [this]
      cases o.side <;> rfl
  have hdone : (o.replace p q).doneQty (symToKey o.symbol) = o.doneQty (symToKey o.symbol) := rfl
  rw [hopen, openQty_active rfl ha, hdone]
  exact ⟨rfl, Int.sub_self _⟩

/-- What `replace_order` does: nothing, or a working order gets a new quantity. -/
theorem replaceOrder_cases (c : Config) (h : Inv s) (i : Nat) (p : Option Int) (hsm : (q : Int) ≤ int32Max) :
    (s.replaceOrder c i p q).2 = s ∨
    ∃ o x, s.orders i = some o ∧ p = some x ∧ o.isActive ∧ o.filledQty ≤ q ∧ s.replaceAllowed c o x q ∧
      (s.replaceOrder c i p q).2.orders = update s.orders i (some (o.replace x q)) ∧
      (s.replaceOrder c i p q).2.nextId = s.nextId ∧
      Shifts s (s.replaceOrder c i p q).2 (symToKey o.symbol)
        (o.side.sign (q - o.filledQty) - o.side.sign (o.quantity - o.filledQty)) 0 := by
  unfold OMS.replaceOrder
  split
  · rename_i o x ho
    split
    · rename_i hc
      obtain ⟨ha, hallow⟩ := Bool.and_eq_true_iff.mp hc
      have hso := h.sound i o ho
      have hle := hso.filled
      have hosm := hso.small
      have hq : o.filledQty ≤ q := by
        unfold OMS.replaceAllowed at hallow
        simp only [Bool.and_eq_true, decide_eq_true_eq] at hallow
        exact hallow.1.1.2
      refine .inr ⟨o, x, ho, rfl, ha, hq, hallow, ?_⟩
      rw [remaining_eq hso.filled hosm, remaining_eq hq hsm, signedQty_eq o.side (by omega) (by omega),
        signedQty_eq o.side (by omega) (by omega)]
      obtain ⟨h1, h2⟩ := shiftPending_rest (symToKey o.symbol)
        (o.side.sign (q - o.filledQty) - o.side.sign (o.quantity - o.filledQty))
      refine ⟨?_, h2, (shiftPending_shifts _ h (h.placed i o ho)).setOrder⟩
      show update _ i _ = _
      rw [h1]
    · exact .inl rfl
  · exact .inl rfl

theorem replaceOrder_inv (c : Config) (h : Inv s) (i : Nat) (p : Option Int) (hsm : (q : Int) ≤ int32Max) :
    Inv (s.replaceOrder c i p q).2 := by
  rcases replaceOrder_cases c h i p hsm with he | ⟨o, x, ho, -, ha, hq, -, horders, hn, hp⟩
  · rw [he]
    exact h
  · obtain ⟨h1, h2⟩ := replace_moves ha hq
    refine h.change (o.replace x q) ho rfl (replace_sound hq hsm) horders hn ?_
    rw [h1, h2]
    exact hp

/-- An amendment is a replace that lowers the quantity. -/
theorem amendQuantity_cases (c : Config) (s : OMS) (i q : Nat) : (s.amendQuantity c i q).2 = s ∨
    ∃ o, s.orders i = some o ∧ q < o.quantity ∧
      (s.amendQuantity c i q).2 = (s.replaceOrder c i (some (c.refix o.price)) q).2 := by
  unfold OMS.amendQuantity
  split
  · exact .inl rfl
  · rename_i o ho
    split
    · exact .inl rfl
    · split
      · exact .inl rfl
      · rename_i hlt
        split
        · exact .inl rfl
        · exact .inr ⟨o, ho, by omega, rfl⟩

theorem amendQuantity_inv (c : Config) (h : Inv s) (i q : Nat) : Inv (s.amendQuantity c i q).2 := by
  rcases amendQuantity_cases c s i q with he | ⟨o, ho, hlt, he⟩
  · rw [he]
    exact h
  · rw [he]
    have hsm := (h.sound i o ho).small
    exact replaceOrder_inv c h i _ (by omega)

/-- The order `submit_order` makes. -/
def newOrder (sym : List UInt8) (side : Side) (price : Int) (quantity : Nat) (expireNs : Int) : Order :=
  { symbol := copySymbol sym, side, price, quantity, status := .sent, expireNs }

/-- What `submit_order` does: nothing to the books, or a new working order. -/
theorem submitOrder_cases (c : Config) (s : OMS) (sym : List UInt8) (side : Side) (p : Option Int) (e : Int)
    (hsm : (q : Int) ≤ int32Max) :
    ((s.submitOrder c sym side p q e).2 = { s with lastReject := (s.submitOrder c sym side p q e).2.lastReject }) ∨
    ∃ x, p = some x ∧ q ≠ 0 ∧ s.submitReject c sym side p q = .none ∧
      (s.submitOrder c sym side p q e).2.orders = update s.orders s.nextId (some (newOrder sym side x q e)) ∧
      (s.submitOrder c sym side p q e).2.nextId = s.nextId + 1 ∧
      ((∀ k, IsInt32 (s.netQty k)) → Shifts s (s.submitOrder c sym side p q e).2 (symToKey sym) (side.sign q) 0) := by
  unfold OMS.submitOrder
  split
  · rename_i x hr
    have hq : q ≠ 0 := by
      rintro rfl
      unfold OMS.submitReject at hr
      simp at hr
    refine .inr ⟨x, rfl, hq, hr, rfl, rfl, fun hnet => ?_⟩
    obtain ⟨hgp, hgn⟩ := getD_position s (symToKey sym) (copySymbol sym)
    rw [signedQty_eq side (by omega) hsm]
    refine setPosition_shifts rfl ?_ ?_
    · rw [hgp]
    · rw [Int.add_zero, i32_eq (hnet _)]
      exact hgn
  · exact .inl rfl

theorem submitOrder_inv (c : Config) (h : Inv s) (sym : List UInt8) (side : Side) (p : Option Int) (e : Int)
    (hsm : (q : Int) ≤ int32Max) : Inv (s.submitOrder c sym side p q e).2 := by
  rcases submitOrder_cases c s sym side p e hsm with he | ⟨x, -, hq, -, horders, hn, hp⟩
  · rw [he]
    exact ⟨h.ids, h.sound, h.placed, h.pending, h.net⟩
  · have hp := hp h.net_int32
    have hkey : symToKey (newOrder sym side x q e).symbol = symToKey sym := symToKey_copySymbol sym
    have hcases : ∀ j o, (s.submitOrder c sym side p q e).2.orders j = some o →
        (j = s.nextId ∧ o = newOrder sym side x q e) ∨ s.orders j = some o := by
      intro j o ho
      rw [horders] at ho
      by_cases ej : j = s.nextId
      · rw [ej, update_self] at ho
        exact .inl ⟨ej, (Option.some.inj ho).symm⟩
      · rw [update_of_ne ej] at ho
        exact .inr ho
    refine ⟨fun j o ho => ?_, fun j o ho => ?_, fun j o ho => ?_, fun k => ?_, fun k => ?_⟩
    · rw [hn]
      rcases hcases j o ho with ⟨hj, -⟩ | ho
      · omega
      · have := h.ids j o ho
        omega
    · rcases hcases j o ho with ⟨-, rfl⟩ | ho
      · refine ⟨Nat.zero_le _, hsm, fun _ => Nat.pos_of_ne_zero hq, ?_, .inl rfl⟩
        intro hc
        cases hc
      · exact h.sound j o ho
    · rcases hcases j o ho with ⟨-, rfl⟩ | ho
      · rw [hkey]
        exact hp.some
      · exact hp.isSome (h.placed j o ho)
    · have hopen : (newOrder sym side x q e).openQty k = if k = symToKey sym then side.sign q else 0 := by
        by_cases ek : k = symToKey sym
        · rw [if_pos ek, openQty_active (hkey.trans ek.symm) rfl]
          exact congrArg _ (Int.sub_zero _)
        · rw [if_neg ek]
          exact if_neg fun hc => ek (hc.1.symm.trans hkey)
      rw [hp.pending_eq h, h.pending, i32_add_left, total_submit _ horders hn, hopen]
    · have hdone : (newOrder sym side x q e).doneQty k = 0 := by
        unfold Order.doneQty
        split
        · cases side <;> rfl
        · rfl
      rw [hp.net_eq h, h.net, i32_add_left, total_submit _ horders hn, hdone, ite_self]

end

/-! ## Runs -/

/-- The quantities of the call are below 2^31. -/
def Op.small : Op → Bool
  | .submitOrder _ _ _ quantity _ => quantity < 2147483648
  | .replaceOrder _ _ newQuantity => newQuantity < 2147483648
  | _ => true

theorem exec_inv (h : Inv s) {op : Op} (hop : op.small) : Inv (s.exec c op) := by
  cases op with
  | submitOrder sym side p q e =>
    have hq : q < 2147483648 := by simpa [Op.small] using hop
    exact submitOrder_inv c h sym side p e (by unfold int32Max; omega)
  | fillOrder i q p => exact fillOrder_inv c h i q p
  | cancelOrder i => exact cancelOrder_inv h i
  | replaceOrder i p q =>
    have hq : q < 2147483648 := by simpa [Op.small] using hop
    exact replaceOrder_inv c h i p (by unfold int32Max; omega)
  | amendQuantity i q => exact amendQuantity_inv c h i q
  | cancelAll => exact cancelWhere_inv c h _
  | cancelAllSymbol sym => exact cancelWhere_inv c h _
  | purgeExpired now => exact cancelWhere_inv c h _

theorem fresh_inv : Inv fresh := by
  refine ⟨?_, ?_, ?_, fun _ => rfl, fun _ => rfl⟩
  · intro i o h
    cases h
  · intro i o h
    cases h
  · intro i o h
    cases h

theorem Reach.inv (h : Reach c (fun _ op => op.small = true) s) : Inv s := by
  induction h with
  | init => exact fresh_inv
  | step op _ hop ih => exact exec_inv ih hop

/-- The positions are the sums of the orders, and the status of each order tells what was filled. -/
structure Reconciled (s : OMS) : Prop where
  pending : ∀ k, s.pendingQty k = s.total (·.openQty k)
  net : ∀ k, s.netQty k = s.total (·.doneQty k)
  filled : ∀ i o, s.orders i = some o → o.filledQty ≤ o.quantity
  status : ∀ i o, s.orders i = some o → o.status ≠ .cancelled → (o.status = .filled ↔ o.filledQty = o.quantity)

/-- The sums of each symbol are 32-bit values. -/
def OMS.SumsFit (s : OMS) : Prop := ∀ k, IsInt32 (s.total (·.openQty k)) ∧ IsInt32 (s.total (·.doneQty k))

theorem Inv.status (h : Inv s) {i : Nat} {o : Order} (ho : s.orders i = some o) (hc : o.status ≠ .cancelled) :
    o.status = .filled ↔ o.filledQty = o.quantity := by
  have hso := h.sound i o ho
  refine ⟨hso.complete, fun he => ?_⟩
  rcases hso.known with ha | hf | hf
  · have := hso.working ha
    omega
  · exact hf
  · exact absurd hf hc

/-- A list of operations, one after another. -/
def OMS.run (c : Config) (s : OMS) (ops : List Op) : OMS := ops.foldl (OMS.exec c) s

/-- Every operation of the list meets `chk`, in the state it is called in. -/
def OMS.meets (c : Config) (chk : OMS → Op → Bool) (s : OMS) : List Op → Bool
  | [] => true
  | op :: ops => chk s op && OMS.meets c chk (s.exec c op) ops

theorem Reach.run {P : OMS → Op → Prop} (chk : OMS → Op → Bool) (h : Reach c P s) (ops : List Op)
    (hchk : s.meets c chk ops) (hP : ∀ s op, chk s op → P s op) : Reach c P (s.run c ops) := by
  induction ops generalizing s with
  | nil => exact h
  | cons op ops ih =>
    obtain ⟨h1, h2⟩ := Bool.and_eq_true_iff.mp hchk
    exact ih (.step op h (hP s op h1)) h2

/-- A position limit of `m`, orders of any value, no commission. -/
def plainConfig (m : Int) (h : IsInt32 m) : Config where
  maxPosition := m
  maxPosition_int32 := h
  maxOrderValue := 1000000000
  commissionFp := 0
  refix := id
  iter := id
  iter_perm := fun _ => List.Perm.refl _

/-- The ledger is reconciled exactly while the sums of each symbol fit in 32 bits. -/
theorem ledger_reconciled_iff {c : Config} {s : OMS} (h : Reach c (fun _ op => op.small = true) s) :
    Reconciled s ↔ s.SumsFit := by
  have hi := Reach.inv h
  constructor
  · intro hr k
    have h1 := hr.pending k
    have h2 := hr.net k
    rw [hi.pending] at h1
    rw [hi.net] at h2
    exact ⟨i32_eq_iff.mp h1, i32_eq_iff.mp h2⟩
  · intro hf
    refine ⟨fun k => ?_, fun k => ?_, fun i o ho => (hi.sound i o ho).filled, fun i o ho hc => hi.status ho hc⟩
    · rw [hi.pending, i32_eq (hf k).1]
    · rw [hi.net, i32_eq (hf k).2]

/-- Symbol "A", key 65: one order filled in part, one cancelled. -/
theorem ledger_reconciled_small : Reconciled (fresh.run (plainConfig 1000 (by decide))
    [.submitOrder [65] .buy (some 10000) 10 0, .fillOrder 1 4 10000, .submitOrder [65] .sell (some 10000) 3 0,
     .cancelOrder 2]) := by
  refine (ledger_reconciled_iff (Reach.run (fun _ op => op.small) .init _ (by decide) fun _ _ h => h)).mpr fun k => ?_
  generalize hs : fresh.run (plainConfig 1000 (by decide)) [.submitOrder [65] .buy (some 10000) 10 0,
    .fillOrder 1 4 10000, .submitOrder [65] .sell (some 10000) 3 0, .cancelOrder 2] = s
  have hn : s.nextId = 3 := by rw [← hs]; decide
  have h0 : s.orders 0 = none := by rw [← hs]; decide
  have h1 : s.orders 1 =
      some { symbol := [65], side := .buy, price := 10000, quantity := 10, filledQty := 4, status := .partial_ } := by
    rw [← hs]
    decide
  have h2 : s.orders 2 = some { symbol := [65], side := .sell, price := 10000, quantity := 3, status := .cancelled } := by
    rw [← hs]
    decide
  unfold OMS.total Order.openQty Order.doneQty
  rw [hn]
  simp only [Finset.sum_range_succ, Finset.sum_range_zero, h0, h1, h2, Option.map_none, Option.map_some, Option.getD_none,
    Option.getD_some]
  by_cases hk : symToKey [65] = k
  · subst hk
    decide
  · simp only [hk, false_and, if_false]
    decide

/-- Bought twice and never sold, 2^31 - 1 each: the projection `net + pending + new` is within the limit
    every time, but the position wraps to -2. -/
theorem net_qty_wraps : ¬ Reconciled (fresh.run (plainConfig 2147483647 (by decide))
    [.submitOrder [65] .buy (some 100) 2147483647 0, .fillOrder 1 2147483647 100,
     .submitOrder [65] .sell (some 100) 2147483647 0, .submitOrder [65] .buy (some 100) 2147483647 0,
     .fillOrder 3 2147483647 100]) := by
  intro h
  exact absurd (h.net 65) (by decide)

end HftLab.Oms
