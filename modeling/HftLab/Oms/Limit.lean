/-
  HftLab.Oms.Limit — the position limit.

  The pre-trade checks bound |net + pending + new|, where `pending` nets working BUY against working
  SELL orders. What an order can do is one-sided: all BUY orders may fill and no SELL order, or the
  SELL orders are cancelled. `Within`: the position stays within the limit whichever working orders
  fill; fills and cancels keep that (`Within.lower`), and an order that is let in keeps it if the
  limit has room for all working orders of its side (`keepsLimit`), which the checks do not ask for.
-/

import HftLab.Oms.Ledger
import Mathlib.Algebra.Order.BigOperators.Group.Finset
import Mathlib.Algebra.Order.Group.Abs
import Mathlib.Algebra.Order.Ring.Int

namespace HftLab.Oms

open Lib

/-- What a working order of `side` in symbol `k` has left. -/
def Order.workingQty (side : Side) (k : Nat) (o : Order) : Int :=
  if symToKey o.symbol = k ∧ o.isActive = true ∧ o.side = side then o.quantity - o.filledQty else 0

/-- All that working orders of `side` in symbol `k` have left. -/
def OMS.working (s : OMS) (side : Side) (k : Nat) : Int := s.total (·.workingQty side k)

/-- Whichever of `buy` and `sell` fill, the position of `net` stays within the limit, and both are 32-bit values. -/
def Config.hasRoom (c : Config) (net buy sell : Int) : Prop :=
  net + buy ≤ c.maxPosition ∧ -c.maxPosition ≤ net - sell ∧ buy ≤ int32Max ∧ sell ≤ int32Max

instance (c : Config) (net buy sell : Int) : Decidable (c.hasRoom net buy sell) := inferInstanceAs (Decidable (_ ∧ _))

/-- If the call lets an order in, or a new quantity of one, there is room for all working orders of its
    symbol, side by side. -/
def OMS.keepsLimit (c : Config) (s : OMS) : Op → Bool
  | .submitOrder sym side p q _ =>
    s.submitReject c sym side p q ≠ .none ||
      c.hasRoom (s.netQty (symToKey sym)) (s.working .buy (symToKey sym) + if side = .buy then (q : Int) else 0)
        (s.working .sell (symToKey sym) + if side = .sell then (q : Int) else 0)
  | .replaceOrder i p q =>
    (s.orders i).all fun o => p.all fun x => !o.isActive || !s.replaceAllowed c o x q ||
      let k := symToKey o.symbol
      c.hasRoom (s.netQty k) (s.working .buy k + ((o.replace x q).workingQty .buy k - o.workingQty .buy k))
        (s.working .sell k + ((o.replace x q).workingQty .sell k - o.workingQty .sell k))
  | _ => true

/-- Whichever working orders fill, the limit holds. -/
def Within (c : Config) (s : OMS) : Prop :=
  ∀ k, c.hasRoom (s.total (·.doneQty k)) (s.working .buy k) (s.working .sell k)

section

variable {c : Config} {s s' : OMS} {i k : Nat} {o o' : Order}

theorem workingQty_nonneg (h : o.Sound) (side : Side) (k : Nat) : 0 ≤ o.workingQty side k := by
  have := h.filled
  unfold Order.workingQty
  split <;> omega

theorem Inv.working_nonneg (h : Inv s) (side : Side) (k : Nat) : 0 ≤ s.working side k := by
  unfold OMS.working OMS.total
  refine Finset.sum_nonneg fun j _ => ?_
  cases hj : s.orders j with
  | none => exact le_rfl
  | some o => exact workingQty_nonneg (h.sound j o hj) side k

/-- The pending quantity nets the two sides. -/
theorem openQty_sides (k : Nat) (o : Order) : o.openQty k = o.workingQty .buy k - o.workingQty .sell k := by
  unfold Order.openQty Order.workingQty
  by_cases hk : symToKey o.symbol = k ∧ o.isActive
  · obtain ⟨h1, h2⟩ := hk
    cases hs : o.side with
    | buy =>
      simp [h1, h2, Side.sign]
    | sell =>
      simp [h1, h2, Side.sign]
  · rw [if_neg hk, if_neg fun hc => hk ⟨hc.1, hc.2.1⟩, if_neg fun hc => hk ⟨hc.1, hc.2.1⟩]
    rfl

theorem total_openQty (s : OMS) (k : Nat) : s.total (·.openQty k) = s.working .buy k - s.working .sell k := by
  unfold OMS.working OMS.total
  rw [← Finset.sum_sub_distrib]
  refine Finset.sum_congr rfl fun j _ => ?_
  cases s.orders j with
  | none => rfl
  | some o => exact openQty_sides k o

/-- Within the limit, `net_qty` is what was filled. -/
theorem Within.net_eq (h : Within c s) (hi : Inv s) (k : Nat) : s.netQty k = s.total (·.doneQty k) := by
  obtain ⟨h1, h2, h3, h4⟩ := h k
  have hb := hi.working_nonneg .buy k
  have hs := hi.working_nonneg .sell k
  have hM := c.maxPosition_int32.2
  rw [hi.net]
  exact i32_eq ⟨by unfold int32Min; unfold int32Max at hM; omega, by omega⟩

/-- Within the limit, the fields are the exact sums and the limit holds of them. -/
theorem Within.limit (h : Within c s) (hi : Inv s) (k : Nat) :
    |s.netQty k + s.pendingQty k| ≤ c.maxPosition ∧ |s.netQty k| ≤ c.maxPosition := by
  obtain ⟨h1, h2, h3, h4⟩ := h k
  have hb := hi.working_nonneg .buy k
  have hs := hi.working_nonneg .sell k
  have hpend : s.pendingQty k = s.working .buy k - s.working .sell k := by
    rw [hi.pending, total_openQty]
    exact i32_eq ⟨by unfold int32Min; unfold int32Max at h4; omega, by omega⟩
  rw [h.net_eq hi, hpend, abs_le, abs_le]
  omega

/-- An order is rewritten so that neither side has more to fill, for what it has filled. -/
theorem Within.lower (h : Within c s) (hi : Inv s) (o' : Order) (ho : s.orders i = some o)
    (horders : s'.orders = Function.update s.orders i (some o')) (hn : s'.nextId = s.nextId)
    (hbuy : ∀ k, o'.workingQty .buy k ≤ o.workingQty .buy k ∧
      o'.doneQty k + o'.workingQty .buy k ≤ o.doneQty k + o.workingQty .buy k)
    (hsell : ∀ k, o'.workingQty .sell k ≤ o.workingQty .sell k ∧
      o.doneQty k - o.workingQty .sell k ≤ o'.doneQty k - o'.workingQty .sell k) : Within c s' := by
  intro k
  have hid := hi.ids i o ho
  have h1 : s'.total (·.doneQty k) = _ := total_setOrder _ hid ho hn horders
  have h2 : s'.total (·.workingQty .buy k) = _ := total_setOrder _ hid ho hn horders
  have h3 : s'.total (·.workingQty .sell k) = _ := total_setOrder _ hid ho hn horders
  obtain ⟨r1, r2, r3, r4⟩ := h k
  obtain ⟨b1, b2⟩ := hbuy k
  obtain ⟨s1, s2⟩ := hsell k
  unfold OMS.working at r1 r2 r3 r4
  unfold Config.hasRoom OMS.working
  omega

/-! ## The operations stay within the limit -/

theorem workingQty_other (side : Side) (hk : symToKey o.symbol ≠ k) : o.workingQty side k = 0 :=
  if_neg fun hc => hk hc.1

theorem workingQty_inactive (side : Side) (ha : o.isActive = false) : o.workingQty side k = 0 := by
  refine if_neg fun hc => ?_
  rw [ha] at hc
  cases hc.2.1

theorem workingQty_active (ha : o.isActive) (side : Side) :
    o.workingQty side (symToKey o.symbol) = if o.side = side then (o.quantity : Int) - o.filledQty else 0 := by
  unfold Order.workingQty
  simp only [ha, true_and]

theorem fill_working (ha : o.isActive) {x : Nat} (hx : o.filledQty + x ≤ o.quantity) (side : Side) :
    (o.fill x).workingQty side (symToKey o.symbol) =
      o.workingQty side (symToKey o.symbol) - if o.side = side then (x : Int) else 0 := by
  rw [workingQty_active ha]
  by_cases hlt : o.filledQty + x < o.quantity
  · have h1 := workingQty_active ((fill_active x).mpr hlt) side
    have h2 : (o.fill x).workingQty side (symToKey o.symbol) =
        if o.side = side then (o.quantity : Int) - ((o.filledQty + x : Nat) : Int) else 0 := h1
    rw [h2]
    split <;> omega
  · rw [workingQty_inactive side (Bool.eq_false_iff.mpr fun hc => hlt ((fill_active x).mp hc))]
    split <;> omega

theorem fill_done (x : Nat) : (o.fill x).doneQty (symToKey o.symbol) =
    o.doneQty (symToKey o.symbol) + o.side.sign x := by
  have h1 : (o.fill x).doneQty (symToKey o.symbol) = o.side.sign ((o.filledQty + x : Nat) : Int) := doneQty_eq rfl
  rw [h1, doneQty_eq rfl]
  cases o.side with
  | buy =>
    show ((o.filledQty + x : Nat) : Int) = o.filledQty + x
    omega
  | sell =>
    show -((o.filledQty + x : Nat) : Int) = -(o.filledQty : Int) + -(x : Int)
    omega

/-- A fill moves a working order towards one end of what `Within` allows. -/
theorem fillOrder_within (h : Within c s) (hi : Inv s) (i q : Nat) (p : Int) : Within c (s.fillOrder c i q p).2 := by
  rcases fillOrder_cases c hi i q p with he | ⟨o, x, ho, ha, hx, horders, hn, -⟩
  · rw [he]
    exact h
  · have hdone : ∀ k, symToKey o.symbol ≠ k → (o.fill x).doneQty k = o.doneQty k := by
      intro k hk
      unfold Order.doneQty
      rw [if_neg hk]
      exact if_neg hk
    refine h.lower hi (o.fill x) ho horders hn (fun k => ?_) (fun k => ?_)
    · by_cases hk : symToKey o.symbol = k
      · rw [← hk, fill_working ha hx, fill_done]
        cases o.side with
        | buy => simp [Side.sign]
        | sell => simp [Side.sign]
      · rw [workingQty_other (o := o.fill x) .buy hk, workingQty_other .buy hk, hdone k hk]
        omega
    · by_cases hk : symToKey o.symbol = k
      · rw [← hk, fill_working ha hx, fill_done]
        cases o.side with
        | buy => simp [Side.sign]
        | sell =>
          simp only [Side.sign, if_true]
          omega
      · rw [workingQty_other (o := o.fill x) .sell hk, workingQty_other .sell hk, hdone k hk]
        omega

theorem cancelOrder_within (h : Within c s) (hi : Inv s) (i : Nat) : Within c (s.cancelOrder i) := by
  cases ho : s.orders i with
  | none =>
    unfold OMS.cancelOrder
    rw [ho]
    exact h
  | some o =>
    by_cases ha : o.isActive
    · have hso := hi.sound i o ho
      obtain ⟨h1, h2⟩ := shiftPending_rest (symToKey o.symbol) (-o.side.sign (o.quantity - o.filledQty))
      rw [cancelOrder_eq hi ho ha]
      refine h.lower hi { o with status := .cancelled } ho ?_ h2 (fun k => ?_) (fun k => ?_)
      · show Function.update _ i _ = _
        rw [h1]
      · have hnn := workingQty_nonneg hso .buy k
        have hdone : Order.doneQty k { o with status := .cancelled } = o.doneQty k := rfl
        rw [workingQty_inactive .buy rfl, hdone]
        omega
      · have hnn := workingQty_nonneg hso .sell k
        have hdone : Order.doneQty k { o with status := .cancelled } = o.doneQty k := rfl
        rw [workingQty_inactive .sell rfl, hdone]
        omega
    · unfold OMS.cancelOrder
      rw [ho]
      dsimp only
      rw [Bool.eq_false_iff.mpr ha]
      exact h

theorem cancelWhere_within (h : Within c s) (hi : Inv s) (which : Order → Bool) : Within c (s.cancelWhere c which).2 :=
  (cancelWhere_keeps (I := fun s => Inv s ∧ Within c s)
    (fun _ id hs => ⟨cancelOrder_inv hs.1 id, cancelOrder_within hs.2 hs.1 id⟩) c ⟨hi, h⟩ which).2

theorem replace_working {p : Int} {q : Nat} (hq : o.filledQty ≤ q) (side : Side) :
    (o.replace p q).workingQty side (symToKey o.symbol) = if o.side = side then (q : Int) - o.filledQty else 0 := by
  by_cases hlt : o.filledQty < q
  · exact workingQty_active ((replace_active p q).mpr hlt) side
  · rw [workingQty_inactive side (Bool.eq_false_iff.mpr fun hc => hlt ((replace_active p q).mp hc))]
    split <;> omega

theorem amendQuantity_within (h : Within c s) (hi : Inv s) (i q : Nat) : Within c (s.amendQuantity c i q).2 := by
  rcases amendQuantity_cases c s i q with he | ⟨o, ho, hlt, he⟩
  · rw [he]
    exact h
  · have hsm := (hi.sound i o ho).small
    rw [he]
    rcases replaceOrder_cases c hi i (some (c.refix o.price)) (q := q) (by omega) with
      he | ⟨o1, x, ho1, -, ha, hq, -, horders, hn, -⟩
    · rw [he]
      exact h
    · obtain rfl : o = o1 := Option.some.inj (ho.symm.trans ho1)
      have hle : ∀ side k, (o.replace x q).workingQty side k ≤ o.workingQty side k := by
        intro side k
        by_cases hk : symToKey o.symbol = k
        · rw [← hk, replace_working hq, workingQty_active ha]
          split <;> omega
        · rw [workingQty_other (o := o.replace x q) side hk, workingQty_other side hk]
      refine h.lower hi (o.replace x q) ho horders hn (fun k => ⟨hle .buy k, ?_⟩) (fun k => ⟨hle .sell k, ?_⟩)
      · have hdone : (o.replace x q).doneQty k = o.doneQty k := rfl
        have := hle .buy k
        omega
      · have hdone : (o.replace x q).doneQty k = o.doneQty k := rfl
        have := hle .sell k
        omega

/-- A replaced order keeps the limit if there is room for its new quantity. -/
theorem replaceOrder_within (h : Within c s) (hi : Inv s) (i : Nat) (p : Option Int) {q : Nat} (hsm : (q : Int) ≤ int32Max)
    (hroom : s.keepsLimit c (.replaceOrder i p q)) : Within c (s.replaceOrder c i p q).2 := by
  rcases replaceOrder_cases c hi i p hsm with he | ⟨o, x, ho, rfl, ha, hq, hallow, horders, hn, -⟩
  · rw [he]
    exact h
  · intro k
    have hid := hi.ids i o ho
    have h1 : (s.replaceOrder c i (some x) q).2.total (·.doneQty k) = _ := total_setOrder _ hid ho hn horders
    have h2 : (s.replaceOrder c i (some x) q).2.total (·.workingQty .buy k) = _ := total_setOrder _ hid ho hn horders
    have h3 : (s.replaceOrder c i (some x) q).2.total (·.workingQty .sell k) = _ := total_setOrder _ hid ho hn horders
    have hdone : (o.replace x q).doneQty k = o.doneQty k := rfl
    unfold OMS.working
    rw [h1, h2, h3, hdone, Int.sub_self, Int.add_zero]
    by_cases hk : symToKey o.symbol = k
    · unfold OMS.keepsLimit at hroom
      simp only [ho, Option.all_some, ha, hallow, Bool.not_true, Bool.false_or, decide_eq_true_eq] at hroom
      rw [hk, h.net_eq hi] at hroom
      exact hroom
    · have hz : ∀ side, (o.replace x q).workingQty side k = 0 := fun side => workingQty_other side hk
      rw [hz, hz, workingQty_other .buy hk, workingQty_other .sell hk, Int.sub_self, Int.add_zero, Int.add_zero]
      exact h k

/-- A new order keeps the limit if there is room for it. -/
theorem submitOrder_within (h : Within c s) (hi : Inv s) (sym : List UInt8) (side : Side) (p : Option Int) {q : Nat} (e : Int)
    (hsm : (q : Int) ≤ int32Max) (hroom : s.keepsLimit c (.submitOrder sym side p q e)) :
    Within c (s.submitOrder c sym side p q e).2 := by
  rcases submitOrder_cases c s sym side p e hsm with he | ⟨x, rfl, hq, hnone, horders, hn, -⟩
  · rw [he]
    exact h
  · intro k
    have h1 : (s.submitOrder c sym side (some x) q e).2.total (·.doneQty k) = _ := total_submit _ horders hn
    have h2 : (s.submitOrder c sym side (some x) q e).2.total (·.workingQty .buy k) = _ := total_submit _ horders hn
    have h3 : (s.submitOrder c sym side (some x) q e).2.total (·.workingQty .sell k) = _ := total_submit _ horders hn
    have hkey : symToKey (newOrder sym side x q e).symbol = symToKey sym := symToKey_copySymbol sym
    have hdone : (newOrder sym side x q e).doneQty k = 0 := by
      unfold Order.doneQty
      split
      · cases side <;> rfl
      · rfl
    unfold OMS.working
    rw [h1, h2, h3, hdone, Int.add_zero]
    by_cases hk : symToKey sym = k
    · have hw : ∀ sd, (newOrder sym side x q e).workingQty sd k = if side = sd then (q : Int) else 0 := by
        intro sd
        rw [← hk, ← hkey, workingQty_active rfl]
        show (if side = sd then (q : Int) - ((0 : Nat) : Int) else 0) = _
        rw [Int.natCast_zero, Int.sub_zero]
      unfold OMS.keepsLimit at hroom
      simp only [hnone, ne_eq, not_true_eq_false, decide_false, Bool.false_or, decide_eq_true_eq] at hroom
      rw [hk, h.net_eq hi] at hroom
      rw [hw, hw]
      exact hroom
    · have hz : ∀ sd, (newOrder sym side x q e).workingQty sd k = 0 := by
        intro sd
        exact workingQty_other sd fun hc => hk (hkey.symm.trans hc)
      rw [hz, hz, Int.add_zero, Int.add_zero]
      exact h k

end

/-! ## Runs -/

theorem exec_within {c : Config} {s : OMS} (h : Within c s) (hi : Inv s) {op : Op} (hop : op.small)
    (hroom : s.keepsLimit c op) : Within c (s.exec c op) := by
  cases op with
  | submitOrder sym side p q e =>
    have hq : q < 2147483648 := by simpa [Op.small] using hop
    exact submitOrder_within h hi sym side p e (by unfold int32Max; omega) hroom
  | fillOrder i q p => exact fillOrder_within h hi i q p
  | cancelOrder i => exact cancelOrder_within h hi i
  | replaceOrder i p q =>
    have hq : q < 2147483648 := by simpa [Op.small] using hop
    exact replaceOrder_within h hi i p (by unfold int32Max; omega) hroom
  | amendQuantity i q => exact amendQuantity_within h hi i q
  | cancelAll => exact cancelWhere_within h hi _
  | cancelAllSymbol sym => exact cancelWhere_within h hi _
  | purgeExpired now => exact cancelWhere_within h hi _

theorem Reach.within {c : Config} {s : OMS} (hM : 0 ≤ c.maxPosition)
    (h : Reach c (fun s op => op.small = true ∧ s.keepsLimit c op) s) : Inv s ∧ Within c s := by
  induction h with
  | init =>
    refine ⟨fresh_inv, fun k => ?_⟩
    have h0 : ∀ f : Order → Int, fresh.total f = 0 := fun f => rfl
    unfold OMS.working Config.hasRoom
    rw [h0, h0, h0]
    unfold int32Max
    omega
  | step op _ hop ih => exact ⟨exec_inv ih.1 hop.1, exec_within ih.2 ih.1 hop.1 hop.2⟩

/-- The position limit holds in every state, whatever order the fills and cancels come in, if every order
    that is let in leaves room for all working orders of its side. -/
theorem position_limited {c : Config} {s : OMS} (hM : 0 ≤ c.maxPosition)
    (h : Reach c (fun s op => op.small = true ∧ s.keepsLimit c op = true) s) (k : Nat) :
    |s.netQty k + s.pendingQty k| ≤ c.maxPosition ∧ |s.netQty k| ≤ c.maxPosition :=
  (h.within hM).2.limit (h.within hM).1 k

/-- Both sides work, one of them fills, and a replace takes the order to the limit. -/
theorem position_limited_small : |(fresh.run (plainConfig 1000 (by decide))
    [.submitOrder [65] .buy (some 10000) 600 0, .submitOrder [65] .sell (some 10000) 900 0, .fillOrder 1 600 10000,
     .cancelOrder 2, .submitOrder [65] .buy (some 10000) 300 0, .replaceOrder 3 (some 10000) 400,
     .fillOrder 3 400 10000]).netQty 65| ≤ 1000 := by
  refine (position_limited (by decide)
    (Reach.run (fun s op => op.small && s.keepsLimit (plainConfig 1000 (by decide)) op) .init _ (by decide) fun _ _ h => ?_) 65).2
  exact Bool.and_eq_true_iff.mp h

/-- A working BUY makes room for a SELL of twice the limit: when the SELL fills, the position is -2000. -/
theorem netted_orders_break_limit : ¬ |(fresh.run (plainConfig 1000 (by decide))
    [.submitOrder [65] .buy (some 10000) 1000 0, .submitOrder [65] .sell (some 10000) 2000 0,
     .fillOrder 2 2000 10000]).netQty 65| ≤ 1000 := by
  decide

end HftLab.Oms
