/-
  HftLab.Oms.OrderValue — the limit on the value of one order.

  The check takes the price in whole dollars and drops its fraction, which the whole quantity has: a price below a dollar
  counts as nothing. A working order is within the limit if and only if the fractions of all its shares fit into what the
  whole dollars leave of it (`fractionFits`), and a run stays within the limit if and only if that is so for every order
  that a call puts to work (`value_limit_iff`). What the check does ensure is `value_near_limit`.
-/

import HftLab.Oms.Ledger
import Mathlib.Tactic.Linarith
import Mathlib.Tactic.Ring

namespace HftLab.Oms

open Lib Function List Bool

/-- Every working order is within the limit, in exact arithmetic. -/
def OMS.InValue (c : Config) (s : OMS) : Prop :=
  ∀ j o, s.orders j = some o → o.isActive = true → o.price * o.quantity ≤ c.maxOrderValue * PRICE_SCALE

/-- The price and the quantity that a replace puts to work. -/
def OMS.replaces (c : Config) (s : OMS) (orderId : Nat) (newPrice : Option Int) (newQuantity : Nat) : Option (Int × Nat) :=
  match s.orders orderId, newPrice with
  | some o, some newPrice =>
    if o.isActive && s.replaceAllowed c o newPrice newQuantity && o.filledQty < newQuantity then some (newPrice, newQuantity)
    else none
  | _, _ => none

/-- The price and the quantity of the order that the call puts to work, if it does. -/
def OMS.putsToWork (c : Config) (s : OMS) : Op → Option (Int × Nat)
  | .submitOrder symbol side price quantity _ =>
    match s.submitReject c symbol side price quantity, price with
    | .none, some price => some (price, quantity)
    | _, _ => none
  | .replaceOrder orderId newPrice newQuantity => s.replaces c orderId newPrice newQuantity
  | .amendQuantity orderId newQuantity =>
    match s.orders orderId with
    | none => none
    | some o =>
      if newQuantity < o.quantity ∧ o.filledQty ≤ newQuantity then s.replaces c orderId (some (c.refix o.price)) newQuantity
      else none
  | _ => none

/-- The fractions of a dollar of all shares fit into what the whole dollars leave of the limit. -/
def Config.fractionFits (c : Config) (price : Int) (quantity : Nat) : Bool :=
  price.tmod PRICE_SCALE * quantity ≤ (c.maxOrderValue - price.tdiv PRICE_SCALE * quantity) * PRICE_SCALE

/-- They do for the order that the call puts to work. -/
def OMS.keepsValue (c : Config) (s : OMS) (op : Op) : Bool := (s.putsToWork c op).all fun (p, q) => c.fractionFits p q

/-- Whole dollars within the limit, and at most a dollar a share above it. -/
def OMS.NearValue (c : Config) (s : OMS) : Prop := ∀ j o, s.orders j = some o → o.isActive = true →
  o.price.tdiv PRICE_SCALE * o.quantity ≤ c.maxOrderValue ∧ o.price * o.quantity ≤ (c.maxOrderValue + o.quantity) * PRICE_SCALE

/-- The value of the order that the call puts to work has 64 bits. -/
def OMS.fitsValue (c : Config) (s : OMS) (op : Op) : Bool := (s.putsToWork c op).all fun (p, q) => IsInt64 (p * q)

/-- What works in `s'` did in `s`, at the same price and quantity. -/
def OMS.NoneNew (s s' : OMS) : Prop := ∀ j o', s'.orders j = some o' → o'.isActive = true →
  ∃ o, s.orders j = some o ∧ o.isActive = true ∧ o'.price = o.price ∧ o'.quantity = o.quantity

/-- What works in `s'` did in `s`, but for one order at the price and quantity of `n`, if that is given. -/
structure OMS.Lets (s s' : OMS) (n : Option (Int × Nat)) : Prop where
  old : ∀ j o', s'.orders j = some o' → o'.isActive = true →
    (∃ o, s.orders j = some o ∧ o.isActive = true ∧ o'.price = o.price ∧ o'.quantity = o.quantity) ∨
      n = some (o'.price, o'.quantity)
  new : ∀ p q, n = some (p, q) → ∃ j o', s'.orders j = some o' ∧ o'.isActive = true ∧ o'.price = p ∧ o'.quantity = q

section

variable {c : Config} {s s' s'' : OMS} {i j q : Nat} {o o' : Order} {p : Int} {op : Op} {ops : List Op}

/-! ## The check -/

/-- The value of an order: whole dollars, and the fractions of all shares. -/
theorem value_split (p : Int) (q : Nat) : p * q = p.tdiv PRICE_SCALE * q * PRICE_SCALE + p.tmod PRICE_SCALE * q := by
  have hsplit := Int.mul_tdiv_add_tmod p PRICE_SCALE
  calc p * q = (PRICE_SCALE * p.tdiv PRICE_SCALE + p.tmod PRICE_SCALE) * q := by rw [hsplit]
    _ = p.tdiv PRICE_SCALE * q * PRICE_SCALE + p.tmod PRICE_SCALE * q := by ring

theorem fractionFits_iff : c.fractionFits p q ↔ p * q ≤ c.maxOrderValue * PRICE_SCALE := by
  unfold Config.fractionFits
  rw [decide_eq_true_eq, Int.sub_mul, value_split p]
  omega

/-- The check bounds the whole dollars of the order; its value may exceed the limit by less than a dollar a share. -/
theorem whole_dollars_within (hp : 0 < p) (hfits : IsInt64 (p * q)) (h : orderValue p q ≤ c.maxOrderValue) :
    p.tdiv PRICE_SCALE * q ≤ c.maxOrderValue ∧ p * q ≤ (c.maxOrderValue + q) * PRICE_SCALE := by
  have hsplit := Int.mul_tdiv_add_tmod p PRICE_SCALE
  have hscale : (0 : Int) < PRICE_SCALE := by decide
  have hwhole : 0 ≤ p.tdiv PRICE_SCALE := Int.tdiv_nonneg hp.le hscale.le
  have hrest : 0 ≤ p.tmod PRICE_SCALE ∧ p.tmod PRICE_SCALE < PRICE_SCALE :=
    ⟨Int.tmod_nonneg _ hp.le, Int.tmod_lt_of_pos _ hscale⟩
  have hle : p.tdiv PRICE_SCALE ≤ p := by
    unfold PRICE_SCALE at hsplit hrest hwhole ⊢
    omega
  have hq : (0 : Int) ≤ q := Int.natCast_nonneg q
  have hexact : orderValue p q = p.tdiv PRICE_SCALE * q := by
    have h0 : 0 ≤ p.tdiv PRICE_SCALE * q := Int.mul_nonneg hwhole hq
    have h1 : p.tdiv PRICE_SCALE * q ≤ p * q := Int.mul_le_mul_of_nonneg_right hle hq
    exact i64_eq ⟨by omega, h1.trans hfits.2⟩
  rw [hexact] at h
  refine ⟨h, ?_⟩
  rw [value_split, Int.add_mul]
  have h1 := Int.mul_le_mul_of_nonneg_right h hscale.le
  have h2 := Int.mul_le_mul_of_nonneg_right hrest.2.le hq
  rw [Int.mul_comm PRICE_SCALE] at h2
  exact Int.add_le_add h1 h2

/-! ## What works after a call -/

theorem OMS.NoneNew.refl (s : OMS) : s.NoneNew s := fun _ o h ha => ⟨o, h, ha, rfl, rfl⟩

theorem OMS.NoneNew.trans (h : s.NoneNew s') (h' : s'.NoneNew s'') : s.NoneNew s'' := by
  intro j o'' ho'' ha''
  obtain ⟨o', ho', ha', hp', hq'⟩ := h' j o'' ho'' ha''
  obtain ⟨o, ho, ha, hp, hq⟩ := h j o' ho' ha'
  exact ⟨o, ho, ha, hp'.trans hp, hq'.trans hq⟩

/-- One order is rewritten. -/
theorem noneNew_update (ho : s.orders i = some o) (horders : s'.orders = update s.orders i (some o'))
    (h : o'.isActive → o.isActive ∧ o'.price = o.price ∧ o'.quantity = o.quantity) : s.NoneNew s' := by
  intro j x hx ha
  rw [horders] at hx
  by_cases hj : j = i
  · subst hj
    rw [update_self] at hx
    obtain rfl := Option.some.inj hx
    exact ⟨o, ho, h ha⟩
  · rw [update_of_ne hj] at hx
    exact ⟨x, hx, ha, rfl, rfl⟩

theorem fillOrder_noneNew (c : Config) (s : OMS) (i q : Nat) (p : Int) : s.NoneNew (s.fillOrder c i q p).2 := by
  unfold OMS.fillOrder
  split
  · exact .refl s
  · split
    · exact .refl s
    · rename_i o ho
      split
      · exact .refl s
      · rename_i ha
        dsimp only
        split
        · exact .refl s
        · refine noneNew_update ho rfl fun _ => ⟨?_, rfl, rfl⟩
          simpa using ha

theorem shiftPending_orders (s : OMS) (k : Nat) (d : Int) : (s.shiftPending k d).orders = s.orders := by
  unfold OMS.shiftPending
  split
  · rfl
  · rfl

theorem cancelOrder_noneNew (s : OMS) (i : Nat) : s.NoneNew (s.cancelOrder i) := by
  unfold OMS.cancelOrder
  split
  · exact .refl s
  · rename_i o ho
    split
    · exact .refl s
    · refine noneNew_update ho (congrArg (update · i _) (shiftPending_orders ..)) fun ha => ?_
      cases ha

theorem cancelWhere_noneNew (c : Config) (s : OMS) (which : Order → Bool) : s.NoneNew (s.cancelWhere c which).2 := by
  unfold OMS.cancelWhere
  dsimp only
  generalize c.iter _ = l
  generalize 0 = n
  induction l generalizing s n with
  | nil => exact .refl s
  | cons id l ih =>
    rw [foldl_cons]
    split
    · exact (cancelOrder_noneNew s id).trans (ih _ _)
    · exact ih _ _

theorem OMS.NoneNew.lets (h : s.NoneNew s') : s.Lets s' none := by
  refine ⟨fun j o' ho' ha' => .inl (h j o' ho' ha'), fun p q hn => ?_⟩
  cases hn

/-- An order at place `i` works at its price and quantity. -/
theorem lets_update (horders : s'.orders = update s.orders i (some o')) (ha : o'.isActive) :
    s.Lets s' (some (o'.price, o'.quantity)) := by
  constructor
  · intro j x hx hxa
    rw [horders] at hx
    by_cases hj : j = i
    · subst hj
      rw [update_self] at hx
      obtain rfl := Option.some.inj hx
      exact .inr rfl
    · rw [update_of_ne hj] at hx
      exact .inl ⟨x, hx, hxa, rfl, rfl⟩
  · intro p q hpq
    obtain ⟨rfl, rfl⟩ := Prod.mk.inj (Option.some.inj hpq)
    refine ⟨i, o', ?_, ha, rfl, rfl⟩
    rw [horders, update_self]

theorem submitOrder_lets (c : Config) (s : OMS) (sym : List UInt8) (side : Side) (p : Option Int) (q : Nat) (e : Int) :
    s.Lets (s.submitOrder c sym side p q e).2 (s.putsToWork c (.submitOrder sym side p q e)) := by
  cases p with
  | none => exact OMS.NoneNew.lets (.refl s)
  | some x =>
    simp only [OMS.submitOrder, OMS.putsToWork]
    cases s.submitReject c sym side (some x) q with
    | none => exact @lets_update s _ s.nextId (newOrder sym side x q e) rfl rfl
    | invalidInput => exact OMS.NoneNew.lets (.refl s)
    | orderValue => exact OMS.NoneNew.lets (.refl s)
    | positionLimit => exact OMS.NoneNew.lets (.refl s)

theorem replaceOrder_lets (c : Config) (s : OMS) (i : Nat) (p : Option Int) (q : Nat) :
    s.Lets (s.replaceOrder c i p q).2 (s.replaces c i p q) := by
  unfold OMS.replaceOrder OMS.replaces
  cases ho : s.orders i with
  | none => exact OMS.NoneNew.lets (.refl s)
  | some o =>
    cases p with
    | none => exact OMS.NoneNew.lets (.refl s)
    | some x =>
      dsimp only
      by_cases hallow : (o.isActive && s.replaceAllowed c o x q)
      · rw [if_pos hallow, hallow, Bool.true_and]
        have horders := congrArg (update · i (some (o.replace x q))) (shiftPending_orders s (symToKey o.symbol)
          (signedQty o.side (i32 (i32 q - i32 o.filledQty)) - signedQty o.side (i32 (i32 o.quantity - i32 o.filledQty))))
        by_cases hlt : o.filledQty < q
        · simp only [hlt, decide_true, if_true]
          exact lets_update horders ((replace_active x q).mpr hlt)
        · simp only [hlt, decide_false, Bool.false_eq_true, if_false]
          refine OMS.NoneNew.lets (noneNew_update ho horders fun ha => ?_)
          exact absurd ((replace_active x q).mp ha) hlt
      · rw [if_neg hallow, Bool.eq_false_iff.mpr hallow, Bool.false_and, if_neg Bool.false_ne_true]
        exact OMS.NoneNew.lets (.refl s)

theorem amendQuantity_lets (c : Config) (s : OMS) (i q : Nat) :
    s.Lets (s.amendQuantity c i q).2 (s.putsToWork c (.amendQuantity i q)) := by
  simp only [OMS.amendQuantity, OMS.putsToWork]
  cases ho : s.orders i with
  | none => exact OMS.NoneNew.lets (.refl s)
  | some o =>
    dsimp only
    by_cases ha : o.isActive
    · rw [ha, Bool.not_true, if_neg Bool.false_ne_true]
      by_cases hless : q < o.quantity
      · rw [if_neg (Nat.not_le.mpr hless)]
        by_cases hfilled : o.filledQty ≤ q
        · rw [if_neg (Nat.not_lt.mpr hfilled), if_pos ⟨hless, hfilled⟩]
          exact replaceOrder_lets c s i _ q
        · rw [if_pos (Nat.not_le.mp hfilled), if_neg fun hc => hfilled hc.2]
          exact OMS.NoneNew.lets (.refl s)
      · rw [if_pos (Nat.not_lt.mp hless), if_neg fun hc => hless hc.1]
        exact OMS.NoneNew.lets (.refl s)
    · -- an order that does not work is not replaced
      have hnone : s.replaces c i (some (c.refix o.price)) q = none := by
        unfold OMS.replaces
        simp [ho, ha]
      rw [hnone, ite_self, Bool.eq_false_iff.mpr ha]
      exact OMS.NoneNew.lets (.refl s)

theorem exec_lets (c : Config) (s : OMS) (op : Op) : s.Lets (s.exec c op) (s.putsToWork c op) := by
  cases op with
  | submitOrder sym side p q e => exact submitOrder_lets c s sym side p q e
  | fillOrder i q p => exact (fillOrder_noneNew c s i q p).lets
  | cancelOrder i => exact (cancelOrder_noneNew s i).lets
  | replaceOrder i p q => exact replaceOrder_lets c s i p q
  | amendQuantity i q => exact amendQuantity_lets c s i q
  | cancelAll => exact (cancelWhere_noneNew c s _).lets
  | cancelAllSymbol sym => exact (cancelWhere_noneNew c s _).lets
  | purgeExpired now => exact (cancelWhere_noneNew c s _).lets

theorem replaces_checked {x : Option Int} {y : Nat} (h : s.replaces c i x y = some (p, q)) :
    0 < p ∧ orderValue p q ≤ c.maxOrderValue := by
  unfold OMS.replaces at h
  split at h
  · split at h
    · rename_i hc
      obtain ⟨rfl, rfl⟩ := Prod.mk.inj (Option.some.inj h)
      simp only [OMS.replaceAllowed, and_eq_true, decide_eq_true_eq] at hc
      exact ⟨hc.1.2.1.1.1.1, hc.1.2.1.2⟩
    · cases h
  · cases h

theorem putsToWork_checked (h : s.putsToWork c op = some (p, q)) : 0 < p ∧ orderValue p q ≤ c.maxOrderValue := by
  cases op with
  | submitOrder symbol side price quantity e =>
    simp only [OMS.putsToWork] at h
    split at h
    · rename_i hreject
      obtain ⟨rfl, rfl⟩ := Prod.mk.inj (Option.some.inj h)
      unfold OMS.submitReject at hreject
      dsimp only at hreject
      split_ifs at hreject with h1 h2
      exact ⟨not_le.mp fun h => h1 (.inl h), not_lt.mp h2⟩
    · cases h
  | replaceOrder j x y => exact replaces_checked h
  | amendQuantity j y =>
    simp only [OMS.putsToWork] at h
    split at h
    · cases h
    · split at h
      · exact replaces_checked h
      · cases h
  | _ => cases h

/-! ## Runs -/

/-- A call keeps the limit exactly if the order it puts to work does. -/
theorem exec_inValue_iff (h : s.InValue c) : (s.exec c op).InValue c ↔ s.keepsValue c op := by
  have hlets := exec_lets c s op
  unfold OMS.keepsValue
  constructor
  · intro hnext
    cases hn : s.putsToWork c op with
    | none => rfl
    | some x =>
      obtain ⟨j, o, ho, ha, hp, hq⟩ := hlets.new x.1 x.2 hn
      have hle := hnext j o ho ha
      rw [hp, hq] at hle
      exact fractionFits_iff.mpr hle
  · intro hkeeps j o' ho' ha'
    rcases hlets.old j o' ho' ha' with ⟨o, ho, ha, hp, hq⟩ | hn
    · rw [hp, hq]
      exact h j o ho ha
    · rw [hn] at hkeeps
      exact fractionFits_iff.mp hkeeps

theorem fresh_inValue (c : Config) : fresh.InValue c := by
  intro j o ho
  cases ho

theorem run_inValue (h : s.InValue c) (hops : s.meets c (OMS.keepsValue c) ops) : (s.run c ops).InValue c := by
  induction ops generalizing s with
  | nil => exact h
  | cons op ops ih =>
    obtain ⟨h1, h2⟩ := and_eq_true_iff.mp hops
    exact ih ((exec_inValue_iff h).mpr h1) h2

theorem meets_initial {chk : OMS → Op → Bool} {pre : List Op} (hpre : pre <+: ops) (h : s.meets c chk ops) :
    s.meets c chk pre = true := by
  induction pre generalizing s ops with
  | nil => rfl
  | cons op pre ih =>
    obtain ⟨rest, rfl⟩ := hpre
    obtain ⟨h1, h2⟩ := and_eq_true_iff.mp h
    exact and_eq_true_iff.mpr ⟨h1, ih ⟨rest, rfl⟩ h2⟩

theorem meets_of_inValue (h : s.InValue c) (hrun : ∀ pre, pre <+: ops → (s.run c pre).InValue c) :
    s.meets c (OMS.keepsValue c) ops = true := by
  induction ops generalizing s with
  | nil => rfl
  | cons op ops ih =>
    have hnext : (s.exec c op).InValue c := hrun [op] ((prefix_cons_inj op).mpr nil_prefix)
    refine and_eq_true_iff.mpr ⟨(exec_inValue_iff h).mp hnext, ih hnext fun pre hpre => ?_⟩
    exact hrun (op :: pre) ((prefix_cons_inj op).mpr hpre)

theorem exec_nearValue (h : s.NearValue c) (hfits : s.fitsValue c op) : (s.exec c op).NearValue c := by
  intro j o' ho' ha'
  rcases (exec_lets c s op).old j o' ho' ha' with ⟨o, ho, ha, hp, hq⟩ | hn
  · rw [hp, hq]
    exact h j o ho ha
  · obtain ⟨hpos, hvalue⟩ := putsToWork_checked hn
    unfold OMS.fitsValue at hfits
    rw [hn] at hfits
    exact whole_dollars_within hpos (of_decide_eq_true hfits) hvalue

theorem run_nearValue (h : s.NearValue c) (hops : s.meets c (OMS.fitsValue c) ops) : (s.run c ops).NearValue c := by
  induction ops generalizing s with
  | nil => exact h
  | cons op ops ih =>
    obtain ⟨h1, h2⟩ := and_eq_true_iff.mp hops
    exact ih (exec_nearValue h h1) h2

/-- Every state of a run is within the limit if and only if, for every order that a call of the run puts to work, the
    fractions of its shares fit into what the whole dollars leave. -/
theorem value_limit_iff (c : Config) (ops : List Op) : (∀ pre, pre <+: ops → (fresh.run c pre).InValue c) ↔
    fresh.meets c (OMS.keepsValue c) ops = true :=
  ⟨meets_of_inValue (fresh_inValue c), fun h _ hpre => run_inValue (fresh_inValue c) (meets_initial hpre h)⟩

/-- A thousand shares at 99 cents and a limit of 100 dollars: the order counts as 0 dollars and is worth 990. -/
theorem cents_pass_value_limit :
    ¬ ((fresh.run { plainConfig 1000 (by decide) with maxOrderValue := 100 }
      [.submitOrder [65] .buy (some 9900) 1000 0]).InValue { plainConfig 1000 (by decide) with maxOrderValue := 100 }) := by
  intro h
  have hle := h 1 { symbol := [65], side := .buy, price := 9900, quantity := 1000, status := .sent } (by decide) rfl
  exact absurd hle (by decide)

/-- In every run no working order is worth more than a dollar a share above the limit. -/
theorem value_near_limit (c : Config) (ops : List Op) (h : fresh.meets c (OMS.fitsValue c) ops = true) :
    ∀ pre, pre <+: ops → (fresh.run c pre).NearValue c := by
  intro pre hpre
  refine run_nearValue (fun j o ho => ?_) (meets_initial hpre h)
  cases ho

/-- The shares at 99 cents are within a thousand dollars of the limit. -/
theorem value_near_limit_cents : (fresh.run { plainConfig 1000 (by decide) with maxOrderValue := 100 }
    [.submitOrder [65] .buy (some 9900) 1000 0]).NearValue { plainConfig 1000 (by decide) with maxOrderValue := 100 } :=
  value_near_limit _ [.submitOrder [65] .buy (some 9900) 1000 0] (by decide) _ (prefix_refl _)

end

end HftLab.Oms
