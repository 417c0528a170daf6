/-
  HftLab.Fix.Terminal — what reports do to an order of FIXOrderTracker that is filled, canceled or rejected.

  `History` is a tracker with a number for each order that was registered, how often that order was counted as ended, and how many
  ended orders lost their record to a registration. A step is `Final` when no report changes the state of an ended order, no order
  was counted twice and the rates add up to 1 at most. No report asks for the state of its order, so a step is final exactly when
  the report comes for an open one (`History.ended_once_iff`).
-/

import HftLab.Fix.Tracker
import HftLab.Lib.Owners

namespace HftLab.Fix

open Lib Function List AList
open HftLab.Risk (Doubles wholeDoubles)

/-- OrdStatus 5. -/
def FIXMessage.Replaces (m : FIXMessage) : Prop := (m.getField 39).map FIXSession.firstChar = some '5'.toUInt8

instance (m : FIXMessage) : Decidable m.Replaces := inferInstanceAs (Decidable (_ = _))

namespace FIXOrderTracker

variable {D : Type} (t : FIXOrderTracker D)

/-- How often an order was counted as ended. -/
def ends : Nat := t.fills + t.cancels + t.rejects

def endedOrders : Int := sumOver t.orders fun o => if o.state.Terminal then 1 else 0

def openOrders : Int := sumOver t.orders fun o => if o.state.Terminal then 0 else 1

end FIXOrderTracker

structure History (D : Type) where
  tracker : FIXOrderTracker D
  /-- The order that an id stands for. -/
  owner : List UInt8 → Nat := fun _ => 0
  next : Nat := 0
  counted : Nat → Nat := fun _ => 0
  /-- Ended orders whose record a registration took. -/
  lost : Nat := 0

namespace History

variable {D : Type} (F : Doubles D) (atof : List UInt8 → D) (h : History D)

def init : History D := { tracker := FIXOrderTracker.init F }

def apply : TrackerEvent → History D
  | .new id qty =>
    { h with
      tracker := h.tracker.onNew id qty
      owner := Function.update h.owner id h.next
      next := h.next + 1
      lost := h.lost + if (h.tracker.state id).Terminal then 1 else 0 }
  | .cancelSent id => { h with tracker := h.tracker.onCancelSent id }
  | .cancelReject m => { h with tracker := (h.tracker.onCancelReject m).2 }
  | .execReport m =>
    let t := (h.tracker.onExecReport F atof m).2
    match m.getField 11 with
    | none => { h with tracker := t }
    | some id =>
      if m.Replaces then
        match m.getField 41 with
        | none => { h with tracker := t }
        | some orig =>
          if orig ∈ h.tracker.orders then { h with tracker := t, owner := Function.update h.owner id (h.owner orig) }
          else { h with tracker := t }
      else
        { h with
          tracker := t
          counted := Function.update h.counted (h.owner id) (h.counted (h.owner id) + (t.ends - h.tracker.ends)) }

/-- The orders that a report names are open, and one that leaves fewer open leaves no fewer than were lost. -/
def Admits : TrackerEvent → Prop
  | .execReport m => ∀ id, m.getField 11 = some id →
      if m.Replaces then
        ∀ orig, m.getField 41 = some orig → orig ∈ h.tracker.orders →
          ¬(h.tracker.state orig).Terminal ∧ ¬(h.tracker.state id).Terminal ∧
            (id ≠ orig → id ∈ h.tracker.orders → h.lost < h.tracker.openOrders)
      else id ∈ h.tracker.orders → ¬(h.tracker.state id).Terminal ∧ (m.ordState.Terminal → h.lost < h.tracker.openOrders)
  | _ => True

structure Final (e : TrackerEvent) : Prop where
  kept : (∀ id qty, e ≠ .new id qty) →
    ∀ k, (h.tracker.state k).Terminal → (h.apply F atof e).tracker.state k = h.tracker.state k
  once : ∀ n, (h.apply F atof e).counted n ≤ 1
  rates : (h.apply F atof e).tracker.orderFillRate + (h.apply F atof e).tracker.cancelRate +
    (h.apply F atof e).tracker.rejectRate ≤ 1

end History

/-! ## The counters -/

namespace FIXOrderTracker

variable {D : Type} {F : Doubles D} {atof : List UInt8 → D} {t : FIXOrderTracker D} {k id : List UInt8} {o : Record}

theorem state_of_lookup (ho : t.orders.lookup k = some o) : t.state k = o.state := by
  unfold state
  rw [ho]
  rfl

theorem exists_of_terminal (h : (t.state k).Terminal) : ∃ o, t.orders.lookup k = some o ∧ o.state.Terminal := by
  unfold state at h
  cases ho : t.orders.lookup k with
  | none =>
    rw [ho] at h
    exact absurd h (by decide)
  | some o =>
    rw [ho] at h
    exact ⟨o, rfl, h⟩

variable {t' : FIXOrderTracker D} {o' : Record}

theorem state_insert (horders : t'.orders = t.orders.insert id o') (k : List UInt8) :
    t'.state k = if k = id then o'.state else t.state k := by
  unfold state
  rw [horders]
  split
  · rename_i e
    rw [e, lookup_insert]
    rfl
  · rename_i e
    rw [lookup_insert_ne e]

theorem state_move {orig : List UInt8} (horders : t'.orders = (t.orders.erase orig).insert id o') (k : List UInt8) :
    t'.state k = if k = id then o'.state else if k = orig then .unknown else t.state k := by
  unfold state
  rw [horders]
  split
  · rename_i e
    rw [e, lookup_insert]
    rfl
  · rename_i e
    rw [lookup_insert_ne e]
    split
    · rename_i e
      rw [e, lookup_erase]
      rfl
    · rename_i e
      rw [lookup_erase_ne e]

theorem orderCount_eq (t : FIXOrderTracker D) : (t.orderCount : Int) = t.endedOrders + t.openOrders := by
  unfold orderCount endedOrders openOrders sumOver
  induction t.orders.entries with
  | nil => rfl
  | cons e l ih =>
    dsimp only at ih
    simp only [length_cons, map_cons, sum_cons]
    split <;> omega

theorem orderCount_sum (t : FIXOrderTracker D) : (t.orderCount : Int) = sumOver t.orders fun _ => 1 := by
  unfold orderCount sumOver
  simp

theorem orderCount_insert (ho : t.orders.lookup id = some o) (horders : t'.orders = t.orders.insert id o') :
    (t'.orderCount : Int) = t.orderCount := by
  rw [orderCount_sum, orderCount_sum, horders, sumOver_insert _ o' ho, Int.sub_self, Int.add_zero]

theorem orderCount_move {orig : List UInt8} (ho : t.orders.lookup orig = some o)
    (horders : t'.orders = (t.orders.erase orig).insert id o') :
    (t'.orderCount : Int) = t.orderCount - if id = orig then 0 else (t.orders.lookup id).elim 0 fun _ => 1 := by
  rw [orderCount_sum, orderCount_sum, horders, sumOver_move _ ho id o', Int.sub_add_cancel]

theorem orderCount_pos (ho : t.orders.lookup k = some o) : 0 < t.orderCount := by
  have hmem : (⟨k, o⟩ : Sigma fun _ : List UInt8 => Record) ∈ t.orders.entries := mem_lookup_iff.mp ho
  exact length_pos_of_mem hmem

theorem rates_le_one_iff (hpos : 0 < t.orderCount) : t.orderFillRate + t.cancelRate + t.rejectRate ≤ 1 ↔ t.ends ≤ t.orderCount := by
  have hne : t.orderCount ≠ 0 := by omega
  have hcount : (0 : ℚ) < t.orderCount := Nat.cast_pos.mpr hpos
  have hsum : t.orderFillRate + t.cancelRate + t.rejectRate = (t.ends : ℚ) / t.orderCount := by
    unfold orderFillRate cancelRate rejectRate rate ends
    rw [if_pos hne, if_pos hne, if_pos hne, ← add_div, ← add_div]
    norm_cast
  rw [hsum, div_le_one₀ hcount, Nat.cast_le]

theorem price_ends (m : FIXMessage) : (t.price F atof m).ends = t.ends := by
  unfold price
  split
  · dsimp only
    split <;> rfl
  · rfl

theorem count_ends (s : OrdState) : (t.count s).ends = t.ends + if s.Terminal then 1 else 0 := by
  cases s with
  | filled =>
    show t.fills + 1 + t.cancels + t.rejects = t.fills + t.cancels + t.rejects + 1
    omega
  | canceled =>
    show t.fills + (t.cancels + 1) + t.rejects = t.fills + t.cancels + t.rejects + 1
    omega
  | rejected => rfl
  | new => rfl
  | partlyFilled => rfl
  | unknown => rfl

theorem onReport_ends (F : Doubles D) (atof : List UInt8 → D) (m : FIXMessage) (ho : t.orders.lookup id = some o) :
    (t.onReport F atof m id).2.ends = t.ends + if m.ordState.Terminal then 1 else 0 := by
  unfold onReport
  rw [ho]
  have hstate : (if m.ordState = OrdState.canceled then { { o.refresh m with state := m.ordState } with pendingCancel := false }
      else { o.refresh m with state := m.ordState }).state = m.ordState := by
    split <;> rfl
  show ((t.price F atof m).count _).ends = _
  rw [hstate, count_ends, price_ends]

end FIXOrderTracker

/-! ## One event -/

namespace History

variable {D : Type} {F : Doubles D} {atof : List UInt8 → D} {h h' : History D} {e : TrackerEvent} {k id orig : List UInt8} {o o' : Record}
    {m : FIXMessage}

structure Inv (h : History D) : Prop where
  owned : Owned h.tracker.orders h.owner h.next
  ended : ∀ k o, h.tracker.orders.lookup k = some o → h.counted (h.owner k) = if o.state.Terminal then 1 else 0
  fresh : ∀ n, h.next ≤ n → h.counted n = 0
  once : ∀ n, h.counted n ≤ 1
  total : (h.tracker.ends : Int) = h.tracker.endedOrders + h.lost
  covered : (h.lost : Int) ≤ h.tracker.openOrders

theorem Inv.init : (init F).Inv where
  owned := Owned.empty _
  ended _ _ hk := by cases hk
  fresh _ _ := rfl
  once _ := Nat.zero_le 1
  total := rfl
  covered := Int.le_refl 0

/-- What an event leaves as it is, apart from the orders. -/
structure Accounts (h h' : History D) : Prop where
  next : h'.next = h.next
  counted : h'.counted = h.counted
  lost : h'.lost = h.lost
  ends : h'.tracker.ends = h.tracker.ends

theorem apply_replaced (F : Doubles D) (atof : List UInt8 → D) (hid : m.getField 11 = some id) (hr : m.Replaces)
    (horig : m.getField 41 = some orig) (ho : h.tracker.orders.lookup orig = some o) :
    ∃ o' : Record, ¬o'.state.Terminal ∧
      (h.apply F atof (.execReport m)).tracker.orders = (h.tracker.orders.erase orig).insert id o' ∧
      (h.apply F atof (.execReport m)).owner = update h.owner id (h.owner orig) ∧
      Accounts h (h.apply F atof (.execReport m)) := by
  have hreplaced : (h.tracker.onExecReport F atof m).2 = (h.tracker.onReplaced m id).2 := by
    unfold FIXOrderTracker.onExecReport
    rw [hid]
    exact congrArg Prod.snd (if_pos hr)
  obtain ⟨o', -, -, hopen, heq⟩ := FIXOrderTracker.onReplaced_eq id horig ho
  dsimp only [apply]
  rw [hreplaced, hid]
  dsimp only
  rw [if_pos hr, horig]
  dsimp only
  rw [if_pos (lookup_isSome.mp (by rw [ho]; rfl)), heq]
  exact ⟨o', hopen, rfl, rfl, rfl, rfl, rfl, rfl⟩

theorem apply_reported (F : Doubles D) (atof : List UInt8 → D) (hid : m.getField 11 = some id) (hr : ¬m.Replaces)
    (ho : h.tracker.orders.lookup id = some o) :
    (h.apply F atof (.execReport m)).tracker.orders = h.tracker.orders.insert id (FIXOrderTracker.reported o m) ∧
      (h.apply F atof (.execReport m)).owner = h.owner ∧ (h.apply F atof (.execReport m)).next = h.next ∧
      (h.apply F atof (.execReport m)).lost = h.lost ∧
      (h.apply F atof (.execReport m)).counted = update h.counted (h.owner id)
        (h.counted (h.owner id) + if m.ordState.Terminal then 1 else 0) ∧
      (h.apply F atof (.execReport m)).tracker.ends = h.tracker.ends + if m.ordState.Terminal then 1 else 0 := by
  have hreport : (h.tracker.onExecReport F atof m).2 = (h.tracker.onReport F atof m id).2 := by
    unfold FIXOrderTracker.onExecReport
    rw [hid]
    exact congrArg Prod.snd (if_neg hr)
  have hends := FIXOrderTracker.onReport_ends F atof m ho
  dsimp only [apply]
  rw [hreport, hid]
  dsimp only
  rw [if_neg hr]
  refine ⟨FIXOrderTracker.onReport_orders m ho, rfl, rfl, rfl, ?_, hends⟩
  rw [hends, Nat.add_sub_cancel_left]

/-- The report has no id, or names no order. -/
theorem apply_unknown
    (hnone : ∀ id, m.getField 11 = some id →
      if m.Replaces then ∀ orig, m.getField 41 = some orig → h.tracker.orders.lookup orig = none
      else h.tracker.orders.lookup id = none) :
    (h.apply F atof (.execReport m)).tracker.orders = h.tracker.orders ∧ (h.apply F atof (.execReport m)).owner = h.owner ∧
      Accounts h (h.apply F atof (.execReport m)) := by
  dsimp only [apply]
  unfold FIXOrderTracker.onExecReport
  cases hid : m.getField 11 with
  | none => exact ⟨rfl, rfl, rfl, rfl, rfl, rfl⟩
  | some id =>
    replace hnone := hnone id hid
    dsimp only
    by_cases hr : m.Replaces
    · rw [if_pos hr] at hnone
      have hreplaced : (if (m.getField 39).map FIXSession.firstChar = some '5'.toUInt8 then h.tracker.onReplaced m id
          else h.tracker.onReport F atof m id).2 = h.tracker :=
        (congrArg Prod.snd (if_pos hr)).trans (FIXOrderTracker.onReplaced_unknown id hnone)
      rw [hreplaced, if_pos hr]
      cases horig : m.getField 41 with
      | none => exact ⟨rfl, rfl, rfl, rfl, rfl, rfl⟩
      | some orig =>
        dsimp only
        rw [if_neg (lookup_eq_none.mp (hnone orig horig))]
        exact ⟨rfl, rfl, rfl, rfl, rfl, rfl⟩
    · rw [if_neg hr] at hnone
      have hreport : (if (m.getField 39).map FIXSession.firstChar = some '5'.toUInt8 then h.tracker.onReplaced m id
          else h.tracker.onReport F atof m id).2 = h.tracker := by
        refine (congrArg Prod.snd (if_neg hr)).trans ?_
        unfold FIXOrderTracker.onReport
        rw [hnone]
      rw [hreport, if_neg hr, Nat.sub_self, Nat.add_zero, update_eq_self]
      exact ⟨rfl, rfl, rfl, rfl, rfl, rfl⟩

/-- An event registers an order, moves one, reports on one or sets its flag, or it changes nothing. -/
theorem apply_cases (F : Doubles D) (atof : List UInt8 → D) (h : History D) (e : TrackerEvent) :
    ((∀ id qty, e ≠ .new id qty) ∧ (h.apply F atof e).tracker.orders = h.tracker.orders ∧ (h.apply F atof e).owner = h.owner ∧
      Accounts h (h.apply F atof e)) ∨
    (∃ id o flag, (∀ id qty, e ≠ .new id qty) ∧ h.tracker.orders.lookup id = some o ∧
      (h.apply F atof e).tracker.orders = h.tracker.orders.insert id { o with pendingCancel := flag } ∧
      (h.apply F atof e).owner = h.owner ∧ Accounts h (h.apply F atof e)) ∨
    (∃ m id orig o o', e = .execReport m ∧ m.getField 11 = some id ∧ m.Replaces ∧ m.getField 41 = some orig ∧
      h.tracker.orders.lookup orig = some o ∧ ¬o'.state.Terminal ∧
      (h.apply F atof e).tracker.orders = (h.tracker.orders.erase orig).insert id o' ∧
      (h.apply F atof e).owner = update h.owner id (h.owner orig) ∧ Accounts h (h.apply F atof e)) ∨
    (∃ m id o, e = .execReport m ∧ m.getField 11 = some id ∧ ¬m.Replaces ∧ h.tracker.orders.lookup id = some o ∧
      (h.apply F atof e).tracker.orders = h.tracker.orders.insert id (FIXOrderTracker.reported o m) ∧
      (h.apply F atof e).owner = h.owner ∧ (h.apply F atof e).next = h.next ∧ (h.apply F atof e).lost = h.lost ∧
      (h.apply F atof e).counted = update h.counted (h.owner id)
        (h.counted (h.owner id) + if m.ordState.Terminal then 1 else 0) ∧
      (h.apply F atof e).tracker.ends = h.tracker.ends + if m.ordState.Terminal then 1 else 0) ∨
    (∃ id qty, e = .new id qty) := by
  cases e with
  | new id qty => exact .inr (.inr (.inr (.inr ⟨id, qty, rfl⟩)))
  | cancelSent id =>
    have hne : ∀ id' qty, TrackerEvent.cancelSent id ≠ .new id' qty := fun _ _ h => (by cases h)
    dsimp only [apply]
    rcases FIXOrderTracker.onCancelSent_cases h.tracker id with heq | ⟨o, ho, -, heq⟩
    · rw [heq]
      exact .inl ⟨hne, rfl, rfl, rfl, rfl, rfl, rfl⟩
    · rw [heq]
      exact .inr (.inl ⟨id, o, true, hne, ho, rfl, rfl, rfl, rfl, rfl, rfl⟩)
  | cancelReject m =>
    have hne : ∀ id' qty, TrackerEvent.cancelReject m ≠ .new id' qty := fun _ _ h => (by cases h)
    dsimp only [apply]
    rcases FIXOrderTracker.onCancelReject_cases h.tracker m with heq | ⟨orig, o, ho, heq⟩
    · rw [heq]
      exact .inl ⟨hne, rfl, rfl, rfl, rfl, rfl, rfl⟩
    · rw [heq]
      exact .inr (.inl ⟨orig, o, false, hne, ho, rfl, rfl, rfl, rfl, rfl, rfl⟩)
  | execReport m =>
    have hne : ∀ id' qty, TrackerEvent.execReport m ≠ .new id' qty := fun _ _ h => (by cases h)
    by_cases hknown : ∃ id, m.getField 11 = some id ∧
        if m.Replaces then ∃ orig o, m.getField 41 = some orig ∧ h.tracker.orders.lookup orig = some o
        else ∃ o, h.tracker.orders.lookup id = some o
    · obtain ⟨id, hid, hknown⟩ := hknown
      by_cases hr : m.Replaces
      · rw [if_pos hr] at hknown
        obtain ⟨orig, o, horig, ho⟩ := hknown
        obtain ⟨o', hmoved⟩ := apply_replaced F atof hid hr horig ho
        exact .inr (.inr (.inl ⟨m, id, orig, o, o', rfl, hid, hr, horig, ho, hmoved⟩))
      · rw [if_neg hr] at hknown
        obtain ⟨o, ho⟩ := hknown
        exact .inr (.inr (.inr (.inl ⟨m, id, o, rfl, hid, hr, ho, apply_reported F atof hid hr ho⟩)))
    · left
      refine ⟨hne, apply_unknown fun id hid => ?_⟩
      by_cases hr : m.Replaces
      · rw [if_pos hr]
        intro orig horig
        refine Option.eq_none_iff_forall_ne_some.mpr fun o ho => hknown ⟨id, hid, ?_⟩
        rw [if_pos hr]
        exact ⟨orig, o, horig, ho⟩
      · rw [if_neg hr]
        refine Option.eq_none_iff_forall_ne_some.mpr fun o ho => hknown ⟨id, hid, ?_⟩
        rw [if_neg hr]
        exact ⟨o, ho⟩

theorem Inv.quiet (hi : h.Inv) (horders : h'.tracker.orders = h.tracker.orders) (howner : h'.owner = h.owner) (ha : Accounts h h') :
    h'.Inv := by
  obtain ⟨hnext, hcounted, hlost, hends⟩ := ha
  have hended : h'.tracker.endedOrders = h.tracker.endedOrders := congrArg (sumOver · _) horders
  have hopen : h'.tracker.openOrders = h.tracker.openOrders := congrArg (sumOver · _) horders
  constructor
  · rw [horders, howner, hnext]
    exact hi.owned
  · rw [horders, howner, hcounted]
    exact hi.ended
  · rw [hnext, hcounted]
    exact hi.fresh
  · rw [hcounted]
    exact hi.once
  · rw [hends, hended, hlost]
    exact hi.total
  · rw [hlost, hopen]
    exact hi.covered

/-- The order under `id` changes in place. -/
theorem Inv.changed (hi : h.Inv) (ho : h.tracker.orders.lookup id = some o)
    (horders : h'.tracker.orders = h.tracker.orders.insert id o') (howner : h'.owner = h.owner) (hnext : h'.next = h.next)
    (hlost : h'.lost = h.lost)
    (hcounted : h'.counted = update h.counted (h.owner id) (if o'.state.Terminal then 1 else 0))
    (hends : h'.tracker.ends + (if o.state.Terminal then 1 else 0) = h.tracker.ends + if o'.state.Terminal then 1 else 0)
    (hcovered : o'.state.Terminal → ¬o.state.Terminal → (h.lost : Int) < h.tracker.openOrders) : h'.Inv := by
  have hended : h'.tracker.endedOrders = h.tracker.endedOrders + ((if o'.state.Terminal then 1 else 0) - if o.state.Terminal then 1 else 0) :=
    (congrArg (sumOver · _) horders).trans (sumOver_insert _ o' ho)
  have hopen : h'.tracker.openOrders = h.tracker.openOrders + ((if o'.state.Terminal then 0 else 1) - if o.state.Terminal then 0 else 1) :=
    (congrArg (sumOver · _) horders).trans (sumOver_insert _ o' ho)
  have hold := hi.covered
  have htotal := hi.total
  constructor
  · rw [horders, howner, hnext]
    exact hi.owned.change ho o'
  · intro k o1 hk
    rw [horders] at hk
    rw [howner, hcounted]
    rcases lookup_insert_cases hk with ⟨rfl, rfl⟩ | ⟨hne, hk⟩
    · rw [update_self]
    · rw [update_of_ne fun he => hne (hi.owned.apart k id o1 o hk ho he)]
      exact hi.ended k o1 hk
  · intro n hn
    rw [hnext] at hn
    have hlt := hi.owned.given id o ho
    rw [hcounted, update_of_ne (by omega)]
    exact hi.fresh n hn
  · intro n
    rw [hcounted, update_apply]
    split
    · split <;> omega
    · exact hi.once n
  · rw [hended, hlost]
    by_cases ht : o.state.Terminal
    · rw [if_pos ht] at hends ⊢
      split at hends <;> rename_i ht' <;> simp only [ht', if_true, if_false] <;> omega
    · rw [if_neg ht] at hends ⊢
      split at hends <;> rename_i ht' <;> simp only [ht', if_true, if_false] <;> omega
  · rw [hopen, hlost]
    by_cases ht' : o'.state.Terminal
    · rw [if_pos ht']
      by_cases ht : o.state.Terminal
      · rw [if_pos ht]
        omega
      · have := hcovered ht' ht
        rw [if_neg ht]
        omega
    · rw [if_neg ht']
      split <;> omega

theorem ended_at_open (hid : ¬(h.tracker.state id).Terminal) :
    (h.tracker.orders.lookup id).elim 0 (fun o => if o.state.Terminal then (1 : Int) else 0) = 0 := by
  cases ho : h.tracker.orders.lookup id with
  | none => rfl
  | some o =>
    rw [FIXOrderTracker.state_of_lookup ho] at hid
    exact if_neg hid

/-- An open order goes on, open, under another id. -/
theorem Inv.moved (hi : h.Inv) (ho : h.tracker.orders.lookup orig = some o) (hs : ¬o.state.Terminal) (hs' : ¬o'.state.Terminal)
    (hid : ¬(h.tracker.state id).Terminal) (hcovered : id ≠ orig → id ∈ h.tracker.orders → (h.lost : Int) < h.tracker.openOrders)
    (horders : h'.tracker.orders = (h.tracker.orders.erase orig).insert id o')
    (howner : h'.owner = update h.owner id (h.owner orig)) (ha : Accounts h h') : h'.Inv := by
  obtain ⟨hnext, hcounted, hlost, hends⟩ := ha
  have hended : h'.tracker.endedOrders = h.tracker.endedOrders := by
    have hsum : h'.tracker.endedOrders = _ := (congrArg (sumOver · _) horders).trans (sumOver_move _ ho id o')
    rw [hsum, if_neg hs, if_neg hs', ended_at_open hid, ite_self, Int.sub_zero, Int.add_zero, Int.sub_zero]
    rfl
  have hopen : (h.lost : Int) ≤ h'.tracker.openOrders := by
    have hsum : h'.tracker.openOrders = _ := (congrArg (sumOver · _) horders).trans (sumOver_move _ ho id o')
    have hold := hi.covered
    have hw : sumOver h.tracker.orders (fun o => if o.state.Terminal then (0 : Int) else 1) = h.tracker.openOrders := rfl
    rw [hsum, if_neg hs, if_neg hs', hw]
    by_cases he : id = orig
    · rw [if_pos he]
      omega
    · rw [if_neg he]
      cases ho1 : h.tracker.orders.lookup id with
      | none =>
        show _ ≤ _ - (0 : Int)
        omega
      | some o1 =>
        have hlt := hcovered he (lookup_isSome.mp (by rw [ho1]; rfl))
        show _ ≤ _ - (if o1.state.Terminal then (0 : Int) else 1)
        split <;> omega
  constructor
  · rw [horders, howner, hnext]
    exact hi.owned.move ho id o'
  · intro k o1 hk
    rw [horders] at hk
    rw [howner, hcounted]
    rcases lookup_move_cases hk with ⟨rfl, rfl⟩ | ⟨hne, -, hk⟩
    · rw [update_self, if_neg hs', hi.ended orig o ho, if_neg hs]
    · rw [update_of_ne hne]
      exact hi.ended k o1 hk
  · rw [hnext, hcounted]
    exact hi.fresh
  · rw [hcounted]
    exact hi.once
  · rw [hends, hended, hlost]
    exact hi.total
  · rw [hlost]
    exact hopen

theorem Inv.new (hi : h.Inv) (F : Doubles D) (atof : List UInt8 → D) (id : List UInt8) (qty : { x : Int // IsInt32 x }) :
    (h.apply F atof (.new id qty)).Inv := by
  have hended : (h.apply F atof (.new id qty)).tracker.endedOrders = h.tracker.endedOrders + 0 - _ := sumOver_put h.tracker.orders _ id _
  have hopen : (h.apply F atof (.new id qty)).tracker.openOrders = h.tracker.openOrders + 1 - _ := sumOver_put h.tracker.orders _ id _
  have hlost : (h.apply F atof (.new id qty)).lost = h.lost + if (h.tracker.state id).Terminal then 1 else 0 := rfl
  have hends : (h.apply F atof (.new id qty)).tracker.ends = h.tracker.ends := rfl
  have htotal := hi.total
  have hcovered := hi.covered
  constructor
  · exact hi.owned.fresh id _
  · intro k o hk
    show h.counted (update h.owner id h.next k) = _
    rcases lookup_insert_cases hk with ⟨rfl, rfl⟩ | ⟨hne, hk⟩
    · rw [update_self, hi.fresh _ (Nat.le_refl _)]
      rfl
    · rw [update_of_ne hne]
      exact hi.ended k o hk
  · intro n hn
    exact hi.fresh n (Nat.le_of_succ_le hn)
  · exact hi.once
  · rw [hended, hlost, hends]
    by_cases ht : (h.tracker.state id).Terminal
    · obtain ⟨o, ho, hs⟩ := FIXOrderTracker.exists_of_terminal ht
      rw [if_pos ht, ho]
      dsimp only [Option.elim]
      rw [if_pos hs]
      omega
    · rw [if_neg ht, ended_at_open ht]
      omega
  · rw [hopen, hlost]
    by_cases ht : (h.tracker.state id).Terminal
    · obtain ⟨o, ho, hs⟩ := FIXOrderTracker.exists_of_terminal ht
      rw [if_pos ht, ho]
      dsimp only [Option.elim]
      rw [if_pos hs]
      omega
    · rw [if_neg ht]
      cases h.tracker.orders.lookup id with
      | none =>
        dsimp only [Option.elim]
        omega
      | some o =>
        dsimp only [Option.elim]
        split <;> omega

theorem Inv.apply (hi : h.Inv) (F : Doubles D) (atof : List UInt8 → D) (ha : h.Admits e) : (h.apply F atof e).Inv := by
  rcases apply_cases F atof h e with ⟨-, horders, howner, hacc⟩ | ⟨id, o, flag, -, ho, horders, howner, hacc⟩ |
    ⟨m, id, orig, o, o', rfl, hid, hr, horig, ho, hs', horders, howner, hacc⟩ |
    ⟨m, id, o, rfl, hid, hr, ho, horders, howner, hnext, hlost, hcounted, hends⟩ | ⟨id, qty, rfl⟩
  · exact hi.quiet horders howner hacc
  · refine hi.changed ho horders howner hacc.next hacc.lost ?_ ?_ fun ht hs => absurd ht hs
    · rw [hacc.counted, ← hi.ended id o ho, update_eq_self]
    · rw [hacc.ends]
  · have hopen := ha id hid
    rw [if_pos hr] at hopen
    obtain ⟨hs, hid, hcovered⟩ := hopen orig horig (lookup_isSome.mp (by rw [ho]; rfl))
    rw [FIXOrderTracker.state_of_lookup ho] at hs
    exact hi.moved ho hs hs' hid hcovered horders howner hacc
  · have hopen := ha id hid
    rw [if_neg hr] at hopen
    obtain ⟨hs, hcovered⟩ := hopen (lookup_isSome.mp (by rw [ho]; rfl))
    rw [FIXOrderTracker.state_of_lookup ho] at hs
    rw [hi.ended id o ho, if_neg hs, Nat.zero_add] at hcounted
    refine hi.changed ho horders howner hnext hlost hcounted ?_ fun ht _ => hcovered ht
    rw [if_neg hs]
    exact hends
  · exact hi.new F atof id qty

theorem Inv.rates (hi : h.Inv) : h.tracker.orderFillRate + h.tracker.cancelRate + h.tracker.rejectRate ≤ 1 := by
  by_cases hpos : 0 < h.tracker.orderCount
  · rw [FIXOrderTracker.rates_le_one_iff hpos]
    have htotal := hi.total
    have hcovered := hi.covered
    have hcount := FIXOrderTracker.orderCount_eq h.tracker
    omega
  · have hzero : ∀ n, h.tracker.rate n = 0 := fun n => if_neg (by omega)
    unfold FIXOrderTracker.orderFillRate FIXOrderTracker.cancelRate FIXOrderTracker.rejectRate
    rw [hzero, hzero, hzero, add_zero, add_zero]
    exact zero_le_one

/-- A report that comes for an open order leaves the ended ones alone. -/
theorem kept_of_admits (F : Doubles D) (atof : List UInt8 → D) (ha : h.Admits e) (hne : ∀ id qty, e ≠ .new id qty)
    (ht : (h.tracker.state k).Terminal) : (h.apply F atof e).tracker.state k = h.tracker.state k := by
  have hother : ∀ {id}, ¬(h.tracker.state id).Terminal → k ≠ id := fun hs he => hs (he ▸ ht)
  rcases apply_cases F atof h e with ⟨-, horders, -⟩ | ⟨id, o, flag, -, ho, horders, -⟩ |
    ⟨m, id, orig, o, o', rfl, hid, hr, horig, ho, hs', horders, -⟩ | ⟨m, id, o, rfl, hid, hr, ho, horders, -⟩ | ⟨id, qty, rfl⟩
  · unfold FIXOrderTracker.state
    rw [horders]
  · rw [FIXOrderTracker.state_insert horders]
    split
    · rename_i he
      rw [he, FIXOrderTracker.state_of_lookup ho]
    · rfl
  · have hopen := ha id hid
    rw [if_pos hr] at hopen
    obtain ⟨hs, hid, -⟩ := hopen orig horig (lookup_isSome.mp (by rw [ho]; rfl))
    rw [FIXOrderTracker.state_move horders, if_neg (hother hid), if_neg (hother hs)]
  · have hopen := ha id hid
    rw [if_neg hr] at hopen
    obtain ⟨hs, -⟩ := hopen (lookup_isSome.mp (by rw [ho]; rfl))
    rw [FIXOrderTracker.state_insert horders, if_neg (hother hs)]
  · exact absurd rfl (hne id qty)

theorem final_of_admits (hi : h.Inv) (F : Doubles D) (atof : List UInt8 → D) (ha : h.Admits e) : h.Final F atof e where
  kept hne _ ht := kept_of_admits F atof ha hne ht
  once := (hi.apply F atof ha).once
  rates := (hi.apply F atof ha).rates

/-- One order fewer is open, and all that ended still count. -/
theorem lost_lt_of_rates (hi : h.Inv) {t : FIXOrderTracker D} {d : Int} (hpos : 0 < t.orderCount)
    (hrates : t.orderFillRate + t.cancelRate + t.rejectRate ≤ 1) (hends : (t.ends : Int) = h.tracker.ends + d)
    (hcount : (t.orderCount : Int) = h.tracker.orderCount + d - 1) : (h.lost : Int) < h.tracker.openOrders := by
  rw [FIXOrderTracker.rates_le_one_iff hpos] at hrates
  have htotal := hi.total
  have hsum := FIXOrderTracker.orderCount_eq h.tracker
  omega

theorem admits_of_final (hi : h.Inv) (hf : h.Final F atof e) : h.Admits e := by
  obtain ⟨hkept, honce, hrates⟩ := hf
  cases e with
  | new id qty => trivial
  | cancelSent id => trivial
  | cancelReject m => trivial
  | execReport m =>
    replace hkept := hkept fun _ _ he => (by cases he)
    intro id hid
    by_cases hr : m.Replaces
    · rw [if_pos hr]
      intro orig horig hmem
      obtain ⟨o, ho⟩ := Option.isSome_iff_exists.mp (lookup_isSome.mpr hmem)
      obtain ⟨o', hs', horders, -, -, -, -, hends⟩ := apply_replaced F atof hid hr horig ho
      have hstate := FIXOrderTracker.state_move horders
      have hfree : ¬(h.tracker.state id).Terminal := by
        intro ht
        have hsame := hkept id ht
        rw [hstate, if_pos rfl] at hsame
        exact hs' (hsame ▸ ht)
      refine ⟨fun ht => ?_, hfree, fun hne hmem => ?_⟩
      · have hsame := hkept orig ht
        by_cases he : orig = id
        · exact hfree (he ▸ ht)
        · rw [hstate, if_neg he, if_pos rfl] at hsame
          rw [← hsame] at ht
          exact absurd ht (by decide)
      · -- the order that was under the new id is gone
        obtain ⟨o1, ho1⟩ := Option.isSome_iff_exists.mp (lookup_isSome.mpr hmem)
        have hpos := FIXOrderTracker.orderCount_pos ((congrArg (AList.lookup id) horders).trans (lookup_insert _))
        have hcount := FIXOrderTracker.orderCount_move ho horders
        rw [if_neg hne, ho1] at hcount
        have hlt := lost_lt_of_rates hi hpos hrates (by rw [hends, Int.add_zero]) (by rw [hcount, Int.add_zero]; rfl)
        omega
    · rw [if_neg hr]
      intro hmem
      obtain ⟨o, ho⟩ := Option.isSome_iff_exists.mp (lookup_isSome.mpr hmem)
      obtain ⟨horders, -, -, -, hcounted, hends⟩ := apply_reported F atof hid hr ho
      refine ⟨fun ht => ?_, fun ht => ?_⟩
      · -- the report ends the order a second time
        have hsame := hkept id ht
        rw [FIXOrderTracker.state_insert horders, if_pos rfl] at hsame
        have hagain : m.ordState.Terminal := by
          rw [← hsame] at ht
          exact ht
        have htwice := honce (h.owner id)
        rw [FIXOrderTracker.state_of_lookup ho] at ht
        rw [hcounted, update_self, hi.ended id o ho, if_pos ht, if_pos hagain] at htwice
        omega
      · rw [if_pos ht] at hends
        have hpos := FIXOrderTracker.orderCount_pos ((congrArg (AList.lookup id) horders).trans (lookup_insert _))
        have hcount := FIXOrderTracker.orderCount_insert ho horders
        have hlt := lost_lt_of_rates hi (d := 1) hpos hrates (by rw [hends]; rfl) (by rw [hcount, Int.add_sub_cancel])
        omega

/-- A run is final at each of its steps exactly when the reports come for open orders. -/
theorem ended_once_iff (F : Doubles D) (atof : List UInt8 → D) (events : List TrackerEvent) :
    EachStep (apply F atof) (Final F atof) (init F) events ↔ EachStep (apply F atof) Admits (init F) events :=
  EachStep.iff Inv.init (fun _ _ hi ha => hi.apply F atof ha) fun _ _ hi => ⟨admits_of_final hi, final_of_admits hi F atof⟩

/-- The report of a fill comes twice, and the one order counts as two fills. -/
theorem duplicate_counts_twice :
    ¬EachStep (apply wholeDoubles atoi) (Final wholeDoubles atoi) (init wholeDoubles)
      [.new [65] ⟨150, by decide⟩, .execReport FIXOrderTracker.sampleFilled, .execReport FIXOrderTracker.sampleFilled] := by
  intro h
  obtain ⟨-, -, hlast, -⟩ := h
  have htwice := hlast.once 0
  have hcounted : ((((init wholeDoubles).apply wholeDoubles atoi (.new [65] ⟨150, by decide⟩)).apply wholeDoubles atoi
      (.execReport FIXOrderTracker.sampleFilled)).apply wholeDoubles atoi
          (.execReport FIXOrderTracker.sampleFilled)).counted 0 = 2 := by decide +kernel
  rw [hcounted] at htwice
  omega

end History

end HftLab.Fix
