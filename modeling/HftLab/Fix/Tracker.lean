/-
  HftLab.Fix.Tracker — the client's picture of its orders from ExecutionReports and OrderCancelRejects (fix_order_state.hpp).

  An order whose cancel was sent carries a flag, and the queries take it that only working orders do. Of the reports that end an
  order only the canceled one clears it (`pending_cancel_works`).

  Quantities of an order are 32-bit, the sums of them wrap; the 64-bit counters do not. A `double` is a `D` with the operations of
  `Doubles`, and `atof` reads one.
-/

import HftLab.Fix.Session
import HftLab.Lib.System
import HftLab.Lib.Tally
import HftLab.Risk.Manager

namespace HftLab.Fix

open Lib
open HftLab.Risk (Doubles wholeDoubles)

inductive OrdState where
  | new
  | partlyFilled
  | filled
  | canceled
  | rejected
  | unknown
  deriving DecidableEq, Repr

/-- NEW or PARTIAL. -/
def OrdState.Working (s : OrdState) : Prop := s = .new ∨ s = .partlyFilled

instance (s : OrdState) : Decidable s.Working := inferInstanceAs (Decidable (_ ∨ _))

/-- The order ended. -/
def OrdState.Terminal (s : OrdState) : Prop := s = .filled ∨ s = .canceled ∨ s = .rejected

instance (s : OrdState) : Decidable s.Terminal := inferInstanceAs (Decidable (_ ∨ _ ∨ _))

def mapStatus (s : UInt8) : OrdState :=
  if s = '0'.toUInt8 then .new
  else if s = '1'.toUInt8 then .partlyFilled
  else if s = '2'.toUInt8 then .filled
  else if s = '4'.toUInt8 then .canceled
  else if s = '8'.toUInt8 then .rejected
  else .unknown

structure Record where
  state : OrdState
  ordered : Int
  cumQty : Int
  leavesQty : Int
  pendingCancel : Bool := false
  deriving DecidableEq, Repr

structure FIXOrderTracker (D : Type) where
  orders : Table (List UInt8) Record := ∅
  fills : Nat := 0
  cancels : Nat := 0
  rejects : Nat := 0
  cancelRejects : Nat := 0
  replaces : Nat := 0
  fillNotional : D
  fillShares : Int := 0

/-- The quantities of the report, where it has them. -/
def Record.refresh (o : Record) (m : FIXMessage) : Record :=
  { o with
    cumQty := (m.getField 14).elim o.cumQty atoi
    leavesQty := (m.getField 151).elim o.leavesQty atoi }

/-- The state that the report gives the order. -/
def FIXMessage.ordState (m : FIXMessage) : OrdState := (m.getField 39).elim .unknown fun st => mapStatus (FIXSession.firstChar st)

namespace FIXOrderTracker

variable {D : Type} (F : Doubles D) (atof : List UInt8 → D) (t : FIXOrderTracker D)

def init : FIXOrderTracker D := { fillNotional := F.ofInt 0 }

def store (id : List UInt8) (o : Record) : FIXOrderTracker D := { t with orders := t.orders.insert id o }

def onNew (clOrdId : List UInt8) (qty : Int) : FIXOrderTracker D :=
  t.store clOrdId { state := .new, ordered := qty, cumQty := 0, leavesQty := qty }

def onReplaced (m : FIXMessage) (id : List UInt8) : OrdState × FIXOrderTracker D :=
  match m.getField 41 with
  | none => (.unknown, t)
  | some orig =>
    match t.orders.lookup orig with
    | none => (.unknown, t)
    | some o =>
      let moved := { o.refresh m with pendingCancel := false }
      let moved := { moved with state := if 0 < moved.cumQty then .partlyFilled else .new }
      (moved.state, { t with orders := (t.orders.erase orig).insert id moved, replaces := t.replaces + 1 })

/-- The slice that the report brought, added to the volume and the notional of the session. -/
def price (m : FIXMessage) : FIXOrderTracker D :=
  match m.getField 32, m.getField 31 with
  | some lq, some lp =>
    let lastQty := strtol lq
    let lastPx := atof lp
    if 0 < lastQty ∧ F.lt (F.ofInt 0) lastPx = true then
      { t with fillNotional := F.add t.fillNotional (F.mul (F.ofInt lastQty) lastPx), fillShares := t.fillShares + lastQty }
    else t
  | _, _ => t

/-- The order ended, or goes on. -/
def count (s : OrdState) : FIXOrderTracker D :=
  match s with
  | .filled => { t with fills := t.fills + 1 }
  | .canceled => { t with cancels := t.cancels + 1 }
  | .rejected => { t with rejects := t.rejects + 1 }
  | _ => t

def onReport (m : FIXMessage) (id : List UInt8) : OrdState × FIXOrderTracker D :=
  match t.orders.lookup id with
  | none => (.unknown, t)
  | some o =>
    let o := { o.refresh m with state := m.ordState }
    let o := if o.state = .canceled then { o with pendingCancel := false } else o
    (o.state, ((t.price F atof m).count o.state).store id o)

/-- OrdStatus 5 is a replacement. -/
def onExecReport (m : FIXMessage) : OrdState × FIXOrderTracker D :=
  match m.getField 11 with
  | none => (.unknown, t)
  | some id => if (m.getField 39).map FIXSession.firstChar = some '5'.toUInt8 then t.onReplaced m id else t.onReport F atof m id

def onCancelSent (origClOrdId : List UInt8) : FIXOrderTracker D :=
  match t.orders.lookup origClOrdId with
  | none => t
  | some o => if o.state = .new ∨ o.state = .partlyFilled then t.store origClOrdId { o with pendingCancel := true } else t

def onCancelReject (m : FIXMessage) : OrdState × FIXOrderTracker D :=
  match m.getField 41 with
  | none => (.unknown, t)
  | some orig =>
    match t.orders.lookup orig with
    | none => (.unknown, t)
    | some o => (o.state, { t.store orig { o with pendingCancel := false } with cancelRejects := t.cancelRejects + 1 })

def state (clOrdId : List UInt8) : OrdState := (t.orders.lookup clOrdId).elim .unknown (·.state)

def orderCount : Nat := t.orders.entries.length

/-- The part of the orders that `n` is, taken as exact. -/
def rate (n : Nat) : ℚ := if t.orderCount ≠ 0 then (n : ℚ) / t.orderCount else 0

def orderFillRate : ℚ := t.rate t.fills

def cancelRate : ℚ := t.rate t.cancels

def rejectRate : ℚ := t.rate t.rejects

def workingQty : Int := sum32 t.orders (fun o => decide o.state.Working) (·.leavesQty)

def pendingCancelQty : Int := sum32 t.orders (·.pendingCancel) (·.leavesQty)

/-- The quotient, taken as exact. -/
def pendingCancelFraction : ℚ := if 0 < t.workingQty then (t.pendingCancelQty : ℚ) / t.workingQty else 0

end FIXOrderTracker

/-! ## Runs -/

inductive TrackerEvent where
  | new (clOrdId : List UInt8) (qty : { x : Int // IsInt32 x })
  | cancelSent (origClOrdId : List UInt8)
  | execReport (m : FIXMessage)
  | cancelReject (m : FIXMessage)

/-- Quantities are not negative: those of orders, and those that a report gives as left. -/
def TrackerEvent.Counted : TrackerEvent → Prop
  | .new _ qty => 0 ≤ qty.1
  | .execReport m => ∀ leaves, m.getField 151 = some leaves → 0 ≤ atoi leaves
  | _ => True

namespace FIXOrderTracker

variable {D : Type} (F : Doubles D) (atof : List UInt8 → D) (t : FIXOrderTracker D)

def exec : TrackerEvent → FIXOrderTracker D
  | .new clOrdId qty => t.onNew clOrdId qty
  | .cancelSent origClOrdId => t.onCancelSent origClOrdId
  | .execReport m => (t.onExecReport F atof m).2
  | .cancelReject m => (t.onCancelReject m).2

/-- Only working orders carry the flag. -/
def PendingWorks : Prop := ∀ k o, t.orders.lookup k = some o → o.pendingCancel = true → o.state.Working

def Nonneg : Prop := ∀ k o, t.orders.lookup k = some o → 0 ≤ o.leavesQty

/-- What is left of the working orders fits 32 bits. -/
def SumFits : Prop := sumOver t.orders (fun o => if decide o.state.Working then o.leavesQty else 0) ≤ int32Max

structure Condemned : Prop where
  qty : t.pendingCancelQty ≤ t.workingQty
  nonneg : 0 ≤ t.pendingCancelFraction
  le_one : t.pendingCancelFraction ≤ 1

/-- A report on an order with the flag says New, PartiallyFilled, Canceled or Replaced. -/
def Leaves (t : FIXOrderTracker D) : TrackerEvent → Prop
  | .execReport m => ∀ id o, m.getField 11 = some id → (m.getField 39).map FIXSession.firstChar ≠ some '5'.toUInt8 →
      t.orders.lookup id = some o → o.pendingCancel = true → m.ordState.Working ∨ m.ordState = .canceled
  | _ => True

variable {F atof t} {o o' : Record} {k id : List UInt8} {e : TrackerEvent}

/-! ## One step -/

@[simp] theorem price_orders (m : FIXMessage) : (t.price F atof m).orders = t.orders := by
  unfold price
  split
  · dsimp only
    split <;> rfl
  · rfl

@[simp] theorem count_orders (s : OrdState) : (t.count s).orders = t.orders := by
  unfold count
  split <;> rfl

/-- The order after a report that is no replacement. -/
def reported (o : Record) (m : FIXMessage) : Record :=
  { o.refresh m with state := m.ordState, pendingCancel := if m.ordState = .canceled then false else o.pendingCancel }

theorem onReport_orders (m : FIXMessage) (ho : t.orders.lookup id = some o) :
    (t.onReport F atof m id).2.orders = t.orders.insert id (reported o m) := by
  unfold onReport reported
  rw [ho]
  dsimp only [store]
  rw [count_orders, price_orders]
  by_cases hc : m.ordState = .canceled
  · simp only [if_pos hc]
  · simp only [if_neg hc]
    rfl

/-- The report reaches the order. -/
theorem exec_report {m : FIXMessage} (hid : m.getField 11 = some id)
    (hst : (m.getField 39).map FIXSession.firstChar ≠ some '5'.toUInt8) (ho : t.orders.lookup id = some o) :
    (t.exec F atof (.execReport m)).orders = t.orders.insert id (reported o m) := by
  show (t.onExecReport F atof m).2.orders = _
  unfold onExecReport
  rw [hid]
  dsimp only
  rw [if_neg hst]
  exact onReport_orders m ho

theorem onReplaced_eq {m : FIXMessage} (id : List UInt8) {orig : List UInt8} (horig : m.getField 41 = some orig)
    (ho : t.orders.lookup orig = some o) :
    ∃ o' : Record, o'.pendingCancel = false ∧ o'.leavesQty = (m.getField 151).elim o.leavesQty atoi ∧ ¬o'.state.Terminal ∧
      (t.onReplaced m id).2 = { t with orders := (t.orders.erase orig).insert id o', replaces := t.replaces + 1 } := by
  refine ⟨{ o.refresh m with
    pendingCancel := false
    state := if 0 < (o.refresh m).cumQty then .partlyFilled else .new }, rfl, rfl, ?_, ?_⟩
  · dsimp only
    split <;> decide
  · unfold onReplaced
    rw [horig]
    dsimp only
    rw [ho]

/-- The report has no original, or one that is not known. -/
theorem onReplaced_unknown {m : FIXMessage} (id : List UInt8) (h : ∀ orig, m.getField 41 = some orig → t.orders.lookup orig = none) :
    (t.onReplaced m id).2 = t := by
  unfold onReplaced
  cases horig : m.getField 41 with
  | none => rfl
  | some orig =>
    dsimp only
    rw [h orig horig]

theorem onCancelSent_cases (t : FIXOrderTracker D) (id : List UInt8) :
    t.onCancelSent id = t ∨
    ∃ o, t.orders.lookup id = some o ∧ o.state.Working ∧ t.onCancelSent id = t.store id { o with pendingCancel := true } := by
  unfold onCancelSent
  cases ho : t.orders.lookup id with
  | none => exact .inl rfl
  | some o =>
    dsimp only
    split
    · rename_i hs
      exact .inr ⟨o, rfl, hs, rfl⟩
    · exact .inl rfl

theorem onCancelReject_cases (t : FIXOrderTracker D) (m : FIXMessage) :
    (t.onCancelReject m).2 = t ∨
    ∃ orig o, t.orders.lookup orig = some o ∧
      (t.onCancelReject m).2 = { t.store orig { o with pendingCancel := false } with cancelRejects := t.cancelRejects + 1 } := by
  unfold onCancelReject
  cases m.getField 41 with
  | none => exact .inl rfl
  | some orig =>
    dsimp only
    cases ho : t.orders.lookup orig with
    | none => exact .inl rfl
    | some o => exact .inr ⟨orig, o, ho, rfl⟩

/-- A call registers an order, replaces one, reports on one or sets its flag, or it leaves the orders as they are. -/
theorem exec_cases (F : Doubles D) (atof : List UInt8 → D) (t : FIXOrderTracker D) (e : TrackerEvent) :
    (t.exec F atof e).orders = t.orders ∨
    (∃ id qty, e = .new id qty ∧
      (t.exec F atof e).orders = t.orders.insert id { state := .new, ordered := qty.1, cumQty := 0, leavesQty := qty.1 }) ∨
    (∃ m id orig o o', e = .execReport m ∧ t.orders.lookup orig = some o ∧ o'.pendingCancel = false ∧
      o'.leavesQty = (m.getField 151).elim o.leavesQty atoi ∧ (t.exec F atof e).orders = (t.orders.erase orig).insert id o') ∨
    (∃ m id o, e = .execReport m ∧ m.getField 11 = some id ∧ (m.getField 39).map FIXSession.firstChar ≠ some '5'.toUInt8 ∧
      t.orders.lookup id = some o ∧ (t.exec F atof e).orders = t.orders.insert id (reported o m)) ∨
    (∃ id o flag, t.orders.lookup id = some o ∧ (flag = true → o.state.Working) ∧
      (t.exec F atof e).orders = t.orders.insert id { o with pendingCancel := flag }) := by
  cases e with
  | new id qty => exact .inr (.inl ⟨id, qty, rfl, rfl⟩)
  | cancelSent id =>
    show (t.onCancelSent id).orders = t.orders ∨ _
    rcases onCancelSent_cases t id with h | ⟨o, ho, hs, h⟩
    · exact .inl (congrArg orders h)
    · exact .inr (.inr (.inr (.inr ⟨id, o, true, ho, fun _ => hs, congrArg orders h⟩)))
  | cancelReject m =>
    show (t.onCancelReject m).2.orders = t.orders ∨ _
    rcases onCancelReject_cases t m with h | ⟨orig, o, ho, h⟩
    · exact .inl (congrArg orders h)
    · exact .inr (.inr (.inr (.inr ⟨orig, o, false, ho, fun h => (by cases h), congrArg orders h⟩)))
  | execReport m =>
    cases hid : m.getField 11 with
    | none =>
      left
      dsimp only [exec]
      unfold onExecReport
      rw [hid]
    | some id =>
      by_cases hst : (m.getField 39).map FIXSession.firstChar = some '5'.toUInt8
      · have hexec : t.exec F atof (.execReport m) = (t.onReplaced m id).2 := by
          dsimp only [exec]
          unfold onExecReport
          rw [hid]
          dsimp only
          rw [if_pos hst]
        rw [hexec]
        by_cases hknown : ∃ orig o, m.getField 41 = some orig ∧ t.orders.lookup orig = some o
        · obtain ⟨orig, o, horig, ho⟩ := hknown
          obtain ⟨o', hflag, hleaves, -, h⟩ := onReplaced_eq id horig ho
          exact .inr (.inr (.inl ⟨m, id, orig, o, o', rfl, ho, hflag, hleaves, congrArg orders h⟩))
        · left
          rw [onReplaced_unknown id fun orig horig => Option.eq_none_iff_forall_ne_some.mpr fun o ho => hknown ⟨orig, o, horig, ho⟩]
      · cases ho : t.orders.lookup id with
        | none =>
          left
          dsimp only [exec]
          unfold onExecReport
          rw [hid]
          dsimp only
          rw [if_neg hst]
          unfold onReport
          rw [ho]
        | some o => exact .inr (.inr (.inr (.inl ⟨m, id, o, rfl, hid, hst, ho, exec_report hid hst ho⟩)))

/-- The order has the flag only while it works, after the report as before. -/
theorem PendingWorks.exec (h : t.PendingWorks) (F : Doubles D) (atof : List UInt8 → D) (hleaves : t.Leaves e) :
    (t.exec F atof e).PendingWorks := by
  unfold PendingWorks
  rcases exec_cases F atof t e with horders | ⟨id, qty, -, horders⟩ | ⟨m, id, orig, o, o', -, -, hflag, -, horders⟩ |
    ⟨m, id, o, rfl, hid, hst, ho, horders⟩ | ⟨id, o, flag, ho, hflag, horders⟩
  · rw [horders]
    exact h
  · rw [horders]
    exact forall_insert h fun hset => (by cases hset)
  · rw [horders]
    refine forall_insert (forall_erase h orig) fun hset => ?_
    rw [hflag] at hset
    cases hset
  · rw [horders]
    refine forall_insert h fun hset => ?_
    unfold reported at hset ⊢
    by_cases hc : m.ordState = .canceled
    · rw [if_pos hc] at hset
      cases hset
    · rw [if_neg hc] at hset
      exact (hleaves id o hid hst ho hset).resolve_right hc
  · rw [horders]
    exact forall_insert h hflag

theorem leaves_of_pendingWorks (hnext : (t.exec F atof e).PendingWorks) : t.Leaves e := by
  cases e with
  | execReport m =>
    intro id o hid hst ho hp
    by_cases hc : m.ordState = .canceled
    · exact .inr hc
    · left
      have hafter : (reported o m).pendingCancel → (reported o m).state.Working := by
        refine hnext id _ ?_
        rw [exec_report hid hst ho, AList.lookup_insert]
      exact hafter (by unfold reported; dsimp only; rw [if_neg hc, hp])
  | new id qty => trivial
  | cancelSent id => trivial
  | cancelReject m => trivial

theorem Nonneg.exec (h : t.Nonneg) (F : Doubles D) (atof : List UInt8 → D) (hc : e.Counted) : (t.exec F atof e).Nonneg := by
  have hread : ∀ (m : FIXMessage) (o : Record), e = .execReport m → 0 ≤ o.leavesQty → 0 ≤ (m.getField 151).elim o.leavesQty atoi := by
    intro m o he ho
    subst he
    cases hl : m.getField 151 with
    | none => exact ho
    | some leaves => exact hc leaves hl
  unfold Nonneg
  rcases exec_cases F atof t e with horders | ⟨id, qty, rfl, horders⟩ | ⟨m, id, orig, o, o', he, ho, -, hleaves, horders⟩ |
    ⟨m, id, o, he, -, -, ho, horders⟩ | ⟨id, o, flag, ho, -, horders⟩
  · rw [horders]
    exact h
  · rw [horders]
    exact forall_insert h hc
  · rw [horders]
    refine forall_insert (forall_erase h orig) ?_
    rw [hleaves]
    exact hread m o he (h _ _ ho)
  · rw [horders]
    exact forall_insert h (hread m o he (h _ _ ho))
  · have hkept : 0 ≤ o.leavesQty := h _ _ ho
    rw [horders]
    exact forall_insert h hkept

/-! ## The sums -/

/-- What the flagged orders have left is part of what the working ones have. -/
theorem PendingWorks.condemned (h : t.PendingWorks) (hnonneg : t.Nonneg) (hfits : t.SumFits) : t.Condemned := by
  obtain ⟨hpending, hle⟩ := sum32_le_sum32
    (fun k o ho hp => decide_eq_true (h k o ho hp)) hnonneg hfits
  obtain ⟨hlow, hhigh⟩ := fraction_bounds hpending hle
  exact ⟨hle, hlow, hhigh⟩

/-- In a run the flag is on working orders only, and the queries return what they are to. -/
structure Kept (F : Doubles D) (atof : List UInt8 → D) (events : List TrackerEvent) : Prop where
  works : EachState (exec F atof) PendingWorks (init F) events
  condemned : (∀ e ∈ events, e.Counted) → EachState (exec F atof) SumFits (init F) events →
    EachState (exec F atof) Condemned (init F) events

theorem flag_works_iff (F : Doubles D) (atof : List UInt8 → D) (events : List TrackerEvent) :
    Kept F atof events ↔ EachStep (exec F atof) Leaves (init F) events := by
  have hnone : ∀ (P : Record → Prop) k o, (init F).orders.lookup k = some o → P o := fun _ _ _ h => (by cases h)
  have hiff : EachState (exec F atof) PendingWorks (init F) events ↔ EachStep (exec F atof) Leaves (init F) events :=
    EachStep.true.eachState_iff (I := fun _ => True) trivial (hnone _) (fun _ _ _ _ _ _ => trivial)
      fun _ _ _ _ hworks => ⟨leaves_of_pendingWorks, hworks.exec F atof⟩
  constructor
  · intro h
    exact hiff.mp h.works
  · intro h
    have hworks := hiff.mpr h
    refine ⟨hworks, fun hcounted hfits => ?_⟩
    have hnonneg := (EachStep.of_forall hcounted).eachState (I := Nonneg) (hnone _) fun _ _ hc hn => hn.exec F atof hc
    exact ((hworks.and hnonneg).and hfits).mono fun _ hs => hs.1.1.condemned hs.1.2 hs.2

def sampleFilled : FIXMessage :=
  FIXMessage.parse (buildMessage 1000 (ascii "35=8|11=A|39=2|14=150|151=0|") (ascii "FIX.4.2") '|'.toUInt8)

def sampleCrossed : List TrackerEvent := [.new [65] ⟨150, by decide⟩, .cancelSent [65], .execReport sampleFilled]

/-- The order fills before its cancel is answered, and the flag stays. -/
theorem filled_while_flagged : ¬Kept wholeDoubles atoi sampleCrossed := by
  intro h
  obtain ⟨-, -, -, hlast⟩ := h.works
  have hlast : (sampleCrossed.foldl (exec wholeDoubles atoi) (init wholeDoubles)).PendingWorks := hlast
  have hrecord : ((sampleCrossed.foldl (exec wholeDoubles atoi) (init wholeDoubles)).orders.lookup [65]).map
      (fun o => (o.pendingCancel, o.state)) = some (true, .filled) := by decide +kernel
  obtain ⟨o, ho, hval⟩ := Option.map_eq_some_iff.mp hrecord
  obtain ⟨hflag, hstate⟩ := Prod.mk.inj hval
  have hworks := hlast _ o ho hflag
  rw [hstate] at hworks
  exact absurd hworks (by decide)

end FIXOrderTracker

end HftLab.Fix
