/-
  HftLab.Ouch.Tracker — the client's picture of its orders (ouch_order_state.hpp).

  `Core` is what the reports do to one order, `Counts` the totals that they move; a `Record` and the tracker extend them by
  what is only kept for queries. Shares of an order are 32-bit and wrap, the 64-bit counters and sums do not. A `double` is a
  `D` with the operations of `Doubles`.
-/

import HftLab.Lib.Tally
import HftLab.Ouch.Protocol
import HftLab.Risk.Manager

namespace HftLab.Ouch

open Lib
open HftLab.Risk (Doubles)

inductive OrderState where
  | new
  | live
  | partlyFilled
  | filled
  | cancelled
  | rejected
  deriving DecidableEq, Repr

def OrderState.Terminal (s : OrderState) : Prop := s = .filled ∨ s = .cancelled ∨ s = .rejected

instance (s : OrderState) : Decidable s.Terminal := inferInstanceAs (Decidable (_ ∨ _))

@[ext]
structure Core where
  state : OrderState
  original : Int
  remaining : Int
  filled : Int
  deriving DecidableEq, Repr

structure Record (D : Type) extends Core where
  orderRef : Int := 0
  pendingCancel : Bool := false
  fillNotional : D
  side : Option Side := none
  price : D

structure Counts where
  fills : Nat := 0
  cancels : Nat := 0
  rejects : Nat := 0
  execShares : Int := 0
  brokenShares : Int := 0
  cancelledShares : Int := 0
  deriving DecidableEq, Repr

structure OUCHOrderTracker (D : Type) extends Counts where
  orders : Table (List UInt8) (Record D) := ∅
  live : Nat := 0
  broken : Nat := 0
  orderedShares : Int := 0
  execCount : Nat := 0
  maxExecShares : Int := 0
  minExecShares : Int := 0
  lastRejectReason : UInt8 := 0
  responses : Nat := 0
  cancelRejects : Nat := 0
  replaced : Nat := 0
  desyncs : Nat := 0
  sessionFillNotional : D
  boughtShares : Int := 0
  soldShares : Int := 0
  buyNotional : D
  sellNotional : D

namespace OUCHOrderTracker

variable {D : Type} (F : Doubles D) (t : OUCHOrderTracker D)

def init : OUCHOrderTracker D := { sessionFillNotional := F.ofInt 0, buyNotional := F.ofInt 0, sellNotional := F.ofInt 0 }

/-- The price of a response as a `double`. -/
def priceOf (wire : Nat) : D := F.div (F.ofInt wire) (F.ofInt 10000)

def store (token : List UInt8) (o : Record D) : OUCHOrderTracker D := { t with orders := t.orders.insert token o }

def onNew (token : List UInt8) (shares : Int) : OUCHOrderTracker D :=
  { t.store token
      { state := .new, original := shares, remaining := shares, filled := 0, fillNotional := F.ofInt 0, price := F.ofInt 0 } with
    orderedShares := t.orderedShares + shares }

def onCancelSent (token : List UInt8) : OUCHOrderTracker D :=
  match t.orders.lookup token with
  | some o => if o.state = .live ∨ o.state = .partlyFilled then t.store token { o with pendingCancel := true } else t
  | none => t

/-- A response that names no order. -/
def desync : OUCHOrderTracker D := { t with rejects := t.rejects + 1, desyncs := t.desyncs + 1 }

def onReplaced (r : OUCHResponse) : OrderState × OUCHOrderTracker D :=
  match t.orders.lookup r.prevToken with
  | none => (.rejected, t.desync)
  | some o =>
    let moved :=
      { o with
        remaining := r.shares
        orderRef := r.orderRef
        pendingCancel := false
        price := priceOf F r.price
        state := if 0 < o.filled then .partlyFilled else .live }
    (moved.state, { t with orders := (t.orders.erase r.prevToken).insert r.token moved, replaced := t.replaced + 1 })

def onAccepted (o : Record D) (r : OUCHResponse) : OUCHOrderTracker D :=
  { t.store r.token { o with state := .live, orderRef := r.orderRef, side := r.side, price := priceOf F r.price } with
    live := t.live + 1 }

/-- The tracker after a fill of `exec > 0` shares at `notional`. -/
def priced (o : Record D) (exec : Int) (notional : D) : OUCHOrderTracker D :=
  let t :=
    { t with
      execShares := t.execShares + exec
      execCount := t.execCount + 1
      maxExecShares := if t.maxExecShares < exec then exec else t.maxExecShares
      minExecShares := if t.minExecShares = 0 ∨ exec < t.minExecShares then exec else t.minExecShares
      sessionFillNotional := F.add t.sessionFillNotional notional }
  match o.side with
  | some .buy => { t with boughtShares := t.boughtShares + exec, buyNotional := F.add t.buyNotional notional }
  | some .sell => { t with soldShares := t.soldShares + exec, sellNotional := F.add t.sellNotional notional }
  | none => t

def onExecuted (o : Record D) (r : OUCHResponse) : OUCHOrderTracker D :=
  if o.state.Terminal then t
  else
    let exec := if r.shares < o.remaining then r.shares else o.remaining
    let notional := F.mul (priceOf F r.price) (F.ofInt exec)
    let t := if 0 < exec then t.priced F o exec notional else t
    let o :=
      { o with
        filled := i32 (o.filled + exec)
        remaining := i32 (o.remaining - exec)
        fillNotional := if 0 < exec then F.add o.fillNotional notional else o.fillNotional }
    if o.remaining ≤ 0 then { t.store r.token { o with state := .filled } with fills := t.fills + 1 }
    else if 0 < exec then t.store r.token { o with state := .partlyFilled }
    else t.store r.token o

def onCancelled (o : Record D) (r : OUCHResponse) : OUCHOrderTracker D :=
  { t.store r.token { o with state := .cancelled, remaining := 0, pendingCancel := false } with
    cancelledShares := t.cancelledShares + o.remaining
    cancels := t.cancels + 1 }

/-- A total of one side without the share that `back` of its `shares` have in it. -/
def unwound (total : D) (back shares : Int) : D := F.sub total (F.mul total (F.div (F.ofInt back) (F.ofInt shares)))

/-- The realized flow of the order's side without `back` shares. -/
def unwind (side : Option Side) (back : Int) : OUCHOrderTracker D :=
  match side with
  | some .buy =>
    { t with
      buyNotional := if 0 < t.boughtShares then unwound F t.buyNotional back t.boughtShares else t.buyNotional
      boughtShares := t.boughtShares - back }
  | some .sell =>
    { t with
      sellNotional := if 0 < t.soldShares then unwound F t.sellNotional back t.soldShares else t.sellNotional
      soldShares := t.soldShares - back }
  | none => t

def onBroken (o : Record D) (r : OUCHResponse) : OUCHOrderTracker D :=
  let back := if r.shares < o.filled then r.shares else o.filled
  let t := t.unwind F o.side back
  let filled := i32 (o.filled - back)
  let o' :=
    { o with
      filled
      remaining := i32 (o.remaining + back)
      fillNotional := if 0 < back ∧ 0 < o.filled then unwound F o.fillNotional back o.filled else o.fillNotional
      state := if 0 < filled then .partlyFilled else .live }
  { t.store r.token o' with broken := t.broken + 1, brokenShares := t.brokenShares + back }

def onAiqCxl (o : Record D) (r : OUCHResponse) : OUCHOrderTracker D :=
  let dec := if r.shares < o.remaining then r.shares else o.remaining
  let o := { o with remaining := i32 (o.remaining - dec) }
  let t := { t with cancelledShares := t.cancelledShares + dec }
  if o.remaining = 0 then
    { t.store r.token { o with state := .cancelled, pendingCancel := false } with cancels := t.cancels + 1 }
  else t.store r.token o

def onRejected (o : Record D) (r : OUCHResponse) : OUCHOrderTracker D :=
  { t.store r.token { o with state := .rejected } with
    lastRejectReason := if r.reason = 0 then t.lastRejectReason else r.reason
    rejects := t.rejects + 1 }

/-- The report applied to the order it names. -/
def onReport (o : Record D) (r : OUCHResponse) : OUCHOrderTracker D :=
  match r.type with
  | .accepted => t.onAccepted F o r
  | .executed => t.onExecuted F o r
  | .cancelled => t.onCancelled o r
  | .broken => t.onBroken F o r
  | .cxlPend => t.store r.token { o with pendingCancel := true }
  | .cxlReject => { t.store r.token { o with pendingCancel := false } with cancelRejects := t.cancelRejects + 1 }
  | .restated => t.store r.token { o with remaining := r.shares, price := priceOf F r.price }
  | .aiqCxl => t.onAiqCxl o r
  | .rejected => t.onRejected o r
  | _ => { t.store r.token { o with state := .rejected } with rejects := t.rejects + 1 }

def state (token : List UInt8) : OrderState := (t.orders.lookup token).elim .rejected (·.state)

def onResponse (r : OUCHResponse) : OrderState × OUCHOrderTracker D :=
  let t := { t with responses := t.responses + 1 }
  if r.type = .replaced then t.onReplaced F r
  else
    match t.orders.lookup r.token with
    | none => (.rejected, t.desync)
    | some o => ((t.onReport F o r).state r.token, t.onReport F o r)

end OUCHOrderTracker

/-! ## One order -/

def Counts.add (c d : Counts) : Counts where
  fills := c.fills + d.fills
  cancels := c.cancels + d.cancels
  rejects := c.rejects + d.rejects
  execShares := c.execShares + d.execShares
  brokenShares := c.brokenShares + d.brokenShares
  cancelledShares := c.cancelledShares + d.cancelledShares

/-- What a report makes of an order, and what it adds to the totals. A replace is not applied in place. -/
def Core.react (c : Core) (shares : Int) : ResponseType → Core × Counts
  | .accepted => ({ c with state := .live }, {})
  | .executed =>
    if c.state.Terminal then (c, {})
    else
      let exec := if shares < c.remaining then shares else c.remaining
      let filled := i32 (c.filled + exec)
      let remaining := i32 (c.remaining - exec)
      ({ c with
          filled
          remaining
          state := if remaining ≤ 0 then .filled else if 0 < exec then .partlyFilled else c.state },
        { fills := if remaining ≤ 0 then 1 else 0, execShares := if 0 < exec then exec else 0 })
  | .cancelled => ({ c with state := .cancelled, remaining := 0 }, { cancels := 1, cancelledShares := c.remaining })
  | .broken =>
    let back := if shares < c.filled then shares else c.filled
    let filled := i32 (c.filled - back)
    ({ c with filled, remaining := i32 (c.remaining + back), state := if 0 < filled then .partlyFilled else .live },
      { brokenShares := back })
  | .restated => ({ c with remaining := shares }, {})
  | .aiqCxl =>
    let dec := if shares < c.remaining then shares else c.remaining
    let remaining := i32 (c.remaining - dec)
    ({ c with remaining, state := if remaining = 0 then .cancelled else c.state },
      { cancels := if remaining = 0 then 1 else 0, cancelledShares := dec })
  | .cxlPend | .cxlReject | .replaced => (c, {})
  | .rejected | .error | .unknown | .sysEvent => ({ c with state := .rejected }, { rejects := 1 })

namespace OUCHOrderTracker

variable {D : Type} {F : Doubles D} {t t' : OUCHOrderTracker D} {o : Record D} {r : OUCHResponse}

/-- Only the record of `token` may differ, and it is `o`. -/
def Holds (t t' : OUCHOrderTracker D) (token : List UInt8) (o : Record D) : Prop :=
  t'.orders = t.orders.insert token o ∨ t'.orders = t.orders ∧ t.orders.lookup token = some o

theorem Holds.lookup {token : List UInt8} (h : Holds t t' token o) (k : List UInt8) :
    t'.orders.lookup k = if k = token then some o else t.orders.lookup k := by
  rcases h with h | ⟨h, ho⟩
  · rw [h]
    split
    · rename_i e
      rw [e, AList.lookup_insert]
    · rename_i e
      rw [AList.lookup_insert_ne e]
  · rw [h]
    split
    · rename_i e
      rw [e, ho]
    · rfl

@[simp] theorem priced_orders (exec : Int) (notional : D) : (t.priced F o exec notional).orders = t.orders := by
  unfold priced
  dsimp only
  split <;> rfl

@[simp] theorem priced_counts (exec : Int) (notional : D) :
    (t.priced F o exec notional).toCounts = t.toCounts.add { execShares := exec } := by
  unfold priced
  dsimp only
  split <;> simp [Counts.add]

@[simp] theorem unwind_orders (side : Option Side) (back : Int) : (t.unwind F side back).orders = t.orders := by
  unfold unwind
  split <;> rfl

@[simp] theorem unwind_counts (side : Option Side) (back : Int) : (t.unwind F side back).toCounts = t.toCounts := by
  unfold unwind
  split <;> rfl

/-- `t'` is `t` after the order of the response became `res.1` and the totals grew by `res.2`. -/
def Reacts (t t' : OUCHOrderTracker D) (token : List UInt8) (res : Core × Counts) : Prop :=
  ∃ o' : Record D, Holds t t' token o' ∧ o'.toCore = res.1 ∧ t'.toCounts = t.toCounts.add res.2

theorem onExecuted_reacts (ho : t.orders.lookup r.token = some o) :
    Reacts t (t.onExecuted F o r) r.token (o.toCore.react r.shares .executed) := by
  unfold onExecuted Core.react
  by_cases hterm : o.state.Terminal
  · rw [if_pos hterm]
    rw [if_pos hterm]
    exact ⟨o, .inr ⟨rfl, ho⟩, rfl, by simp [Counts.add]⟩
  · rw [if_neg hterm]
    dsimp only
    rw [if_neg hterm]
    generalize (if r.shares < o.remaining then r.shares else o.remaining) = exec
    generalize F.mul (priceOf F r.price) (F.ofInt exec) = notional
    by_cases hexec : 0 < exec
    · simp only [if_pos hexec]
      have horders := priced_orders (F := F) (t := t) (o := o) exec notional
      have hcounts := priced_counts (F := F) (t := t) (o := o) exec notional
      generalize t.priced F o exec notional = t1 at horders hcounts
      by_cases hrem : i32 (o.remaining - exec) ≤ 0
      · simp only [if_pos hrem]
        exact ⟨_, .inl (by rw [← horders]; rfl), rfl, by simp [store, hcounts, Counts.add]⟩
      · simp only [if_neg hrem]
        exact ⟨_, .inl (by rw [← horders]; rfl), rfl, by simp [store, hcounts, Counts.add]⟩
    · simp only [if_neg hexec]
      by_cases hrem : i32 (o.remaining - exec) ≤ 0
      · simp only [if_pos hrem]
        exact ⟨_, .inl rfl, rfl, by simp [store, Counts.add]⟩
      · simp only [if_neg hrem]
        exact ⟨_, .inl rfl, rfl, by simp [store, Counts.add]⟩

theorem onBroken_reacts : Reacts t (t.onBroken F o r) r.token (o.toCore.react r.shares .broken) := by
  unfold onBroken Core.react
  dsimp only
  generalize (if r.shares < o.filled then r.shares else o.filled) = back
  have horders := unwind_orders (F := F) (t := t) o.side back
  have hcounts := unwind_counts (F := F) (t := t) o.side back
  generalize t.unwind F o.side back = t1 at horders hcounts
  exact ⟨_, .inl (by rw [← horders]; rfl), rfl, by simp [store, hcounts, Counts.add]⟩

theorem onAiqCxl_reacts : Reacts t (t.onAiqCxl o r) r.token (o.toCore.react r.shares .aiqCxl) := by
  unfold onAiqCxl Core.react
  generalize (if r.shares < o.remaining then r.shares else o.remaining) = dec
  by_cases hrem : i32 (o.remaining - dec) = 0
  · simp only [if_pos hrem]
    exact ⟨_, .inl rfl, rfl, by simp [store, Counts.add]⟩
  · simp only [if_neg hrem]
    exact ⟨_, .inl rfl, rfl, by simp [store, Counts.add]⟩

/-- The tracker does to the order it names what `react` does. -/
theorem onReport_reacts (hr : r.type ≠ .replaced) (ho : t.orders.lookup r.token = some o) :
    Reacts t (t.onReport F o r) r.token (o.toCore.react r.shares r.type) := by
  unfold onReport
  cases ht : r.type with
  | replaced => exact absurd ht hr
  | executed => exact onExecuted_reacts ho
  | broken => exact onBroken_reacts
  | aiqCxl => exact onAiqCxl_reacts
  | _ => exact ⟨_, .inl rfl, rfl, by simp [store, onAccepted, onCancelled, onRejected, Counts.add, Core.react]⟩

/-- A response is a desync, a replacement or a report on the order it names. -/
theorem onResponse_cases (t : OUCHOrderTracker D) (r : OUCHResponse) :
    (t.orders.lookup (if r.type = .replaced then r.prevToken else r.token) = none ∧
      (t.onResponse F r).2.orders = t.orders ∧ (t.onResponse F r).2.toCounts = t.toCounts.add { rejects := 1 }) ∨
    (r.type = .replaced ∧ ∃ o, t.orders.lookup r.prevToken = some o ∧ ∃ o' : Record D,
      o'.toCore = { o.toCore with remaining := r.shares, state := if 0 < o.filled then .partlyFilled else .live } ∧
      (t.onResponse F r).2.orders = (t.orders.erase r.prevToken).insert r.token o' ∧
      (t.onResponse F r).2.toCounts = t.toCounts) ∨
    (r.type ≠ .replaced ∧ ∃ o, t.orders.lookup r.token = some o ∧
      Reacts t (t.onResponse F r).2 r.token (o.toCore.react r.shares r.type)) := by
  unfold onResponse
  by_cases hr : r.type = .replaced
  · simp only [if_pos hr]
    unfold onReplaced
    cases ho : t.orders.lookup r.prevToken with
    | none => exact .inl ⟨by rwa [if_pos hr], rfl, by simp [desync, Counts.add]⟩
    | some o => exact .inr (.inl ⟨hr, o, rfl, _, rfl, rfl, rfl⟩)
  · simp only [if_neg hr]
    cases ho : t.orders.lookup r.token with
    | none => exact .inl ⟨by rwa [if_neg hr], rfl, by simp [desync, Counts.add]⟩
    | some o =>
      have hreacts := onReport_reacts (F := F) (t := { t with responses := t.responses + 1 }) hr ho
      exact .inr (.inr ⟨hr, o, rfl, hreacts⟩)

end OUCHOrderTracker

end HftLab.Ouch
