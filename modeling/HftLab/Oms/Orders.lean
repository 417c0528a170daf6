/-
  HftLab.Oms.Orders — the order management system (oms.hpp): its orders, its positions by symbol
  and the eight operations that move them.

  A price is the fixed-point value `to_fixed` makes of the caller's `double`, `none` for NaN; a
  symbol is the bytes of the C string. `net_qty`, `pending_qty` and the projections of the pre-trade
  checks are 32-bit values and wrap. Time stamps, counters and notionals that no operation reads are
  left out, and so are the printed warnings.
-/

import HftLab.Lib.Int32
import Mathlib.Algebra.Order.Group.Unbundled.Int

namespace HftLab.Oms

open Lib

inductive Side where
  | buy
  | sell
  deriving DecidableEq, Repr

inductive OrderStatus where
  | new
  | sent
  | filled
  | partial_
  | cancelled
  | rejected
  deriving DecidableEq, Repr

inductive OMSReject where
  | none
  | invalidInput
  | orderValue
  | positionLimit
  deriving DecidableEq, Repr

def PRICE_SCALE : Int := 10000

/-! ## Symbols -/

/-- `strncpy(symbol, sym, 8)` into a `char[9]` that ends with a NUL. -/
def copySymbol (sym : List UInt8) : List UInt8 := (sym.takeWhile (· ≠ 0)).take 8

/-- The first eight bytes, up to a NUL, packed low byte first. -/
def symToKey (sym : List UInt8) : Nat :=
  ((sym.take 8).takeWhile (· ≠ 0)).foldr (fun c key => c.toNat + 256 * key) 0

/-! ## State -/

structure Order where
  symbol : List UInt8
  side : Side
  price : Int
  quantity : Nat
  filledQty : Nat := 0
  status : OrderStatus := .new
  expireNs : Int := 0
  deriving DecidableEq, Repr

/-- `status == SENT || status == PARTIAL`. -/
def Order.isActive (o : Order) : Bool := o.status = .sent || o.status = .partial_

/-- The order after `x` more of it was executed. -/
def Order.fill (o : Order) (x : Nat) : Order :=
  { o with filledQty := o.filledQty + x, status := if o.quantity ≤ o.filledQty + x then .filled else .partial_ }

/-- The order at a new price and quantity. -/
def Order.replace (o : Order) (newPrice : Int) (newQuantity : Nat) : Order :=
  { o with
    price := newPrice
    quantity := newQuantity
    status := if newQuantity ≤ o.filledQty then .filled else if 0 < o.filledQty then .partial_ else .sent }

structure Position where
  symbol : List UInt8
  netQty : Int := 0
  pendingQty : Int := 0
  avgPrice : Int := 0
  realizedPnl : Int := 0
  totalCost : Int := 0
  fees : Int := 0
  deriving DecidableEq, Repr

/-- The constructor's arguments, and what the environment decides: `to_fixed(to_float(price))`, and
    the order in which a traversal of `orders_` meets its ids. -/
structure Config where
  maxPosition : Int
  maxPosition_int32 : IsInt32 maxPosition
  maxOrderValue : Int
  commissionFp : Int
  refix : Int → Int
  iter : List Nat → List Nat
  iter_perm : ∀ l, (iter l).Perm l

structure OMS where
  orders : Nat → Option Order := fun _ => none
  positions : Nat → Option Position := fun _ => none
  nextId : Nat := 1
  lastReject : OMSReject := .none
  totalFees : Int := 0

def fresh : OMS := {}

def OMS.netQty (s : OMS) (k : Nat) : Int := ((s.positions k).map (·.netQty)).getD 0

def OMS.pendingQty (s : OMS) (k : Nat) : Int := ((s.positions k).map (·.pendingQty)).getD 0

def OMS.setOrder (s : OMS) (id : Nat) (o : Order) : OMS := { s with orders := Function.update s.orders id (some o) }

def OMS.setPosition (s : OMS) (k : Nat) (p : Position) : OMS :=
  { s with positions := Function.update s.positions k (some p) }

/-! ## Arithmetic -/

/-- BUY is positive, SELL negative. -/
def signedQty (side : Side) (qty : Int) : Int :=
  match side with
  | .buy => i32 qty
  | .sell => i32 (-i32 qty)

/-- `std::abs` on 32 bits. -/
def abs32 (x : Int) : Int := i32 |x|

def orderValue (price : Int) (quantity : Nat) : Int := i64 (price.tdiv PRICE_SCALE * quantity)

/-- One accounting model for long, short and flip: the average entry price of the leg, and profit
    realized on the part that is closed. -/
def applyFillToPosition (pos : Position) (signedFill fillQty fillPrice : Int) : Position :=
  let oldNet := pos.netQty
  let newNet := i32 (oldNet + signedFill)
  let pos :=
    if oldNet = 0 ∨ (0 < oldNet ↔ 0 < signedFill) then
      let totAbs := |oldNet| + fillQty
      { pos with avgPrice := (i64 (pos.avgPrice * |oldNet| + fillPrice * fillQty + totAbs.tdiv 2)).tdiv totAbs
                 netQty := newNet }
    else
      let closeQty := min |oldNet| fillQty
      let gain := if 0 < oldNet then fillPrice - pos.avgPrice else pos.avgPrice - fillPrice
      { pos with
        realizedPnl := i64 (pos.realizedPnl + closeQty * gain)
        netQty := newNet
        avgPrice := if newNet = 0 then 0 else if (0 < oldNet ↔ 0 < newNet) then pos.avgPrice else fillPrice }
  { pos with totalCost := i64 (pos.avgPrice * |pos.netQty|) }

/-! ## Operations -/

namespace OMS

variable (c : Config) (s : OMS)

/-- The input validation and the two pre-trade checks of `submit_order`: value, then realized + pending + new. -/
def submitReject (symbol : List UInt8) (side : Side) (price : Option Int) (quantity : Nat) : OMSReject :=
  match price with
  | none => .invalidInput
  | some price =>
    if price ≤ 0 ∨ quantity = 0 ∨ copySymbol symbol = [] then .invalidInput
    else if c.maxOrderValue < orderValue price quantity then .orderValue
    else
      let key := symToKey symbol
      if c.maxPosition < abs32 (i32 (s.netQty key + s.pendingQty key + signedQty side quantity)) then .positionLimit
      else .none

def submitOrder (symbol : List UInt8) (side : Side) (price : Option Int) (quantity : Nat) (expireNs : Int) :
    Option Nat × OMS :=
  match s.submitReject c symbol side price quantity, price with
  | .none, some price =>
    let key := symToKey symbol
    let id := s.nextId
    let o : Order := { symbol := copySymbol symbol, side, price, quantity, status := .sent, expireNs }
    let pos := (s.positions key).getD { symbol := copySymbol symbol }
    let s := { s with lastReject := .none, nextId := id + 1 }
    (some id, (s.setOrder id o).setPosition key { pos with pendingQty := i32 (pos.pendingQty + signedQty side quantity) })
  | r, _ => (none, { s with lastReject := r })

/-- Returns the quantity applied: 0 for an order that does not work, less than asked on an over-fill. -/
def fillOrder (orderId fillQty : Nat) (fillPrice : Int) : Nat × OMS :=
  if fillQty = 0 then (0, s)
  else match s.orders orderId with
    | none => (0, s)
    | some o =>
      if !o.isActive then (0, s)
      else
        let fillQty := min fillQty (o.quantity - o.filledQty)
        if fillQty = 0 then (0, s)
        else
          let s := s.setOrder orderId (o.fill fillQty)
          let key := symToKey o.symbol
          let pos := (s.positions key).getD { symbol := copySymbol o.symbol }
          let signedFill := signedQty o.side fillQty
          let pos := { pos with pendingQty := i32 (pos.pendingQty - signedFill) }
          let pos := applyFillToPosition pos signedFill fillQty fillPrice
          let fee := i64 (fillQty * c.commissionFp)
          let pos := { pos with fees := i64 (pos.fees + fee) }
          (fillQty, { s with totalFees := i64 (s.totalFees + fee) }.setPosition key pos)

/-- Move the pending quantity of `key` by `d`, if the symbol has a position. -/
def shiftPending (key : Nat) (d : Int) : OMS :=
  match s.positions key with
  | none => s
  | some pos => s.setPosition key { pos with pendingQty := i32 (pos.pendingQty + d) }

def cancelOrder (orderId : Nat) : OMS :=
  match s.orders orderId with
  | none => s
  | some o =>
    if !o.isActive then s
    else
      let remaining := i32 (i32 o.quantity - i32 o.filledQty)
      (s.shiftPending (symToKey o.symbol) (-signedQty o.side remaining)).setOrder orderId { o with status := .cancelled }

/-- The pre-trade checks of `replace_order`, on the exposure that is left after it. -/
def replaceAllowed (o : Order) (newPrice : Int) (newQuantity : Nat) : Bool :=
  0 < newPrice && newQuantity ≠ 0 && o.filledQty ≤ newQuantity &&
  orderValue newPrice newQuantity ≤ c.maxOrderValue &&
    let key := symToKey o.symbol
    let oldPend := signedQty o.side (i32 (i32 o.quantity - i32 o.filledQty))
    let newPend := signedQty o.side (i32 (i32 newQuantity - i32 o.filledQty))
    abs32 (i32 (s.netQty key + (s.pendingQty key - oldPend + newPend))) ≤ c.maxPosition

def replaceOrder (orderId : Nat) (newPrice : Option Int) (newQuantity : Nat) : Bool × OMS :=
  match s.orders orderId, newPrice with
  | some o, some newPrice =>
    if o.isActive && s.replaceAllowed c o newPrice newQuantity then
      let oldPend := signedQty o.side (i32 (i32 o.quantity - i32 o.filledQty))
      let newPend := signedQty o.side (i32 (i32 newQuantity - i32 o.filledQty))
      (true, (s.shiftPending (symToKey o.symbol) (newPend - oldPend)).setOrder orderId (o.replace newPrice newQuantity))
    else (false, s)
  | _, _ => (false, s)

/-- Lower the quantity at the same price. -/
def amendQuantity (orderId newQuantity : Nat) : Bool × OMS :=
  match s.orders orderId with
  | none => (false, s)
  | some o =>
    if !o.isActive then (false, s)
    else if o.quantity ≤ newQuantity then (false, s)
    else if newQuantity < o.filledQty then (false, s)
    else s.replaceOrder c orderId (some (c.refix o.price)) newQuantity

/-- The loop of the mass cancels: every working order that `which` accepts. -/
def cancelWhere (which : Order → Bool) : Nat × OMS :=
  let ids := (List.range s.nextId).filter fun id => (s.orders id).isSome
  (c.iter ids).foldl (fun (n, s) id =>
    if (s.orders id).any fun o => o.isActive && which o then (n + 1, s.cancelOrder id) else (n, s)) (0, s)

def cancelAll : Nat × OMS := s.cancelWhere c fun _ => true

def cancelAllSymbol (symbol : List UInt8) : Nat × OMS := s.cancelWhere c fun o => symToKey o.symbol = symToKey symbol

def purgeExpired (nowNs : Int) : Nat × OMS := s.cancelWhere c fun o => 0 < o.expireNs && o.expireNs ≤ nowNs

end OMS

/-! ## Runs -/

inductive Op where
  | submitOrder (symbol : List UInt8) (side : Side) (price : Option Int) (quantity : Nat) (expireNs : Int)
  | fillOrder (orderId fillQty : Nat) (fillPrice : Int)
  | cancelOrder (orderId : Nat)
  | replaceOrder (orderId : Nat) (newPrice : Option Int) (newQuantity : Nat)
  | amendQuantity (orderId newQuantity : Nat)
  | cancelAll
  | cancelAllSymbol (symbol : List UInt8)
  | purgeExpired (nowNs : Int)
  deriving DecidableEq, Repr

def OMS.exec (c : Config) (s : OMS) : Op → OMS
  | .submitOrder symbol side price quantity expireNs => (s.submitOrder c symbol side price quantity expireNs).2
  | .fillOrder orderId fillQty fillPrice => (s.fillOrder c orderId fillQty fillPrice).2
  | .cancelOrder orderId => s.cancelOrder orderId
  | .replaceOrder orderId newPrice newQuantity => (s.replaceOrder c orderId newPrice newQuantity).2
  | .amendQuantity orderId newQuantity => (s.amendQuantity c orderId newQuantity).2
  | .cancelAll => (s.cancelAll c).2
  | .cancelAllSymbol symbol => (s.cancelAllSymbol c symbol).2
  | .purgeExpired nowNs => (s.purgeExpired c nowNs).2

/-- What a fresh OMS can become by operations that meet `P`. -/
inductive Reach (c : Config) (P : OMS → Op → Prop) : OMS → Prop
  | init : Reach c P fresh
  | step {s : OMS} (op : Op) : Reach c P s → P s op → Reach c P (s.exec c op)

end HftLab.Oms
