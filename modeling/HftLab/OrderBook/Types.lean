/-
  HftLab.OrderBook.Types — the data model of `FullOrderBook` (orderbook_pro_types.hpp and the
  records nested in the class).

  A pool pointer is the number of its slot, `none` for a null pointer; prices and quantities are
  `Int` (32-bit in the source, wrapped with `i32` wherever a computation can leave the range);
  ids, timestamps and counters are `Nat`. Fields that only statistics read are left out.
-/

import HftLab.Lib.Int32
import Mathlib.Data.List.AList

namespace HftLab.OrderBook

open Lib

inductive Side where
  | buy
  | sell
  deriving DecidableEq, Repr

inductive OrderType where
  | limit
  | ioc
  | fok
  | postOnly
  | iceberg
  | stop
  | peg
  | market
  | hidden
  | aon
  deriving DecidableEq, Repr

inductive TimeInForce where
  | day
  | gtc
  | ioc
  | fok
  | gtd
  | gtx
  deriving DecidableEq, Repr

inductive SelfTradePrevention where
  | none
  | cancelNewest
  | cancelOldest
  | cancelBoth
  | decrementAndCxl
  deriving DecidableEq, Repr

inductive OrderStatus where
  | new
  | open
  | partiallyFilled
  | filled
  | cancelled
  | rejected
  | expired
  | replaced
  deriving DecidableEq, Repr

inductive EventType where
  | accept
  | reject
  | fill
  | cancel
  | expire
  | replace
  | bookUpdate
  deriving DecidableEq, Repr

inductive RejectReason where
  | none
  | priceOutOfRange
  | qtyZeroOrNegative
  | poolExhausted
  | postOnlyWouldCross
  | fokNotFillable
  | selfTradeBlocked
  | duplicateId
  | lockedMarket
  | crossedMarket
  | halted
  | minQtyNotMet
  | luldBandBreach
  | ssrRestricted
  | reduceOnlyNoPosition
  | rateLimited
  | marketClosed
  | mmpTripped
  deriving DecidableEq, Repr

inductive SessionPhase where
  | preOpen
  | continuous
  | closing
  | closed
  deriving DecidableEq, Repr

def NO_BID_TICKS : Int := -1

def NO_ASK_TICKS : Int := int32Max

/-- A pool slot. The defaults are `Order::reset`. -/
structure Order where
  id : Nat := 0
  clientId : Nat := 0
  priceTicks : Int := 0
  totalQty : Int := 0
  filledQty : Int := 0
  displayedQty : Int := 0
  side : Side := .buy
  type : OrderType := .limit
  tif : TimeInForce := .day
  status : OrderStatus := .new
  submitTsNs : Nat := 0
  expireTsNs : Nat := 0
  stopTriggerTicks : Int := 0
  pegOffsetTicks : Int := 0
  pegCapTicks : Int := 0
  icebergDisplaySize : Int := 0
  nextAtLevel : Option Nat := none
  prevAtLevel : Option Nat := none
  nextFree : Option Nat := none
  deriving DecidableEq, Repr

def Order.remainingQty (o : Order) : Int := o.totalQty - o.filledQty

/-- The part of the remaining quantity that is not displayed. -/
def Order.hiddenQty (o : Order) : Int := o.totalQty - o.filledQty - o.displayedQty

def Order.isActive (o : Order) : Bool := o.status = .open || o.status = .partiallyFilled

/-- A STOP waiting for its trigger: `type == STOP && status == NEW`. -/
def Order.isPendingStop (o : Order) : Bool := o.type = .stop && o.status = .new

structure PriceLevel where
  head : Option Nat := none
  tail : Option Nat := none
  totalQty : Int := 0
  totalHidden : Int := 0
  orderCount : Int := 0
  deriving DecidableEq, Repr

def PriceLevel.empty (l : PriceLevel) : Bool := l.head.isNone

/-- `if (order_count > 0) --order_count`. -/
def PriceLevel.uncount (l : PriceLevel) : PriceLevel :=
  { l with orderCount := if 0 < l.orderCount then l.orderCount - 1 else l.orderCount }

structure Trade where
  execId : Nat
  makerOrderId : Nat
  takerOrderId : Nat
  priceTicks : Int
  qty : Int
  takerSide : Side
  tsNs : Nat
  deriving DecidableEq, Repr

structure BookEvent where
  type : EventType
  orderId : Nat
  makerId : Nat
  priceTicks : Int
  qty : Int
  resultingStatus : OrderStatus
  rejectReason : RejectReason
  seqNum : Nat
  clientId : Nat
  deriving DecidableEq, Repr

/-- `'A'`, `'D'` and `'M'` of the L2 delta protocol. -/
inductive DeltaType where
  | add
  | delete
  | modify
  deriving DecidableEq, Repr

structure DeltaMessage where
  type : DeltaType
  side : Side
  priceTicks : Int
  newQty : Int
  sequenceNo : Nat
  deriving DecidableEq, Repr

structure AccountExposure where
  openBuyQty : Int := 0
  openSellQty : Int := 0
  filledNetQty : Int := 0
  filledGrossVolume : Int := 0
  ordersSubmitted : Nat := 0
  ordersCancelled : Nat := 0
  fillsReceived : Nat := 0
  aggressiveVolume : Int := 0
  passiveVolume : Int := 0
  deriving DecidableEq, Repr

structure BracketSpec where
  exitSide : Side
  tpPriceTicks : Int
  slTriggerTicks : Int
  qty : Int
  clientId : Nat
  deriving DecidableEq, Repr

structure MmpConfig where
  windowNs : Nat
  maxFills : Nat
  fillsInWindow : Nat
  windowStartNs : Nat
  tripped : Bool
  deriving DecidableEq, Repr

/-- The numbers that the `double`s of a bucket stand for. -/
structure RateBucket where
  tokens : Rat
  capacity : Rat
  refillPerSec : Rat
  lastRefillNs : Nat
  deriving DecidableEq

structure MocOrder where
  side : Side
  qty : Int
  clientId : Nat
  id : Nat
  deriving DecidableEq, Repr

structure LocOrder where
  side : Side
  priceTicks : Int
  qty : Int
  clientId : Nat
  id : Nat
  deriving DecidableEq, Repr

structure Quote where
  side : Side
  priceTicks : Int
  qty : Int
  deriving DecidableEq, Repr

/-- The arguments of `submit`, with their defaults. -/
structure Request where
  side : Side
  priceTicks : Int
  qty : Int
  type : OrderType := .limit
  tif : TimeInForce := .day
  orderId : Nat := 0
  clientId : Nat := 0
  displayedQty : Int := 0
  minQty : Int := 0
  deriving DecidableEq, Repr

/-- What an iceberg request shows, 0 if it is not one: clamped to the quantity. -/
def Request.iceShow (r : Request) : Int :=
  if r.type = .iceberg ∧ 0 < r.displayedQty then min r.displayedQty r.qty else 0

def Request.shown (r : Request) : Int :=
  if r.type = .hidden then 0 else if 0 < r.iceShow then r.iceShow else r.qty

/-- The template arguments, and what the environment decides: the readings of the steady clock,
    one after another, and the order in which a traversal of `id_index_` meets its entries, which
    may be another one each time. -/
structure Env where
  LEVELS : Int
  MAX_ORDERS : Nat
  levels_pos : 0 < LEVELS
  levels_int32 : LEVELS ≤ int32Max
  max_orders_pos : 0 < MAX_ORDERS
  max_orders_int32 : (MAX_ORDERS : Int) ≤ int32Max
  clock : Nat → Nat
  clock_mono : ∀ m n, m ≤ n → clock m ≤ clock n
  iter : Nat → List ((_ : Nat) × Nat) → List ((_ : Nat) × Nat)
  iter_perm : ∀ n l, (iter n l).Perm l

def inRange (V : Env) (p : Int) : Prop := 0 ≤ p ∧ p < V.LEVELS

instance (V : Env) (p : Int) : Decidable (inRange V p) := inferInstanceAs (Decidable (_ ∧ _))

theorem mem_prices (V : Env) (p : Int) :
    p ∈ ((List.range V.LEVELS.toNat).map fun (k : Nat) => (k : Int)) ↔ inRange V p := by
  rw [List.mem_map]
  constructor
  · rintro ⟨k, hk, rfl⟩
    have := List.mem_range.mp hk
    exact ⟨by omega, by omega⟩
  · rintro ⟨h1, h2⟩
    exact ⟨p.toNat, List.mem_range.mpr (by omega), by omega⟩

end HftLab.OrderBook
