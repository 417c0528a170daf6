/-
  HftLab.Simulator.Generator — `MarketDataGenerator` (market_sim.hpp): random ITCH messages, and the table of the orders they
  left active.

  The random source is any stream of numbers (`Rng`); the `double` arithmetic on prices is replaced by the price it ends with,
  any number of 1/10000. A message is a `Layout`: its fields at their offsets of the zeroed buffer, and its length.
-/

import HftLab.Lib.Int32
import HftLab.Lib.Layout

namespace HftLab.Simulator

open Lib

/-- The numbers drawn one after another, and the price made of each. -/
structure Rng where
  next : Nat → Nat
  price : Nat → Int

structure StockInfo where
  symbol : List UInt8
  fits : symbol.length ≤ 8

def SHARE_SIZES : List Int := [10, 25, 50, 100, 200, 500]

def NUM_SHARE_SIZES : Nat := 6

def MAX_ACTIVE_ORDERS : Nat := 8192

def MAX_MSG_SIZE : Nat := 64

structure ActiveOrder where
  orderRef : Int := 0
  stock : List UInt8 := []
  side : Char := 'B'
  price : Int := 0
  shares : Int := 0
  active : Bool := false

/-- The low `n` bytes of `val`, written from the last one on. -/
def packBe : Nat → Int → List UInt8
  | 0, _ => []
  | n + 1, val => packBe n (val / 256) ++ [UInt8.ofNat (val % 256).toNat]

def packBe64 (val : Int) : List UInt8 := packBe 8 val

def packBe32 (val : Int) : List UInt8 := packBe 4 val

abbrev GeneratedMessage := Layout UInt8

/-- The bytes of the message. -/
def bytesOf (m : GeneratedMessage) : List UInt8 := m.message (List.replicate MAX_MSG_SIZE 0)

structure MarketDataGenerator where
  /-- How many numbers were drawn. -/
  drawn : Nat := 0
  seq : Int := 0
  orderRef : Int := 1000
  activeOrders : Nat → ActiveOrder := fun _ => {}
  activeCount : Nat := 0

/-! ## Frames -/

def stockField (symbol : List UInt8) : List UInt8 := pad 32 8 (cString symbol)

def addFrame (ts orderRef : Int) (side : Char) (shares : Int) (symbol : List UInt8) (price : Int) : GeneratedMessage where
  fields :=
    [(0, ['A'.toUInt8]), (1, packBe64 ts), (9, packBe64 orderRef), (17, [side.toUInt8]), (18, packBe32 shares),
      (22, stockField symbol), (30, packBe32 price)]
  length := 34

def executeFrame (ts orderRef execShares matchNum : Int) : GeneratedMessage where
  fields :=
    [(0, ['E'.toUInt8]), (1, packBe64 ts), (9, packBe64 orderRef), (17, packBe32 execShares), (21, packBe64 matchNum)]
  length := 29

def cancelFrame (ts orderRef cancelled : Int) : GeneratedMessage where
  fields := [(0, ['C'.toUInt8]), (1, packBe64 ts), (9, packBe64 orderRef), (17, packBe32 cancelled)]
  length := 21

def tradeFrame (ts : Int) (side : Char) (shares : Int) (symbol : List UInt8) (price matchNum : Int) : GeneratedMessage where
  fields :=
    [(0, ['P'.toUInt8]), (1, packBe64 ts), (9, packBe64 0), (17, [side.toUInt8]), (18, packBe32 shares),
      (22, stockField symbol), (30, packBe32 price), (34, packBe64 matchNum)]
  length := 42

def systemEventFrame (ts : Int) (eventCode : UInt8) : GeneratedMessage where
  fields := [(0, ['S'.toUInt8]), (1, packBe64 ts), (9, [eventCode])]
  length := 10

/-! ## The generator -/

namespace MarketDataGenerator

variable (rng : Rng) (stocks : List StockInfo) (g : MarketDataGenerator)

def randInt (n : Nat) : Nat × MarketDataGenerator := (rng.next g.drawn % n, { g with drawn := g.drawn + 1 })

def randPrice : Int × MarketDataGenerator := (rng.price g.drawn, { g with drawn := g.drawn + 1 })

def nextTs : Int × MarketDataGenerator := (34200000000000 + (g.seq + 1) * 1000000, { g with seq := g.seq + 1 })

/-- The first free slot among the `n` from `i` on. -/
def freeSlot (orders : Nat → ActiveOrder) : Nat → Nat → Option Nat
  | 0, _ => none
  | n + 1, i => if (orders i).active then freeSlot orders n (i + 1) else some i

/-- The first `left` active slots among the `n` from `i` on. -/
def activeSlots (orders : Nat → ActiveOrder) : Nat → Nat → Nat → List Nat
  | 0, _, _ => []
  | n + 1, i, left =>
    if left = 0 then []
    else if (orders i).active then i :: activeSlots orders n (i + 1) (left - 1)
    else activeSlots orders n (i + 1) left

def randomActiveOrder : Option Nat × MarketDataGenerator :=
  if g.activeCount = 0 then (none, g)
  else
    let indices := activeSlots g.activeOrders MAX_ACTIVE_ORDERS 0 g.activeCount
    if indices.length = 0 then (none, g)
    else
      let (k, g) := g.randInt rng indices.length
      (some (indices.getD k 0), g)

/-- The new order goes to the first free slot of the table, if there is one. -/
def record (o : ActiveOrder) : MarketDataGenerator :=
  match freeSlot g.activeOrders MAX_ACTIVE_ORDERS 0 with
  | none => g
  | some i => { g with activeOrders := Function.update g.activeOrders i o, activeCount := g.activeCount + 1 }

def generateAddOrder : GeneratedMessage × MarketDataGenerator :=
  let (k, g) := g.randInt rng stocks.length
  let symbol := (stocks[k]?.map StockInfo.symbol).getD []
  let (price, g) := g.randPrice rng
  let (flip, g) := g.randInt rng 2
  let side := if flip = 0 then 'B' else 'S'
  let (size, g) := g.randInt rng NUM_SHARE_SIZES
  let shares := SHARE_SIZES.getD size 0
  let g := { g with orderRef := g.orderRef + 1 }
  let g := g.record { orderRef := g.orderRef, stock := symbol.take 8, side, price, shares, active := true }
  let (ts, g) := g.nextTs
  (addFrame ts g.orderRef side shares symbol price, g)

def generateExecute : GeneratedMessage × MarketDataGenerator :=
  match g.randomActiveOrder rng with
  | (none, g) => g.generateAddOrder rng stocks
  | (some idx, g) =>
    let order := g.activeOrders idx
    let (size, g) := g.randInt rng 3
    let execShares := min order.shares (SHARE_SIZES.getD size 0)
    let (k, g) := g.randInt rng 90000
    let matchNum := (k : Int) + 10000
    let left := order.shares - execShares
    let g := { g with
      activeOrders := Function.update g.activeOrders idx { order with shares := left, active := if left ≤ 0 then false else order.active }
      activeCount := if left ≤ 0 then g.activeCount - 1 else g.activeCount }
    let (ts, g) := g.nextTs
    (executeFrame ts order.orderRef execShares matchNum, g)

def generateCancel : GeneratedMessage × MarketDataGenerator :=
  match g.randomActiveOrder rng with
  | (none, g) => g.generateAddOrder rng stocks
  | (some idx, g) =>
    let order := g.activeOrders idx
    let g := { g with
      activeOrders := Function.update g.activeOrders idx { order with active := false }
      activeCount := g.activeCount - 1 }
    let (ts, g) := g.nextTs
    (cancelFrame ts order.orderRef order.shares, g)

def generateTrade : GeneratedMessage × MarketDataGenerator :=
  let (k, g) := g.randInt rng stocks.length
  let symbol := (stocks[k]?.map StockInfo.symbol).getD []
  let (price, g) := g.randPrice rng
  let (size, g) := g.randInt rng 3
  let shares := SHARE_SIZES.getD (size + 3) 0
  let (flip, g) := g.randInt rng 2
  let side := if flip = 0 then 'B' else 'S'
  let (m, g) := g.randInt rng 90000
  let matchNum := (m : Int) + 10000
  let (ts, g) := g.nextTs
  (tradeFrame ts side shares symbol price matchNum, g)

def generateSystemEvent (eventCode : UInt8) : GeneratedMessage × MarketDataGenerator :=
  let (ts, g) := g.nextTs
  (systemEventFrame ts eventCode, g)

/-- The roll is the 32-bit draw over 2 ^ 32, against 0.45, 0.70 and 0.85. -/
def generateRandomMessage : GeneratedMessage × MarketDataGenerator :=
  let (roll, g) := g.randInt rng 4294967296
  if roll * 100 < 45 * 4294967296 then g.generateAddOrder rng stocks
  else if roll * 100 < 70 * 4294967296 then g.generateExecute rng stocks
  else if roll * 100 < 85 * 4294967296 then g.generateTrade rng stocks
  else g.generateCancel rng stocks

end MarketDataGenerator

end HftLab.Simulator
