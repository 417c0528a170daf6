/-
  HftLab.Simulator.MatchEngine — `BookMatchEngine` of market_sim.hpp: one order at a time is matched by a real
  `FullOrderBook` against a ladder of synthetic orders.

  The engine works in ticks around the middle of the grid. A call places the ladder, sends the order as an IOC that
  reaches past its end, cancels what is left of the ladder, and reports what the fill events said. The reference price and
  the volume-weighted average are exact rationals here, `double` in the source.
-/

import HftLab.OrderBook.Operations

namespace HftLab.Simulator

open HftLab.Lib HftLab.OrderBook

def MID_TICK : Int := 8192

def MAX_LADDER : Int := 250

def TICK_USD : Rat := 1 / 100

/-- What the fill events of the current taker add up to. -/
structure Capture where
  takerId : Nat := 0
  qty : Int := 0
  notionalTicks : Int := 0
  deriving DecidableEq, Repr

/-- A FILL goes out for both sides; only the taker's counts. -/
def Capture.onEvent (c : Capture) (e : BookEvent) : Capture :=
  if e.type = .fill ∧ e.orderId = c.takerId then
    { c with qty := c.qty + e.qty, notionalTicks := c.notionalTicks + e.priceTicks * e.qty }
  else c

structure BookMatchEngine where
  book : Book
  levelLiq : Int
  nextId : Nat := 1
  cap : Capture := {}

/-- The price of the `k`-th step from the touch, for an order of `side`. -/
def rung (side : Side) (k : Int) : Int :=
  match side with
  | .buy => MID_TICK + k
  | .sell => MID_TICK - k

/-- The side of the ladder. -/
def contra : Side → Side
  | .buy => .sell
  | .sell => .buy

namespace BookMatchEngine

variable (V : Env) (e : BookMatchEngine)

def new (levelLiq : Int) : BookMatchEngine :=
  { book := fresh V, levelLiq := if 0 < levelLiq then levelLiq else 100 }

/-- The book moved on to `b`; the callback saw each event it emitted. -/
def listen (b : Book) : BookMatchEngine :=
  { e with book := b, cap := (b.tape.events.drop e.book.tape.events.length).foldl Capture.onEvent e.cap }

/-- How many steps the ladder gets: enough for `qty`, and a cushion. -/
def levels (qty : Int) : Int := min MAX_LADDER (i32 (qty.tdiv e.levelLiq + 2))

def rungRequest (side : Side) (k : Nat) : Request :=
  { side := contra side, priceTicks := rung side k, qty := e.levelLiq, orderId := e.nextId }

/-- The steps `ks` of the ladder against an order of `side`; the ids they got. -/
def placeLadder (n : Nat) (side : Side) : List Nat → BookMatchEngine → Option (List Nat × BookMatchEngine)
  | [], e => some ([], e)
  | k :: ks, e =>
    match Book.submit V n (e.rungRequest side k) e.book with
    | none => none
    | some (_, b) =>
      (placeLadder n side ks ({ e with nextId := e.nextId + 1 }.listen b)).map fun (ids, e') => (e.nextId :: ids, e')

def takerRequest (side : Side) (steps qty : Int) : Request :=
  { side, priceTicks := rung side steps, qty, type := .ioc, tif := .ioc, orderId := e.cap.takerId }

/-- `book_.cancel` of each id that the ladder got. -/
def cancelLadder (ids : List Nat) : BookMatchEngine := ids.foldl (fun e id => e.listen (e.book.cancel V id).2) e

/-- The filled quantity and the average price, from what was captured. -/
def result (refPrice : Rat) : Int × Rat :=
  if e.cap.qty ≤ 0 then (0, refPrice)
  else (i32 e.cap.qty, refPrice + ((e.cap.notionalTicks : Rat) / e.cap.qty - MID_TICK) * TICK_USD)

/-- `match`: what was filled, at which average price. -/
def matchOrder (n : Nat) (side : Side) (refPrice : Rat) (qty : Int) : Option ((Int × Rat) × BookMatchEngine) :=
  if qty ≤ 0 ∨ refPrice ≤ 0 then some ((0, refPrice), e)
  else
    let steps := e.levels qty
    match placeLadder V n side (List.range steps.toNat) e with
    | none => none
    | some (ids, e) =>
      let e := { e with cap := { takerId := e.nextId }, nextId := e.nextId + 1 }
      match Book.submit V n (e.takerRequest side steps qty) e.book with
      | none => none
      | some (_, b) =>
        let e := (e.listen b).cancelLadder V ids
        some (e.result refPrice, e)

end BookMatchEngine

/-- `FullOrderBook<>`: the default template arguments. -/
structure DefaultBook (V : Env) : Prop where
  levels : V.LEVELS = 16384
  orders : V.MAX_ORDERS = 65536

end HftLab.Simulator
