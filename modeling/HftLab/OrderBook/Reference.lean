/-
  HftLab.OrderBook.Reference — what a book with price-time priority is for.

  The reference book keeps the orders of each side in one list, the best price first and at one price
  the earliest arrival first. An incoming order trades with the head of the other side's list as long
  as its limit allows (`trade`); what is left of it joins its own list behind every order at least as
  good (`enter`). The code is not mentioned here; HftLab.OrderBook.Simulation compares the two.
-/

import HftLab.OrderBook.BestPrice

namespace HftLab.OrderBook

open Lib

/-- An order of the reference book. -/
structure Ticket where
  id : Nat
  side : Side
  price : Int
  qty : Int
  filled : Int := 0
  type : OrderType
  deriving DecidableEq

def Ticket.left (t : Ticket) : Int := t.qty - t.filled

/-- What became of an order. -/
inductive Fate where
  | filled
  | resting (qty : Int)
  | cancelled (qty : Int)
  | reduced (qty : Int)
  deriving DecidableEq

/-- The two ids, the maker's first, the price, the quantity and the side of the taker. -/
abbrev Print := Nat × Nat × Int × Int × Side

structure RefBook where
  orders : Side → List Ticket := fun _ => []
  nextId : Nat := 1
  trades : List Print := []
  fates : List (Nat × Fate) := []

/-! ## Matching -/

/-- A maker that an order of `side` with limit `price` may trade with. -/
def Ticket.within (side : Side) (price : Int) (m : Ticket) : Bool := side.other.rank m.price ≤ side.other.rank price

/-- An incoming quantity `q` against the makers, best first: who is left, how much is left, and the
    executions, each with the maker as it was. -/
def trade (ok : Ticket → Bool) : List Ticket → Int → List Ticket × Int × List (Ticket × Int)
  | [], q => ([], q, [])
  | m :: ms, q =>
    if q ≤ 0 ∨ ok m = false then (m :: ms, q, [])
    else if m.left ≤ q then
      let (ms, q, fs) := trade ok ms (q - m.left)
      (ms, q, (m, m.left) :: fs)
    else ({ m with filled := m.filled + q } :: ms, 0, [(m, q)])

/-- `t` joins the list behind every order that is at least as good. -/
def enter (t : Ticket) (l : List Ticket) : List Ticket :=
  l.takeWhile (fun m => t.side.rank m.price ≤ t.side.rank t.price) ++
    t :: l.dropWhile (fun m => t.side.rank m.price ≤ t.side.rank t.price)

/-- The quantity an order of `side` with limit `price` could trade. -/
def reach (side : Side) (price : Int) (l : List Ticket) : Int :=
  ((l.filter (Ticket.within side price)).map Ticket.left).sum

namespace RefBook

variable (V : Env) (x : RefBook)

def refuses (r : Request) : Option RejectReason :=
  let makers := x.orders r.side.other
  if r.qty ≤ 0 then some .qtyZeroOrNegative
  else if ¬ inRange V r.priceTicks then some .priceOutOfRange
  else if r.type = .postOnly ∧ makers.any (Ticket.within r.side r.priceTicks) = true then some .postOnlyWouldCross
  else if r.type = .fok ∧ reach r.side r.priceTicks makers < r.qty then some .fokNotFillable
  else if 0 < r.minQty ∧ r.type ≠ .postOnly ∧ min r.qty (reach r.side r.priceTicks makers) < r.minQty then some .minQtyNotMet
  else none

/-- The executions of a taker with id `id`, as the tape has them. -/
def prints (id : Nat) (side : Side) (fs : List (Ticket × Int)) : List Print :=
  fs.map fun (m, q) => (m.id, id, m.price, q, side)

/-- The makers that were filled. -/
def filledBy (fs : List (Ticket × Int)) : List (Nat × Fate) :=
  fs.filterMap fun (m, q) => if m.left ≤ q then some (m.id, .filled) else none

/-- What is left of the order, `q`, rests, is dropped, or is nothing. -/
def settle (r : Request) (id : Nat) (q : Int) : RefBook :=
  if q ≤ 0 then { x with fates := x.fates ++ [(id, .filled)] }
  else if r.type = .ioc then { x with fates := x.fates ++ [(id, .cancelled q)] }
  else { x with
    orders := Function.update x.orders r.side
      (enter ⟨id, r.side, r.priceTicks, r.qty, r.qty - q, r.type⟩ (x.orders r.side))
    fates := x.fates ++ [(id, .resting q)] }

/-- The order meets the other side. -/
def meet (r : Request) (id : Nat) : Int × RefBook :=
  let (ms, q, fs) := trade (Ticket.within r.side r.priceTicks) (x.orders r.side.other) r.qty
  (q, { x with orders := Function.update x.orders r.side.other ms
               trades := x.trades ++ prints id r.side fs
               fates := x.fates ++ filledBy fs })

def submit (r : Request) : (Nat × RejectReason) × RefBook :=
  match x.refuses V r with
  | some reason => ((0, reason), x)
  | none =>
    let id := if r.orderId = 0 then x.nextId else r.orderId
    let x := { x with nextId := if r.orderId = 0 then x.nextId + 1 else x.nextId }
    let (q, x) := if r.type = .postOnly then (r.qty, x) else x.meet r id
    ((id, .none), x.settle r id q)

/-! ## Cancel and modify -/

def find (id : Nat) : Option Ticket := (x.orders .buy ++ x.orders .sell).find? (·.id = id)

def drop (id : Nat) : RefBook := { x with orders := fun s => (x.orders s).filter (·.id ≠ id) }

def cancel (id : Nat) : Bool × RefBook :=
  match x.find id with
  | none => (false, x)
  | some t => (true, { x.drop id with fates := x.fates ++ [(id, .cancelled t.left)] })

/-- The same order for less. -/
def shrink (id : Nat) (newQty : Int) : RefBook :=
  { x with orders := fun s => (x.orders s).map fun t => if t.id = id then { t with qty := newQty } else t
           fates := x.fates ++ [(id, .reduced newQty)] }

/-- Less quantity at the same price keeps the place; otherwise what is left of the new quantity arrives
    anew under the old id. -/
def modify (id : Nat) (newPrice newQty : Int) : (Nat × RejectReason) × RefBook :=
  match x.find id with
  | none => ((0, .none), x)
  | some t =>
    if newPrice = t.price ∧ newQty < t.qty ∧ t.filled < newQty then ((id, .none), x.shrink id newQty)
    else (x.drop id).submit V
      { side := t.side, priceTicks := newPrice, qty := newQty - t.filled, type := t.type, orderId := id }

/-- The orders at one price, the earliest arrival first. -/
def queueAt (p : Int) : List Ticket := (x.orders .buy ++ x.orders .sell).filter (·.price = p)

end RefBook

end HftLab.OrderBook
