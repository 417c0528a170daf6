/-
  HftLab.OrderBook.Snapshot — the wire format of a book: `OrderRecord`, `serialize_snapshot`, `load_snapshot`.

  A buffer is its bytes; integers lie in it in little-endian order. An access outside the buffer, or
  outside the array of levels, is undefined in the source: `load_snapshot` then ends in `overread` or in
  `offGrid`. Sizes and offsets are 64-bit: they wrap where the source adds or multiplies them.
-/

import HftLab.Lib.Wire
import HftLab.OrderBook.Transitions

namespace HftLab.OrderBook

open Lib

def uint64Size : Nat := 18446744073709551616

/-- A `std::size_t` or `std::uint64_t` after computing `x`. -/
def u64 (x : Nat) : Nat := x % uint64Size

/-! ## Enumerators as bytes -/

def Side.toByte : Side → Nat
  | .buy => 0
  | .sell => 1

def OrderType.toByte : OrderType → Nat
  | .limit => 0
  | .ioc => 1
  | .fok => 2
  | .postOnly => 3
  | .iceberg => 4
  | .stop => 5
  | .peg => 6
  | .market => 7
  | .hidden => 8
  | .aon => 9

def TimeInForce.toByte : TimeInForce → Nat
  | .day => 0
  | .gtc => 1
  | .ioc => 2
  | .fok => 3
  | .gtd => 4
  | .gtx => 5

def OrderStatus.toByte : OrderStatus → Nat
  | .new => 0
  | .open => 1
  | .partiallyFilled => 2
  | .filled => 3
  | .cancelled => 4
  | .rejected => 5
  | .expired => 6
  | .replaced => 7

-- A byte that names no enumerator is read as one that `load_snapshot` treats the same: it asks only whether
-- the side is BUY, the type STOP or PEG, and the status NEW.

def Side.ofByte (x : Nat) : Side := if x = 0 then .buy else .sell

def OrderType.ofByte : Nat → OrderType
  | 1 => .ioc
  | 2 => .fok
  | 3 => .postOnly
  | 4 => .iceberg
  | 5 => .stop
  | 6 => .peg
  | 7 => .market
  | 8 => .hidden
  | 9 => .aon
  | _ => .limit

def TimeInForce.ofByte : Nat → TimeInForce
  | 1 => .gtc
  | 2 => .ioc
  | 3 => .fok
  | 4 => .gtd
  | 5 => .gtx
  | _ => .day

def OrderStatus.ofByte : Nat → OrderStatus
  | 0 => .new
  | 1 => .open
  | 2 => .partiallyFilled
  | 3 => .filled
  | 4 => .cancelled
  | 6 => .expired
  | 7 => .replaced
  | _ => .rejected

theorem Side.ofByte_toByte (s : Side) : Side.ofByte s.toByte = s := by cases s <;> rfl

theorem OrderType.ofByte_toByte (t : OrderType) : OrderType.ofByte t.toByte = t := by cases t <;> rfl

theorem TimeInForce.ofByte_toByte (t : TimeInForce) : TimeInForce.ofByte t.toByte = t := by cases t <;> rfl

theorem OrderStatus.ofByte_toByte (s : OrderStatus) : OrderStatus.ofByte s.toByte = s := by cases s <;> rfl

/-! ## Records -/

/-- One order of a snapshot; the four enumerators are bytes. -/
structure OrderRecord where
  id : Nat
  clientId : Nat
  priceTicks : Int
  totalQty : Int
  filledQty : Int
  displayedQty : Int
  side : Nat
  type : Nat
  tif : Nat
  status : Nat
  submitTsNs : Nat
  expireTsNs : Nat
  stopTriggerTicks : Int
  pegOffsetTicks : Int
  icebergDisplaySize : Int
  deriving DecidableEq, Repr

/-- The fields in the order in which they lie in memory (the struct is packed). -/
def OrderRecord.fields (r : OrderRecord) :=
  (r.id, r.clientId, r.priceTicks, r.totalQty, r.filledQty, r.displayedQty, r.side, r.type, r.tif, r.status, r.submitTsNs,
    r.expireTsNs, r.stopTriggerTicks, r.pegOffsetTicks, r.icebergDisplaySize)

open Codec in
def orderRecord : Codec OrderRecord :=
  ((uint 8).pair <| (uint 8).pair <| int32.pair <| int32.pair <| int32.pair <| int32.pair <| (uint 1).pair <| (uint 1).pair <|
    (uint 1).pair <| (uint 1).pair <| (uint 8).pair <| (uint 8).pair <| int32.pair <| int32.pair int32).via
  OrderRecord.fields
  (fun (id, clientId, priceTicks, totalQty, filledQty, displayedQty, side, type, tif, status, submitTsNs, expireTsNs,
    stopTriggerTicks, pegOffsetTicks, icebergDisplaySize) =>
    ⟨id, clientId, priceTicks, totalQty, filledQty, displayedQty, side, type, tif, status, submitTsNs, expireTsNs,
      stopTriggerTicks, pegOffsetTicks, icebergDisplaySize⟩)
  fun _ => rfl

/-- The comment in the source says 70 bytes; the packed struct has 64. -/
theorem orderRecord_size : orderRecord.size = 64 := rfl

/-- What `serialize_snapshot` writes of an order: neither its peg cap nor its links. -/
def Order.record (o : Order) : OrderRecord :=
  { id := o.id, clientId := o.clientId, priceTicks := o.priceTicks, totalQty := o.totalQty, filledQty := o.filledQty,
    displayedQty := o.displayedQty, side := o.side.toByte, type := o.type.toByte, tif := o.tif.toByte,
    status := o.status.toByte, submitTsNs := o.submitTsNs, expireTsNs := o.expireTsNs,
    stopTriggerTicks := o.stopTriggerTicks, pegOffsetTicks := o.pegOffsetTicks, icebergDisplaySize := o.icebergDisplaySize }

/-- What `load_snapshot` writes to a new slot `o`. -/
def OrderRecord.write (r : OrderRecord) (o : Order) : Order :=
  { o with
    id := r.id, clientId := r.clientId, priceTicks := r.priceTicks, totalQty := r.totalQty, filledQty := r.filledQty,
    displayedQty := r.displayedQty, side := .ofByte r.side, type := .ofByte r.type, tif := .ofByte r.tif,
    status := .ofByte r.status, submitTsNs := r.submitTsNs, expireTsNs := r.expireTsNs,
    stopTriggerTicks := r.stopTriggerTicks, pegOffsetTicks := r.pegOffsetTicks, icebergDisplaySize := r.icebergDisplaySize }

/-! ## Saving -/

def SNAPSHOT_VERSION : Nat := 2

def SNAPSHOT_MAGIC : Nat := 0x4F42504F

/-- Magic number, version and count. -/
def snapshotHeader : Codec (Nat × Nat × Nat) := (Codec.uint 4).pair ((Codec.uint 4).pair (Codec.uint 8))

/-- The records of a snapshot: the levels from price 0 up, each from its head, then the waiting stops. -/
def Book.records (V : Env) (b : Book) : List OrderRecord :=
  ((List.range V.LEVELS.toNat).flatMap fun (p : Nat) => (b.core.queue V p).map fun i => (b.order i).record) ++
    b.core.stopOrders.map fun i => (b.order i).record

def Book.snapshotSizeEstimate (b : Book) : Nat := u64 (16 + b.core.activeOrders * orderRecord.size)

/-- The number of bytes written, and the buffer after the call. -/
def Book.serializeSnapshot (V : Env) (b : Book) (buf : List UInt8) : Nat × List UInt8 :=
  if buf.length < b.snapshotSizeEstimate then (0, buf)
  else
    let out := snapshotHeader.put (SNAPSHOT_MAGIC, SNAPSHOT_VERSION, b.core.activeOrders) ++ orderRecord.putAll (b.records V)
    (out.length, out ++ buf.drop out.length)

/-! ## Loading -/

/-- How a load ends: with a read outside the buffer, with an index outside the array of levels, or with an
    answer and what it leaves. -/
inductive Load (α : Type) where
  | overread
  | offGrid
  | done (ok : Bool) (s : α)

/-- The order just written to slot `i` is filed by its type: a waiting stop among the stops, any other order in
    the queue of its price, a peg also among the pegs. -/
def Core.file (V : Env) (c : Core) (i : Nat) : Option Core :=
  let o := c.pool i
  if o.isPendingStop then some ({ c with stopOrders := c.stopOrders ++ [i] }.indexOrder i)
  else if inRange V o.priceTicks then
    let c := (c.enqueueAtLevel i).indexOrder i
    let c := if o.type = .peg then { c with pegOrders := c.pegOrders ++ [i] } else c
    some (c.raiseBest o.side o.priceTicks)
  else none

/-- The loop of `load_snapshot`: `n` records from `off` on. -/
def Book.loadRecords (V : Env) (buf : List UInt8) : Nat → Nat → Nat → Book → Load Book
  | 0, _, maxLoadedId, b =>
    .done true { b with core := { b.core with
      nextOrderId := if b.core.nextOrderId ≤ maxLoadedId then u64 (maxLoadedId + 1) else b.core.nextOrderId } }
  | n + 1, off, maxLoadedId, b =>
    match orderRecord.readAt buf off with
    | none => .overread
    | some r =>
      match b.core.allocOrder with
      | none => .done false b
      | some (i, c) =>
        match (c.setOrder i (r.write (c.pool i))).file V i with
        | none => .offGrid
        | some c => loadRecords V buf n (off + orderRecord.size) (max maxLoadedId r.id) { b with core := c }

/-- `load_snapshot(buf, len)`. The caller's `len` need not be the length of the buffer. -/
def Book.loadSnapshot (V : Env) (buf : List UInt8) (len : Nat) (b : Book) : Load Book :=
  if len < 16 then .done false b
  else
    match snapshotHeader.readAt buf 0 with
    | none => .overread
    | some (magic, version, count) =>
      if magic ≠ SNAPSHOT_MAGIC then .done false b
      else if version ≠ SNAPSHOT_VERSION then .done false b
      else if len < u64 (16 + u64 (count * orderRecord.size)) then .done false b
      else Book.loadRecords V buf count 16 0 (b.clear V)

end HftLab.OrderBook
