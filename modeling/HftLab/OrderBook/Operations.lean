/-
  HftLab.OrderBook.Operations — the remaining public operations (`cancel`, `modify`,
  `check_stop_triggers`, `reprice_pegs`, `expire_gtd`, `submit_bracket`, `mass_quote`, `clear`,
  the session and configuration calls), the type `Op` of these and those before, and the reachable books.

  `exec V n op b` is the outcome of `op` with fuel `n`. `Step V b op r b'`: the call returns `r`
  and leaves `b'`. `Reach V P b`: a fresh book becomes `b` by calls that return and meet `P`.
-/

import HftLab.OrderBook.Auction

namespace HftLab.OrderBook

open Lib

namespace Book

variable (V : Env) (b : Book)

/-! ## Cancel and modify -/

def cancel (id : Nat) : Bool × Book :=
  match b.core.find id with
  | none => (false, b)
  | some i =>
    if (b.order i).isPendingStop then
      let (ok, b) := b.cancelPendingStop i
      (ok, b.processOcoPending V)
    else (true, (b.cancelInternal V i true).processOcoPending V)

/-- The in-place branch of `modify`: less quantity at the same price keeps the order's place.
    The level's sums are lowered whether or not the order is in the level. -/
def reduceInPlace (id i : Nat) (newQty : Int) : Book :=
  let o := b.order i
  let delta := o.totalQty - newQty
  let vis := min delta o.displayedQty
  let b := b.mapCore fun c =>
    let lvl := c.levels o.priceTicks
    (c.setOrder i { o with totalQty := newQty, displayedQty := o.displayedQty - vis }).setLevel o.priceTicks
      { lvl with totalQty := i32 (lvl.totalQty - vis), totalHidden := i32 (lvl.totalHidden - (delta - vis)) }
  let b := { b with brackets := { b.brackets with
    specs := Function.update b.brackets.specs id ((b.brackets.specs id).map fun (s : BracketSpec) => { s with qty := newQty }) } }
  (b.emit .replace o.id 0 o.priceTicks newQty o.status .none o.clientId).note (.reduce o newQty)

/-- The OCO pair of a replaced order is restored, or its partner cancelled when the order filled
    on re-entry. -/
def relinkOco (partner : Option Nat) (nid : Nat) : Book :=
  match partner with
  | none => b
  | some y =>
    if nid = 0 then b
    else if (b.core.find nid).isSome ∧ (b.core.find y).isSome then (b.linkOco nid y).2
    else if (b.core.find nid).isNone then
      { b with oco := { b.oco with pendingCancel := b.oco.pendingCancel ++ [y] } }.processOcoPending V
    else b

/-- The bracket of a replaced entry is kept, or armed when the entry filled on re-entry. -/
def rearmBracket (n : Nat) (spec : Option BracketSpec) (nid : Nat) : Option Book :=
  match spec with
  | none => some b
  | some s =>
    if nid = 0 then some b
    else if (b.core.find nid).isSome then
      some { b with brackets := { b.brackets with specs := Function.update b.brackets.specs nid (some s) } }
    else processBracketPending V (submit V n) n { b with brackets := { b.brackets with pending := b.brackets.pending ++ [s] } }

/-- The other branch of `modify`: cancel, then submit what is left under the same id. -/
def cancelReplace (n : Nat) (id i : Nat) (newPrice newQty : Int) : Option ((Nat × RejectReason) × Book) :=
  let o := b.order i
  let partner := b.oco.partner id
  let spec := (b.brackets.specs id).map fun (s : BracketSpec) => { s with qty := newQty }
  let b := (b.unlinkOco id).cancelInternal V i false
  match submit V n { side := o.side, priceTicks := newPrice, qty := i32 (newQty - o.filledQty), type := o.type,
                     tif := o.tif, orderId := id, clientId := o.clientId } b with
  | none => none
  | some ((nid, reason), b) =>
    match (b.relinkOco V partner nid).rearmBracket V n spec nid with
    | none => none
    | some b => some ((nid, reason), b)

/-- `modify`: `none` also when the in-place branch would write to a level outside the grid. -/
def modify (n : Nat) (id : Nat) (newPrice newQty : Int) : Option ((Nat × RejectReason) × Book) :=
  match b.core.find id with
  | none => some ((0, .none), b)
  | some i =>
    let o := b.order i
    if newPrice = o.priceTicks ∧ newQty < o.totalQty ∧ o.filledQty < newQty then
      if inRange V o.priceTicks then some ((o.id, .none), b.reduceInPlace id i newQty) else none
    else b.cancelReplace V n id i newPrice newQty

/-! ## Stops -/

/-- The price a waiting stop is compared with. -/
def stopReference (o : Order) : Int :=
  if 0 < o.pegOffsetTicks ∧ b.gates.trailingRatchetOnMid = true ∧ 0 < b.core.midTicks then b.core.midTicks
  else b.tape.lastTradeTicks

/-- The trigger of a trailing stop follows the reference; a plain stop keeps its own. -/
def ratchet (o : Order) (ref : Int) : Int :=
  if 0 < o.pegOffsetTicks then
    match o.side with
    | .sell =>
      let nt := i32 (ref - o.pegOffsetTicks)
      if o.stopTriggerTicks < nt ∧ 0 ≤ nt then nt else o.stopTriggerTicks
    | .buy =>
      let nt := i32 (ref + o.pegOffsetTicks)
      if nt < o.stopTriggerTicks ∧ nt < V.LEVELS then nt else o.stopTriggerTicks
  else o.stopTriggerTicks

def triggered (o : Order) (ref : Int) : Bool :=
  match o.side with
  | .buy => o.stopTriggerTicks ≤ ref
  | .sell => ref ≤ o.stopTriggerTicks

/-- The stop at position `k` leaves the queue, the index and the pool. -/
def releaseStop (k i : Nat) : Book :=
  let o := b.order i
  (b.mapCore fun c => { (c.eraseId o.id).freeOrder i with stopOrders := swapErase c.stopOrders k }).note (.trigger o)

/-- What a triggered stop is resubmitted as; a limit of 0 or less means the far end of the grid. -/
def stopRequest (o : Order) : Request :=
  { side := o.side
    priceTicks := if 0 < o.priceTicks then o.priceTicks else match o.side with | .buy => V.LEVELS - 1 | .sell => 0
    qty := o.totalQty, orderId := o.id, clientId := o.clientId }

/-- The trigger of the stop in slot `i` is brought up to date. -/
def ratchetStop (i : Nat) : Book :=
  let o := b.order i
  b.mapCore (·.setOrder i { o with stopTriggerTicks := ratchet V o (b.stopReference o) })

/-- The loop of `check_stop_triggers`, at position `k` of `stop_orders_`. -/
def stopLoop (sub : Submitter) : Nat → Nat → Book → Option Book
  | 0, _, _ => none
  | n + 1, k, b =>
    match b.core.stopOrders[k]? with
    | none => some b
    | some i =>
      let ref := b.stopReference (b.order i)
      let b := b.ratchetStop V i
      if triggered (b.order i) ref then
        match sub (stopRequest V (b.order i)) ((b.releaseStop k i).setInternal true) with
        | none => none
        | some (_, b) => stopLoop sub n k (b.setInternal false)
      else stopLoop sub n (k + 1) b

def checkStopTriggers (n : Nat) : Option Book :=
  if b.tape.lastTradeTicks < 0 ∨ b.core.stopOrders = [] then some b else stopLoop V (submit V n) n 0 b

/-! ## Pegs -/

/-- Where a peg should be now, if that can be said. -/
def pegTarget (o : Order) : Option Int :=
  let base := if o.stopTriggerTicks = 1 then
      if b.core.midTicks < 0 then none else some b.core.midTicks
    else match o.side with
      | .buy => if b.core.hasBid then some b.core.bestBid else none
      | .sell => if b.core.hasAsk then some b.core.bestAsk else none
  base.map fun p => capPeg o.side o.pegCapTicks (i32 (p + o.pegOffsetTicks))

end Book

/-- The order in slot `i` moves to the end of the queue at `target`. -/
def Core.reprice (V : Env) (c : Core) (i : Nat) (target : Int) : Core :=
  let o := c.pool i
  let c := (c.unlinkFromLevel i).refreshIfEmptied V o.side o.priceTicks
  (c.setOrder i { c.pool i with priceTicks := target }).enqueueAtLevel i

/-- The cached best price follows a repriced order; unlike `raiseBest`, with no test for an empty side. -/
def Core.followPeg (c : Core) (side : Side) (target : Int) : Core :=
  match side with
  | .buy => { c with bestBid := if c.bestBid < target then target else c.bestBid }
  | .sell => { c with bestAsk := if target < c.bestAsk then target else c.bestAsk }

namespace Book

variable (V : Env) (b : Book)

/-- The slot of a peg is looked at again whatever order occupies it by now. -/
def repricePeg (i : Nat) : Book :=
  let o := b.order i
  if !o.isActive then b
  else match b.pegTarget o with
    | none => b
    | some target =>
      if ¬ inRange V target ∨ target = o.priceTicks then b
      else b.mapCore fun c => (c.reprice V i target).followPeg o.side target

def repricePegs : Book := b.core.pegOrders.foldl (fun b i => b.repricePeg V i) b

/-! ## Expiry -/

def expireOrder (i : Nat) : Book :=
  let o := b.order i
  let b := b.mapCore fun c => (c.unlinkFromLevel i).refreshIfEmptied V o.side o.priceTicks
  let b := b.mapCore (·.setStatus i .expired)
  let b := b.emit .expire o.id 0 o.priceTicks o.remainingQty .expired .none o.clientId
  let b := b.mapCore (·.eraseId o.id)
  let b := (b.ocoOnComplete o.id).eraseBracketSpec o.id
  (b.mapCore (·.freeOrder i)).note (.expire o)

def expireGtd (now : Nat) : Nat × Book :=
  let (entries, b) := b.indexEntries V
  let toExpire := (entries.map (·.2)).filter fun i =>
    let o := b.order i
    o.tif = .gtd && o.isActive && 0 < o.expireTsNs && o.expireTsNs ≤ now
  (toExpire.length, (toExpire.foldl (fun b i => b.expireOrder V i) b).processOcoPending V)

/-- The caller's write to `expire_ts_ns` through `find_order`. -/
def setExpiry (id ts : Nat) : Book :=
  match b.core.find id with
  | none => b
  | some i => b.mapCore fun c => c.setOrder i { c.pool i with expireTsNs := ts }

/-! ## Brackets, mass quote, clear -/

def submitBracket (n : Nat) (side : Side) (entryPrice qty tpPrice slTrigger : Int) (clientId : Nat) :
    Option (Nat × Book) :=
  let spec : BracketSpec := ⟨match side with | .buy => .sell | .sell => .buy, tpPrice, slTrigger, qty, clientId⟩
  match submit V n { side, priceTicks := entryPrice, qty, clientId } b with
  | none => none
  | some ((id, _), b) =>
    if id = 0 then some (0, b)
    else if (b.core.find id).isNone then (b.armBracketExits V (submit V n) spec).map (id, ·)
    else some (id, { b with brackets := { b.brackets with specs := Function.update b.brackets.specs id (some spec) } })

def Quote.acceptable (c : Core) (q : Quote) : Bool :=
  0 < q.qty && inRange V q.priceTicks && !c.wouldCross q.side q.priceTicks

def quoteRequest (clientId : Nat) (q : Quote) : Request :=
  { side := q.side, priceTicks := q.priceTicks, qty := q.qty, type := .postOnly, clientId }

def submitAll (sub : Submitter) : List Request → Book → Option (List Nat × Book)
  | [], b => some ([], b)
  | r :: rs, b =>
    match sub r b with
    | none => none
    | some ((id, _), b) => (submitAll sub rs b).map fun (ids, b) => (id :: ids, b)

/-- `mass_quote`: the count returned, and the ids written to `out_ids`. -/
def massQuote (n : Nat) (quotes : List Quote) (clientId : Nat) : Option ((Nat × List Nat) × Book) :=
  if V.MAX_ORDERS < b.core.activeOrders + quotes.length then some ((0, []), b)
  else if quotes.all (Quote.acceptable V b.core) then
    (submitAll (submit V n) (quotes.map (quoteRequest clientId)) b).map fun (ids, b) => ((quotes.length, ids), b)
  else some ((0, []), b)

/-- `clear`: every order is freed, level by level, then the waiting stops. -/
def clear : Book :=
  let prices := (List.range V.LEVELS.toNat).map fun (k : Nat) => (k : Int)
  let c := prices.foldl (fun c p => { (c.queue V p).foldl Core.freeOrder c with
    levels := Function.update c.levels p {} }) b.core
  let c := c.stopOrders.foldl Core.freeOrder c
  { b with
    core := { c with idIndex := ∅, stopOrders := [], pegOrders := [], bestBid := NO_BID_TICKS, bestAsk := NO_ASK_TICKS }
    tape := { b.tape with lastTradeTicks := -1, trades := [] } }

/-! ## Configuration and session -/

def setClientFirm (clientId firmId : Nat) : Book :=
  if clientId = 0 then b
  else { b with gates := { b.gates with
    clientToFirm := Function.update b.gates.clientToFirm clientId (if firmId = 0 then none else some firmId) } }

def setMmp (clientId maxFills windowNs : Nat) : Book :=
  if clientId = 0 ∨ maxFills = 0 ∨ windowNs = 0 then b
  else
    let (now, b) := b.monoNsNow V
    { b with gates := { b.gates with
        mmp := Function.update b.gates.mmp clientId (some ⟨windowNs, maxFills, 0, now, false⟩), mmpEnabled := true } }

def mmpReset (clientId : Nat) : Book :=
  match b.gates.mmp clientId with
  | none => b
  | some m =>
    let (now, b) := b.monoNsNow V
    { b with gates := { b.gates with
        mmp := Function.update b.gates.mmp clientId
          (some { m with tripped := false, fillsInWindow := 0, windowStartNs := now }) } }

def setAccountRateLimit (clientId : Nat) (capacity refillPerSec : Rat) : Book :=
  if clientId = 0 ∨ capacity < 1 ∨ refillPerSec < 0 then b
  else
    let (now, b) := b.monoNsNow V
    { b with gates := { b.gates with
        rateBuckets := Function.update b.gates.rateBuckets clientId (some ⟨capacity, capacity, refillPerSec, now⟩)
        rateLimitingEnabled := true } }

def setLuldBands (low high : Int) (autoHalt : Bool) : Book :=
  { b with gates := { b.gates with
      luldEnabled := true, luldLowTicks := low, luldHighTicks := high, luldAutoHalt := autoHalt } }

def setPhase (p : SessionPhase) : Book := { b with gates := { b.gates with sessionPhase := p } }

def setHalted (on : Bool) : Book := { b with gates := { b.gates with halted := on } }

def haltForAuction : Book := { b with gates := { b.gates with inAuctionMode := true, haltReopenPending := true } }

def resumeWithAuction (n : Nat) : Option (AuctionResult × Book) :=
  { b with gates := { b.gates with inAuctionMode := false, haltReopenPending := false } }.runAuction V n

def closeMarket (n : Nat) : Option (AuctionResult × Book) :=
  (b.runClosingAuction V n).map fun (r, b) => (r, b.setPhase .closed)

end Book

/-! ## Operations and runs -/

/-- Public operations that change the book. `load_snapshot`, which fills a book from a buffer, is not among them, nor are
    `submit_short` and `submit_reduce_only`, which ask a gate of their own before they submit. -/
inductive Op where
  | submit (r : Request)
  | cancel (id : Nat)
  | modify (id : Nat) (newPrice newQty : Int)
  | submitStop (side : Side) (trigger limit qty : Int) (orderId clientId : Nat)
  | submitTrailingStop (side : Side) (trailOffset limit qty : Int) (orderId clientId : Nat)
  | checkStopTriggers
  | submitPeg (side : Side) (offset qty : Int) (orderId clientId : Nat) (cap : Int)
  | submitPegMid (side : Side) (offset qty : Int) (orderId clientId : Nat) (cap : Int)
  | repricePegs
  | massCancel (clientId : Nat)
  | massQuote (quotes : List Quote) (clientId : Nat)
  | submitBracket (side : Side) (entryPrice qty tpPrice slTrigger : Int) (clientId : Nat)
  | linkOco (x y : Nat)
  | unlinkOco (x : Nat)
  | runAuction
  | tryRunAuction (maxSurplus : Int)
  | runClosingAuction
  | submitMoc (side : Side) (qty : Int) (clientId : Nat)
  | submitLoc (side : Side) (price qty : Int) (clientId : Nat)
  | cancelMoc (id : Nat)
  | cancelLoc (id : Nat)
  | expireGtd (now : Nat)
  | setExpiry (id ts : Nat)
  | clear
  | setStpPolicy (p : SelfTradePrevention)
  | setClientFirm (clientId firmId : Nat)
  | setMmp (clientId maxFills windowNs : Nat)
  | mmpReset (clientId : Nat)
  | setAccountRateLimit (clientId : Nat) (capacity refillPerSec : Rat)
  | setLuldBands (low high : Int) (autoHalt : Bool)
  | disableLuld
  | setLuldHaltToAuction (on : Bool)
  | setIcebergRefreshJitterBps (bps : Int)
  | setTrailingRatchetOnMid (on : Bool)
  | enableDeltaQueue (on : Bool)
  | popDeltaQueue (maxN : Nat)
  | halt
  | resume
  | haltForAuction
  | resumeWithAuction
  | setAuctionMode (on : Bool)
  | beginPreOpen
  | openMarket
  | beginClosing
  | closeMarket
  deriving DecidableEq

/-- What a call returns: an id and a reject reason, a flag, a count (with ids), an auction result. -/
inductive Outcome where
  | unit
  | id (id : Nat) (reason : RejectReason)
  | flag (ok : Bool)
  | count (n : Nat) (ids : List Nat)
  | auction (r : AuctionResult)
  | deltas (l : List DeltaMessage)
  deriving DecidableEq

namespace Book

def ofId (x : (Nat × RejectReason) × Book) : Outcome × Book := (.id x.1.1 x.1.2, x.2)

def ofFlag (x : Bool × Book) : Outcome × Book := (.flag x.1, x.2)

def ofUnit (b : Book) : Outcome × Book := (.unit, b)

def ofAuction (x : AuctionResult × Book) : Outcome × Book := (.auction x.1, x.2)

def exec (V : Env) (n : Nat) (op : Op) (b : Book) : Option (Outcome × Book) :=
  match op with
  | .submit r => (submit V n r b).map ofId
  | .cancel id => some (ofFlag (b.cancel V id))
  | .modify id p q => (b.modify V n id p q).map ofId
  | .submitStop s t l q oid cid => some (ofId (b.submitStop V s t l q oid cid))
  | .submitTrailingStop s o l q oid cid => some (ofId (b.submitTrailingStop V s o l q oid cid))
  | .checkStopTriggers => (b.checkStopTriggers V n).map ofUnit
  | .submitPeg s o q oid cid cap => some (ofId (b.submitPeg V s o q oid cid cap))
  | .submitPegMid s o q oid cid cap => some (ofId (b.submitPegMid V s o q oid cid cap))
  | .repricePegs => some (ofUnit (b.repricePegs V))
  | .massCancel cid => let (k, b) := b.massCancel V cid; some (.count k [], b)
  | .massQuote qs cid => (b.massQuote V n qs cid).map fun ((k, ids), b) => (.count k ids, b)
  | .submitBracket s e q tp sl cid => (b.submitBracket V n s e q tp sl cid).map fun (id, b) => (.id id .none, b)
  | .linkOco x y => some (ofFlag (b.linkOco x y))
  | .unlinkOco x => some (.flag (b.oco.partner x).isSome, b.unlinkOco x)
  | .runAuction => (b.runAuction V n).map ofAuction
  | .tryRunAuction k => (b.tryRunAuction V n k).map ofAuction
  | .runClosingAuction => (b.runClosingAuction V n).map ofAuction
  | .submitMoc s q cid => some (ofId (b.submitMoc s q cid))
  | .submitLoc s p q cid => some (ofId (b.submitLoc V s p q cid))
  | .cancelMoc id => some (ofFlag (b.cancelMoc id))
  | .cancelLoc id => some (ofFlag (b.cancelLoc id))
  | .expireGtd now => let (k, b) := b.expireGtd V now; some (.count k [], b)
  | .setExpiry id ts => some (ofUnit (b.setExpiry id ts))
  | .clear => some (ofUnit (b.clear V))
  | .setStpPolicy p => some (ofUnit { b with gates := { b.gates with stpPolicy := p } })
  | .setClientFirm c f => some (ofUnit (b.setClientFirm c f))
  | .setMmp c k w => some (ofUnit (b.setMmp V c k w))
  | .mmpReset c => some (ofUnit (b.mmpReset V c))
  | .setAccountRateLimit c k r => some (ofUnit (b.setAccountRateLimit V c k r))
  | .setLuldBands l h a => some (ofUnit (b.setLuldBands l h a))
  | .disableLuld => some (ofUnit { b with gates := { b.gates with luldEnabled := false } })
  | .setLuldHaltToAuction on => some (ofUnit { b with gates := { b.gates with luldHaltToAuction := on } })
  | .setIcebergRefreshJitterBps bps =>
    some (ofUnit (if 0 ≤ bps ∧ bps ≤ 9000 then { b with gates := { b.gates with iceJitterBps := bps } } else b))
  | .setTrailingRatchetOnMid on => some (ofUnit { b with gates := { b.gates with trailingRatchetOnMid := on } })
  | .enableDeltaQueue on => some (ofUnit { b with tape := { b.tape with deltaQueueEnabled := on } })
  | .popDeltaQueue k =>
    some (.deltas (b.tape.deltaQueue.take k), { b with tape := { b.tape with deltaQueue := b.tape.deltaQueue.drop k } })
  | .halt => some (ofUnit (b.setHalted true))
  | .resume => some (ofUnit (b.setHalted false))
  | .haltForAuction => some (ofUnit b.haltForAuction)
  | .resumeWithAuction => (b.resumeWithAuction V n).map ofAuction
  | .setAuctionMode on => some (ofUnit (b.setAuction on))
  | .beginPreOpen => some (ofUnit ((b.setPhase .preOpen).setAuction true))
  | .openMarket => (((b.setAuction false).setPhase .continuous).runAuction V n).map ofAuction
  | .beginClosing => some (ofUnit ((b.setPhase .closing).setAuction true))
  | .closeMarket => (b.closeMarket V n).map ofAuction

/-- The book that a call leaves is the one its function leaves. -/
theorem returned {α β : Type} {o : Option (α × Book)} {f : α × Book → β × Book} {x : β} {b' : Book} (h : o.map f = some (x, b'))
    (hf : ∀ y, (f y).2 = y.2) : ∃ y, o = some (y, b') := by
  obtain ⟨⟨y, c⟩, ho, he⟩ := Option.map_eq_some_iff.mp h
  have hc : c = b' := (hf (y, c)).symm.trans (congrArg Prod.snd he)
  exact ⟨y, hc ▸ ho⟩

/-- The call `op` on `b` returns `r` and leaves `b'`. -/
def Step (V : Env) (b : Book) (op : Op) (r : Outcome) (b' : Book) : Prop := ∃ n, exec V n op b = some (r, b')

/-- The books a fresh one can become by calls that return, each of them meeting `P`. -/
inductive Reach (V : Env) (P : Book → Op → Book → Prop) : Book → Prop
  | init : Reach V P (fresh V)
  | step {b b' : Book} {op : Op} {r : Outcome} : Reach V P b → Step V b op r b' → P b op b' → Reach V P b'

end Book

end HftLab.OrderBook
