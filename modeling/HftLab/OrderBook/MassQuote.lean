/-
  HftLab.OrderBook.MassQuote — a mass quote against the gates of `submit`.

  The validation pass asks for room in the pool, and of each quote for a quantity, a price on the grid and
  no cross with the book as it is. `submit` then asks for more: the session, a halt, a token, the
  protection, the bands, and no cross with the book as the quotes before have left it. Nothing is taken
  back, so that a mass quote is all or none exactly if these let every quote in (`AllIn`). A bucket is counted in doubles, so
  ten refills of a tenth need not make a token.

  - `quote_course`: one quote is refused, and the orders are as they were, or joins its level under the next id;
  - `mass_quote_iff`: all of them join exactly if `AllIn` holds before.
-/

import HftLab.OrderBook.Admission
import HftLab.OrderBook.Deferred
import HftLab.OrderBook.PriceTime

namespace HftLab.OrderBook

open Lib Function List Option

/-- What a bucket holds after the refill at `now`. -/
def RateBucket.refilled (rb : RateBucket) (now : Nat) : RateBucket :=
  if rb.lastRefillNs < now then
    let refill := toDouble (toDouble (toDouble (now - rb.lastRefillNs : Nat) * rb.refillPerSec) / 1000000000)
    { rb with tokens := min rb.capacity (toDouble (rb.tokens + refill)), lastRefillNs := now }
  else rb

def RateBucket.spent (rb : RateBucket) : RateBucket := { rb with tokens := toDouble (rb.tokens - 1) }

/-- `n` quotes in a row find a token each: the clock is read for the bucket and for the order. -/
def RateBucket.serves (V : Env) : Nat → Nat → RateBucket → Prop
  | 0, _, _ => True
  | n + 1, k, rb =>
    1 ≤ (rb.refilled (V.clock k)).tokens ∧ RateBucket.serves V n (k + 2) (rb.refilled (V.clock k)).spent

/-- The bucket that a submission for client `cid` is counted against. -/
def Gates.bucket (g : Gates) (cid : Nat) : Option RateBucket :=
  if g.rateLimitingEnabled && (!g.inInternalSubmit && cid ≠ 0) then g.rateBuckets cid else none

/-- The protection of client `cid` has tripped, and is asked for. -/
def Gates.stops (g : Gates) (cid : Nat) : Bool :=
  g.mmpEnabled && (!g.inInternalSubmit && cid ≠ 0) && (g.mmp cid).any (·.tripped)

/-- A quote that would trade with the resting quote `q`. -/
def Quote.crosses (q q' : Quote) : Bool :=
  match q.side, q'.side with
  | .buy, .sell => q'.priceTicks ≤ q.priceTicks
  | .sell, .buy => q.priceTicks ≤ q'.priceTicks
  | _, _ => false

/-- The gates of `submit` let every one of the quotes in. -/
structure Book.AllIn (V : Env) (b : Book) (quotes : List Quote) (cid : Nat) : Prop where
  phase : b.gates.sessionPhase ≠ .closed
  halted : b.gates.halted = false
  tokens : ∀ rb, b.gates.bucket cid = some rb → rb.serves V quotes.length b.asked
  protection : b.gates.stops cid = false
  bands : b.gates.luldEnabled = true →
    ∀ q ∈ quotes, b.gates.luldLowTicks ≤ q.priceTicks ∧ q.priceTicks ≤ b.gates.luldHighTicks
  clear : ∀ q ∈ quotes, b.core.wouldCross q.side q.priceTicks = false
  apart : quotes.Pairwise fun q q' => q.crosses q' = false

/-- The quote `q` rests under `id`, untouched. -/
def Book.Quoted (V : Env) (b : Book) (q : Quote) (id : Nat) : Prop :=
  id ≠ 0 ∧ ∃ i, b.core.find id = some i ∧ i ∈ b.core.queue V q.priceTicks ∧ (b.order i).isActive = true ∧
    (b.order i).side = q.side ∧ (b.order i).totalQty = q.qty ∧ (b.order i).filledQty = 0

section

variable {V : Env} {b b' : Book} {q q' : Quote} {quotes : List Quote} {cid id i n : Nat} {r : Request} {k : Nat} {ids : List Nat}

/-! ## The gates -/

theorem wouldCross_sell (c : Core) (p : Int) : c.wouldCross .sell p ↔ c.bestBid ≠ NO_BID_TICKS ∧ p ≤ c.bestBid := by
  simp [Core.wouldCross, Core.hasBid]

theorem wouldCross_buy (c : Core) (p : Int) : c.wouldCross .buy p ↔ c.bestAsk ≠ NO_ASK_TICKS ∧ c.bestAsk ≤ p := by
  simp [Core.wouldCross, Core.hasAsk]

/-- Once a quote rests, another one crosses the book if it did before or crosses that quote. -/
theorem wouldCross_raise (c : Core) (q' : Quote) (hp : inRange V q.priceTicks) :
    (c.raiseBest q.side q.priceTicks).wouldCross q'.side q'.priceTicks =
      (c.wouldCross q'.side q'.priceTicks || q.crosses q') := by
  obtain ⟨h0, hlt⟩ := hp
  have hgrid := V.levels_int32
  simp only [int32Max] at hgrid
  unfold Core.raiseBest Quote.crosses
  rw [Bool.eq_iff_iff, Bool.or_eq_true]
  cases q.side <;> cases q'.side <;> dsimp only
  · split <;> simp [wouldCross_buy]
  · rw [wouldCross_sell, wouldCross_sell, decide_eq_true_eq]
    split <;> rename_i hraise <;> simp only [NO_BID_TICKS] at hraise ⊢ <;> omega
  · rw [wouldCross_buy, wouldCross_buy, decide_eq_true_eq]
    split <;> rename_i hraise <;> simp only [NO_ASK_TICKS, int32Max] at hraise ⊢ <;> omega
  · split <;> simp [wouldCross_sell]

/-- The book after the bucket of `cid` served one more submission. -/
def Book.metered (V : Env) (b : Book) (cid : Nat) : Book :=
  match b.gates.bucket cid with
  | none => b
  | some rb =>
    { b with
      asked := b.asked + 1
      gates := { b.gates with
        rateBuckets := Function.update b.gates.rateBuckets cid (some (rb.refilled (V.clock b.asked)).spent) } }

theorem meter_none (h : b.gates.bucket cid = none) :
    (if b.gates.rateLimitingEnabled && (!b.gates.inInternalSubmit && cid ≠ 0) then b.consumeRateToken V cid else (true, b)) =
      (true, b) := by
  unfold Gates.bucket at h
  split
  · rename_i hon
    rw [if_pos hon] at h
    unfold Book.consumeRateToken
    rw [h]
  · rfl

theorem meter_some {rb : RateBucket} (h : b.gates.bucket cid = some rb) : ∃ b',
    (if b.gates.rateLimitingEnabled && (!b.gates.inInternalSubmit && cid ≠ 0) then b.consumeRateToken V cid else (true, b)) =
      (decide (1 ≤ (rb.refilled (V.clock b.asked)).tokens), b') ∧
      (1 ≤ (rb.refilled (V.clock b.asked)).tokens → b' = b.metered V cid) := by
  unfold Book.metered
  rw [h]
  unfold Gates.bucket at h
  split at h
  · rename_i hon
    rw [if_pos hon]
    unfold Book.consumeRateToken
    rw [h]
    refine ⟨_, rfl, fun htoken => ?_⟩
    have hok : decide (1 ≤ (rb.refilled (V.clock b.asked)).tokens) = true := decide_eq_true htoken
    unfold RateBucket.refilled at hok
    dsimp only [Book.monoNsNow]
    rw [hok]
    rfl
  · cases h

theorem metered_gates (V : Env) (b : Book) (cid : Nat) :
    (b.metered V cid).gates.mmpEnabled = b.gates.mmpEnabled ∧ (b.metered V cid).gates.mmp = b.gates.mmp ∧
    (b.metered V cid).gates.luldEnabled = b.gates.luldEnabled ∧ (b.metered V cid).gates.luldLowTicks = b.gates.luldLowTicks ∧
    (b.metered V cid).gates.luldHighTicks = b.gates.luldHighTicks ∧ (b.metered V cid).core = b.core := by
  unfold Book.metered
  cases b.gates.bucket cid <;> exact ⟨rfl, rfl, rfl, rfl, rfl, rfl⟩

theorem previewReject_quote (b : Book) (q : Quote) (cid : Nat) : b.previewReject V (Book.quoteRequest cid q) =
    if b.core.wouldCross q.side q.priceTicks = true then some .postOnlyWouldCross else none := by
  simp [Book.previewReject, Book.quoteRequest]

/-- The checks of `limitReject` after the token. -/
def Book.laterReject (V : Env) (b : Book) (external : Bool) (r : Request) : Option RejectReason × Book :=
  if b.gates.mmpEnabled && external && (b.gates.mmp r.clientId).any (·.tripped) then (some .mmpTripped, b)
  else if b.gates.luldEnabled = true ∧ (r.priceTicks < b.gates.luldLowTicks ∨ b.gates.luldHighTicks < r.priceTicks) then
    (some .luldBandBreach, b.luldBreach)
  else (b.previewReject V r, b)

theorem laterReject_none (b : Book) (external : Bool) (r : Request) :
    ((b.laterReject V external r).1 = none ↔
      (b.gates.mmpEnabled && external && (b.gates.mmp r.clientId).any (·.tripped)) = false ∧
      (b.gates.luldEnabled = true → b.gates.luldLowTicks ≤ r.priceTicks ∧ r.priceTicks ≤ b.gates.luldHighTicks) ∧
      b.previewReject V r = none) ∧
    ((b.laterReject V external r).1 = none → (b.laterReject V external r).2 = b) := by
  unfold Book.laterReject
  by_cases hmmp : (b.gates.mmpEnabled && external && (b.gates.mmp r.clientId).any (·.tripped))
  · rw [if_pos hmmp, hmmp]
    simp
  · rw [if_neg hmmp]
    rw [Bool.not_eq_true] at hmmp
    rw [hmmp]
    by_cases hband : b.gates.luldEnabled ∧ (r.priceTicks < b.gates.luldLowTicks ∨ b.gates.luldHighTicks < r.priceTicks)
    · rw [if_pos hband]
      refine ⟨⟨fun hc => absurd hc (some_ne_none _), fun ⟨_, hc, _⟩ => ?_⟩, fun hc => absurd hc (some_ne_none _)⟩
      have hin := hc hband.1
      omega
    · rw [if_neg hband]
      refine ⟨⟨fun hp => ⟨rfl, fun hl => ?_, hp⟩, fun h => h.2.2⟩, fun _ => rfl⟩
      by_contra hout
      exact hband ⟨hl, by omega⟩

theorem previewReject_metered (r : Request) : (b.metered V cid).previewReject V r = b.previewReject V r := by
  unfold Book.metered
  cases b.gates.bucket cid <;> rfl

/-- The checks per client and per band let an order pass exactly if each of them does. -/
theorem limitReject_none (b : Book) (r : Request) :
    ((b.limitReject V r).1 = none ↔
      (∀ rb, b.gates.bucket r.clientId = some rb → 1 ≤ (rb.refilled (V.clock b.asked)).tokens) ∧
      b.gates.stops r.clientId = false ∧
      (b.gates.luldEnabled = true → b.gates.luldLowTicks ≤ r.priceTicks ∧ r.priceTicks ≤ b.gates.luldHighTicks) ∧
      b.previewReject V r = none) ∧
    ((b.limitReject V r).1 = none → (b.limitReject V r).2 = b.metered V r.clientId) := by
  have hlimit : b.limitReject V r =
      let x := if b.gates.rateLimitingEnabled && (!b.gates.inInternalSubmit && r.clientId ≠ 0) then b.consumeRateToken V r.clientId
        else (true, b)
      if !x.1 then (some .rateLimited, x.2) else x.2.laterReject V (!b.gates.inInternalSubmit && r.clientId ≠ 0) r := rfl
  obtain ⟨hen, hmmp, hluld, hlow, hhigh, -⟩ := metered_gates V b r.clientId
  have hlater := laterReject_none (V := V) (b.metered V r.clientId) (!b.gates.inInternalSubmit && r.clientId ≠ 0) r
  rw [hen, hmmp, hluld, hlow, hhigh, previewReject_metered] at hlater
  rw [hlimit]
  cases hbucket : b.gates.bucket r.clientId with
  | none =>
    have hsame : b.metered V r.clientId = b := by
      unfold Book.metered
      rw [hbucket]
    rw [meter_none hbucket]
    rw [hsame] at hlater ⊢
    simpa [Gates.stops] using hlater
  | some rb =>
    obtain ⟨b1, heq, hb1⟩ := meter_some hbucket
    rw [heq]
    by_cases htoken : 1 ≤ (rb.refilled (V.clock b.asked)).tokens
    · rw [hb1 htoken]
      simpa [htoken, Gates.stops] using hlater
    · simp [htoken]

/-- A quote passes the checks of `submit` exactly if the gates let it in. -/
theorem admission_quote (b : Book) (cid : Nat) (hq : 0 < q.qty) (hp : inRange V q.priceTicks) :
    ((b.admission V (Book.quoteRequest cid q)).1 = none ↔ b.AllIn V [q] cid) ∧
    ((b.admission V (Book.quoteRequest cid q)).1 = none → (b.admission V (Book.quoteRequest cid q)).2 = b.metered V cid) := by
  obtain ⟨hiff, hbook⟩ := limitReject_none b (Book.quoteRequest cid q)
  rw [previewReject_quote] at hiff
  unfold Book.admission
  by_cases hphase : b.gates.sessionPhase = .closed
  · rw [if_pos hphase]
    exact ⟨⟨fun hc => absurd hc (some_ne_none _), fun h => absurd hphase h.phase⟩, fun hc => absurd hc (some_ne_none _)⟩
  by_cases hhalt : b.gates.halted
  · rw [if_neg hphase, if_pos hhalt]
    exact ⟨⟨fun hc => absurd hc (some_ne_none _), fun h => absurd (h.halted.symm.trans hhalt) (by decide)⟩,
      fun hc => absurd hc (some_ne_none _)⟩
  have hq' : ¬ (Book.quoteRequest cid q).qty ≤ 0 := not_le.mpr hq
  have hp' : ¬ (¬ inRange V (Book.quoteRequest cid q).priceTicks ∧ (Book.quoteRequest cid q).type ≠ .market) := fun h => h.1 hp
  have hid : ¬ ((Book.quoteRequest cid q).orderId ≠ 0 ∧ (b.core.find (Book.quoteRequest cid q).orderId).isSome) := fun h => h.1 rfl
  rw [if_neg hphase, if_neg hhalt, if_neg hq', if_neg hp', if_neg hid]
  refine ⟨hiff.trans ?_, hbook⟩
  constructor
  · intro ⟨htoken, hmmp, hband, hcross⟩
    refine ⟨hphase, by simpa using hhalt, fun rb hrb => ⟨htoken rb hrb, trivial⟩, hmmp, fun hl q' hq' => ?_, fun q' hq' => ?_,
      pairwise_singleton _ _⟩
    · rw [mem_singleton.mp hq']
      exact hband hl
    · rw [mem_singleton.mp hq']
      simpa using hcross
  · intro h
    refine ⟨fun rb hrb => (h.tokens rb hrb).1, h.protection, fun hl => h.bands hl q (mem_singleton_self q), ?_⟩
    rw [h.clear q (mem_singleton_self q)]
    rfl

/-! ## One quote -/

/-- The quote `q` joined its level between `b` and `b'`, under the next automatic id. -/
structure Joins (V : Env) (b : Book) (q : Quote) (cid k : Nat) (b' : Book) : Prop where
  id : k = b.core.nextOrderId
  next : b'.core.nextOrderId = b.core.nextOrderId + 1
  wf : Wf V b'
  enters : ∃ i o, ¬ b.core.Queued V i ∧ (∀ k, b.core.find k ≠ some i) ∧
    b'.core.queue V = Function.update (b.core.queue V) q.priceTicks (b.core.queue V q.priceTicks ++ [i]) ∧
    b'.core.body = Function.update b.core.body i o ∧ b'.core.idIndex = b.core.idIndex.insert k i ∧
    o.isActive = true ∧ o.side = q.side ∧ o.totalQty = q.qty ∧ o.filledQty = 0
  active : b'.core.activeOrders = b.core.activeOrders + 1
  gates : b'.gates = (b.metered V cid).gates
  asked : b'.asked = (b.metered V cid).asked + 1
  cross : ∀ q' : Quote, b'.core.wouldCross q'.side q'.priceTicks = (b.core.wouldCross q'.side q'.priceTicks || q.crosses q')

theorem metered_regated (V : Env) (b : Book) (cid : Nat) : Regated b (b.metered V cid) := by
  unfold Book.metered
  cases b.gates.bucket cid with
  | none => exact Regated.refl b
  | some rb => exact ⟨_, _, rfl, rfl, rfl⟩

theorem accept_asked (h : b.accept V r = some (i, b')) : b'.asked = b.asked + 1 := by
  unfold Book.accept at h
  dsimp only at h
  split at h
  · cases h
  · cases h
    rfl

theorem wouldCross_congr {c d : Core} (h : ∀ s, c.best s = d.best s) (s : Side) (p : Int) : c.wouldCross s p = d.wouldCross s p := by
  have hs := wouldCross_side c s.other p
  have hd := wouldCross_side d s.other p
  rw [Side.other_other] at hs hd
  rw [Bool.eq_iff_iff, hs, hd, h]

/-- A visible order at rest: the best price of its side follows. -/
theorem restOrder_raises (ht : (b.order i).type ≠ .hidden) (s : Side) :
    (b.restOrder i).core.best s = (b.core.raiseBest (b.order i).side (b.order i).priceTicks).best s := by
  obtain ⟨hother, hown⟩ := rest_best ht rfl
  obtain ⟨hother', hown'⟩ := raiseBest_side b.core (b.order i).side (b.order i).priceTicks
  by_cases e : s = (b.order i).side
  · rw [e, hown, hown']
  · rw [Side.eq_other_of_ne e, hother, hother']

theorem restOrder_gates : (b.restOrder i).gates = b.gates ∧ (b.restOrder i).asked = b.asked := by
  unfold Book.restOrder
  dsimp only
  split <;> exact ⟨rfl, rfl⟩

theorem restOrder_counts : (b.restOrder i).core.activeOrders = b.core.activeOrders := by
  obtain ⟨x, y, hc⟩ := Book.restOrder_core
  rw [hc]
  rfl

theorem metered_same : SameSlots b (b.metered V cid) := by
  obtain ⟨g, a, he, -⟩ := metered_regated V b cid
  rw [he]
  exact .of_core rfl rfl

theorem metered_core : (b.metered V cid).core = b.core := (metered_gates V b cid).2.2.2.2.2

/-- The slot an order is accepted to is nowhere in the book. -/
theorem accept_unplaced (hw : Wf V b) (h : b.accept V r = some (i, b')) : ¬ b.core.Queued V i ∧ ∀ k, b.core.find k ≠ some i := by
  obtain ⟨⟨⟨G, hF, -⟩, -, -⟩, -⟩ := Book.accept_eq hw.links h
  have hlinks := hw.links
  unfold Links at hlinks
  rw [hF] at hlinks
  obtain ⟨hqueue, hstops, -⟩ := hlinks.apart_of_free
  have hnq : ¬ b.core.Queued V i := fun ⟨p, hp⟩ => hqueue p hp
  refine ⟨hnq, fun k hk => ?_⟩
  rcases (hw.found hk).2 with hs | hs
  · exact hstops hs
  · exact hnq hs

/-- An accepted quote comes to rest as it is. -/
theorem quote_joins {b1 : Book} (hw : Wf V b) (hq : 0 < q.qty) (hp : inRange V q.priceTicks)
    (hacc : (b.metered V cid).accept V (Book.quoteRequest cid q) = some (i, b1)) (hf : b1.finish V i = some b') :
    Joins V b q cid (b1.order i).id b' := by
  have hw0 : Wf V (b.metered V cid) := hw.aside metered_same
  have hw1 := (hw0.accept hq hacc).wf hw0
  have hview := hw0.accept_view hacc
  obtain ⟨hqueued, hfind⟩ := accept_unplaced hw0 hacc
  have hi : i ∈ b1.inFlight := by
    rw [accept_inFlight hacc]
    exact mem_cons_self
  have hbody : b1.core.body i = (Book.quoteRequest cid q).order b.core.nextOrderId (V.clock (b.metered V cid).asked) := by
    rw [body_of_view hview]
    change update _ i _ i = _
    rw [update_self, metered_core]
    rfl
  have hprice : (b1.order i).priceTicks = q.priceTicks := congrArg Order.priceTicks hbody
  have hside : (b1.order i).side = q.side := congrArg Order.side hbody
  have htype : (b1.order i).type = .postOnly := congrArg Order.type hbody
  have hrest : b' = b1.restOrder i := by
    have htif : (b1.order i).tif = .day := congrArg Order.tif hbody
    have hfull : ¬ (b1.order i).totalQty ≤ (b1.order i).filledQty := by
      rw [show (b1.order i).totalQty = q.qty from congrArg Order.totalQty hbody,
        show (b1.order i).filledQty = 0 from congrArg Order.filledQty hbody]
      omega
    unfold Book.finish at hf
    rw [if_neg hfull, if_neg (by rw [htype, htif]; decide), if_pos (by rw [hprice]; exact hp)] at hf
    cases hf
    rfl
  rw [metered_core] at hqueued hfind
  have hgrid : inRange V (b1.order i).priceTicks := by
    rw [hprice]
    exact hp
  have hfilled : (b1.core.body i).filledQty = 0 := congrArg Order.filledQty hbody
  have hatRest : (b1.core.body i).atRest = { b1.core.body i with status := .open } := by
    unfold Order.atRest
    rw [if_neg (by omega)]
  have hrested := hw1.restOrder_view hi hgrid
  have hqueue1 : b1.core.queue V = b.core.queue V := by
    rw [queue_of_view hview]
    exact congrArg (fun c : Core => c.queue V) metered_core
  rw [hrest]
  constructor
  case id => exact congrArg Order.id hbody
  case next =>
    rw [rest_nextOrderId, accept_next hacc, metered_core]
    rfl
  case wf =>
    refine (hw1.restOrder hi ?_ hgrid).wf hw1
    rw [show (b1.order i).filledQty = 0 from hfilled, show (b1.order i).totalQty = q.qty from congrArg Order.totalQty hbody]
    exact hq
  case enters =>
    refine ⟨i, (b1.core.body i).atRest, hqueued, hfind, ?_, ?_, ?_, ?_⟩
    · rw [queue_of_view hrested]
      change update (b1.core.queue V) (b1.core.body i).atRest.priceTicks _ = _
      rw [Order.atRest_price, show (b1.core.body i).priceTicks = q.priceTicks from hprice]
      change update (b1.core.queue V) q.priceTicks (b1.core.queue V q.priceTicks ++ [i]) = _
      rw [hqueue1]
    · rw [body_of_view hrested]
      change update b1.core.body i _ = _
      rw [body_of_view hview]
      change update (update (b.metered V cid).core.body i _) i _ = _
      rw [update_idem, metered_core]
    · rw [index_of_view hrested]
      change b1.core.idIndex.insert (b1.core.body i).atRest.id i = _
      rw [index_of_view hview, hatRest]
      change (b.metered V cid).core.idIndex.insert _ i = _
      rw [metered_core]
      rfl
    · rw [hatRest]
      exact ⟨rfl, hside, congrArg Order.totalQty hbody, hfilled⟩
  case active =>
    rw [restOrder_counts, (Book.accept_eq hw0.links hacc).1.rest, metered_core]
  case gates => rw [restOrder_gates.1, (Book.accept_rest hacc).2.2.2.1]
  case asked => rw [restOrder_gates.2, accept_asked hacc]
  case cross =>
    intro q'
    have hraise := restOrder_raises (by rw [htype]; decide)
    have hbest : ∀ s, b1.core.best s = b.core.best s := by
      intro s
      rw [(Book.accept_eq hw0.links hacc).1.rest, metered_core]
      cases s <;> rfl
    rw [wouldCross_congr hraise, hside, hprice, wouldCross_raise _ q' hp, wouldCross_congr hbest]

/-- A quote is refused, or joins its level. -/
theorem quote_course {x : Nat × RejectReason} (hw : Wf V b) (hq : 0 < q.qty) (hp : inRange V q.priceTicks)
    (hroom : b.core.activeOrders < V.MAX_ORDERS) (h : Book.submit V n (Book.quoteRequest cid q) b = some (x, b')) :
    (x.1 = 0 ∧ b'.core = b.core ∧ ¬ b.AllIn V [q] cid) ∨ (b.AllIn V [q] cid ∧ Joins V b q cid x.1 b') := by
  obtain ⟨hin, hmetered⟩ := admission_quote b cid hq hp
  rcases submit_cases hw (.inl trivial) h with ⟨reason, rfl, rfl, hreason⟩ | ⟨i, b1, b2, m, rfl, hc, hmatch⟩
  · refine .inl ⟨rfl, ?_, ?_⟩
    · obtain ⟨g, a, he, -⟩ := (admission_spec).1
      rw [he]
      rfl
    · rcases hreason with hreason | ⟨hnone, hfull, -⟩
      · intro hall
        rw [hin.mpr hall] at hreason
        cases hreason
      · -- a pool with room has a free slot
        exfalso
        rw [hmetered hnone] at hfull
        have hhead := accept_full hfull
        rw [metered_core, hw.links.free.head] at hhead
        have hactive := hw.links.active
        rw [List.head?_eq_none_iff.mp hhead] at hactive
        simp only [length_nil] at hactive
        omega
  · have hnone := hc.passed
    have hacc := hc.accepted
    have hfin := hc.finished
    rw [hmetered hnone] at hacc
    have hno : b1.matchesOnEntry (Book.quoteRequest cid q) = false := rfl
    rw [hno] at hmatch
    cases hmatch
    exact .inr ⟨hin.mp hnone, quote_joins hw hq hp hacc hfin⟩

/-! ## All of them -/

theorem bucket_metered (V : Env) (b : Book) (cid : Nat) : (b.metered V cid).gates.bucket cid =
    (b.gates.bucket cid).map fun rb => (rb.refilled (V.clock b.asked)).spent := by
  unfold Book.metered
  cases h : b.gates.bucket cid with
  | none => exact h
  | some rb =>
    unfold Gates.bucket at h ⊢
    dsimp only
    split at h
    · rename_i hon
      rw [if_pos hon, update_self]
      rfl
    · cases h

theorem gates_metered (V : Env) (b : Book) (cid : Nat) : (b.metered V cid).gates.sessionPhase = b.gates.sessionPhase ∧
    (b.metered V cid).gates.halted = b.gates.halted ∧ (b.metered V cid).gates.stops cid = b.gates.stops cid := by
  unfold Book.metered
  cases b.gates.bucket cid <;> exact ⟨rfl, rfl, rfl⟩

/-- All are let in exactly if the first is, and then the others. -/
theorem allIn_cons (h : b.AllIn V [q] cid) (hj : Joins V b q cid k b') : b.AllIn V (q :: quotes) cid ↔ b'.AllIn V quotes cid := by
  obtain ⟨hphase, hhalted, hstops⟩ := gates_metered V b cid
  obtain ⟨-, -, hluld, hlow, hhigh, -⟩ := metered_gates V b cid
  rw [← hj.gates] at hphase hhalted hstops hluld hlow hhigh
  have hbucket := bucket_metered V b cid
  rw [← hj.gates] at hbucket
  have hasked : ∀ rb, b.gates.bucket cid = some rb → b'.asked = b.asked + 2 := by
    intro rb hrb
    rw [hj.asked]
    unfold Book.metered
    rw [hrb]
  constructor
  · intro hall
    obtain ⟨hfirst, hrest⟩ := pairwise_cons.mp hall.apart
    refine ⟨?_, ?_, fun rb hrb => ?_, ?_, fun hl q' hq' => ?_, fun q' hq' => ?_, hrest⟩
    · rw [hphase]
      exact hall.phase
    · rw [hhalted]
      exact hall.halted
    · rw [hbucket, map_eq_some_iff] at hrb
      obtain ⟨rb0, h0, rfl⟩ := hrb
      rw [hasked rb0 h0]
      exact (hall.tokens rb0 h0).2
    · rw [hstops]
      exact hall.protection
    · rw [hlow, hhigh]
      exact hall.bands (hluld ▸ hl) q' (mem_cons_of_mem _ hq')
    · rw [hj.cross, hall.clear q' (mem_cons_of_mem _ hq'), hfirst q' hq']
      rfl
  · intro hall
    have hclear : ∀ q' ∈ quotes, b.core.wouldCross q'.side q'.priceTicks = false ∧ q.crosses q' = false := by
      intro q' hq'
      have hno := hall.clear q' hq'
      rw [hj.cross, Bool.or_eq_false_iff] at hno
      exact hno
    refine ⟨h.phase, h.halted, fun rb hrb => ⟨(h.tokens rb hrb).1, ?_⟩, h.protection, fun hl q' hq' => ?_, fun q' hq' => ?_,
      pairwise_cons.mpr ⟨fun q' hq' => (hclear q' hq').2, hall.apart⟩⟩
    · rw [← hasked rb hrb]
      exact hall.tokens _ (by rw [hbucket, hrb]; rfl)
    · rcases mem_cons.mp hq' with rfl | hq'
      · exact h.bands hl q' (mem_singleton_self q')
      · rw [← hlow, ← hhigh]
        exact hall.bands (hluld.trans hl) q' hq'
    · rcases mem_cons.mp hq' with rfl | hq'
      · exact h.clear q' (mem_singleton_self q')
      · exact (hclear q' hq').1

theorem Book.AllIn.head (h : b.AllIn V (q :: quotes) cid) : b.AllIn V [q] cid := by
  refine ⟨h.phase, h.halted, fun rb hrb => ⟨(h.tokens rb hrb).1, trivial⟩, h.protection, fun hl q' hq' => ?_, fun q' hq' => ?_,
    pairwise_singleton _ _⟩
  · rw [mem_singleton.mp hq']
    exact h.bands hl q mem_cons_self
  · rw [mem_singleton.mp hq']
    exact h.clear q mem_cons_self

/-- A quote that rests stays as it is while others join under other ids. -/
theorem Joins.keeps {k' : Nat} (hj : Joins V b q' cid k' b') (h : b.Quoted V q k) (hne : k ≠ k') : b'.Quoted V q k := by
  obtain ⟨h0, i, hf, hi, ha, hs, ht, hfl⟩ := h
  obtain ⟨j, o, hnq, -, hqueue, hbody, hindex, -⟩ := hj.enters
  have hij : i ≠ j := by
    intro e
    exact hnq ⟨q.priceTicks, e ▸ hi⟩
  have hsame : b'.core.body i = b.core.body i := by
    rw [hbody, update_of_ne hij]
  refine ⟨h0, i, ?_, ?_, ?_, ?_, ?_, ?_⟩
  · unfold Core.find at hf ⊢
    rw [hindex, AList.lookup_insert_ne hne]
    exact hf
  · rw [hqueue]
    by_cases e : q.priceTicks = q'.priceTicks
    · rw [e, update_self]
      exact mem_append_left _ (e ▸ hi)
    · rw [update_of_ne e]
      exact hi
  · exact (congrArg Order.isActive hsame).trans ha
  · exact (congrArg Order.side hsame).trans hs
  · exact (congrArg Order.totalQty hsame).trans ht
  · exact (congrArg Order.filledQty hsame).trans hfl

theorem Joins.quoted (hj : Joins V b q cid k b') (h0 : k ≠ 0) : b'.Quoted V q k := by
  obtain ⟨i, o, -, -, hqueue, hbody, hindex, ha, hs, ht, hfl⟩ := hj.enters
  have hsame : b'.core.body i = o := by
    rw [hbody, update_self]
  refine ⟨h0, i, ?_, ?_, ?_, ?_, ?_, ?_⟩
  · unfold Core.find
    rw [hindex, AList.lookup_insert]
  · rw [hqueue, update_self]
    exact mem_append_right _ (mem_singleton_self i)
  · exact (congrArg Order.isActive hsame).trans ha
  · exact (congrArg Order.side hsame).trans hs
  · exact (congrArg Order.totalQty hsame).trans ht
  · exact (congrArg Order.filledQty hsame).trans hfl

/-- Quotes that are all let in rest under ascending ids, and what rested keeps resting; only then no id is 0. -/
theorem submitAll_in (hw : Wf V b) (hnext : b.core.nextOrderId ≠ 0) (hv : ∀ q ∈ quotes, 0 < q.qty ∧ inRange V q.priceTicks)
    (hroom : b.core.activeOrders + quotes.length ≤ V.MAX_ORDERS)
    (h : Book.submitAll (Book.submit V n) (quotes.map (Book.quoteRequest cid)) b = some (ids, b')) :
    (b.AllIn V quotes cid → List.Forall₂ (b'.Quoted V) quotes ids ∧ ids.Nodup ∧ (∀ k ∈ ids, b.core.nextOrderId ≤ k) ∧
      ∀ q k, k < b.core.nextOrderId → b.Quoted V q k → b'.Quoted V q k) ∧
    ((∀ k ∈ ids, k ≠ 0) → quotes = [] ∨ b.AllIn V quotes cid) := by
  induction quotes generalizing b ids with
  | nil =>
    cases h
    exact ⟨fun _ => ⟨.nil, nodup_nil, fun k hk => absurd hk not_mem_nil, fun _ _ _ hk => hk⟩, fun _ => .inl rfl⟩
  | cons q quotes ih =>
    obtain ⟨hq, hp⟩ := hv q mem_cons_self
    rw [length_cons] at hroom
    rw [map_cons] at h
    unfold Book.submitAll at h
    cases hs : Book.submit V n (Book.quoteRequest cid q) b with
    | none =>
      rw [hs] at h
      cases h
    | some y =>
      obtain ⟨⟨k, reason⟩, b1⟩ := y
      rw [hs] at h
      obtain ⟨⟨ids', b2⟩, hrest, he⟩ := map_eq_some_iff.mp h
      cases he
      rcases quote_course hw hq hp (by omega) hs with ⟨h0, -, hout⟩ | ⟨hin, hj⟩
      · refine ⟨fun hall => absurd hall.head hout, fun hids => ?_⟩
        exact absurd h0 (hids k mem_cons_self)
      · have hid := hj.id
        have hnext' := hj.next
        have hactive := hj.active
        obtain ⟨hrests, honly⟩ := ih hj.wf (by omega) (fun q' hq' => hv q' (mem_cons_of_mem _ hq')) (by omega) hrest
        constructor
        · intro hall
          obtain ⟨hquoted, hnodup, hge, hkeep⟩ := hrests ((allIn_cons hin hj).mp hall)
          have hk : b'.Quoted V q k := hkeep q k (by omega) (hj.quoted (by omega))
          refine ⟨.cons hk hquoted, nodup_cons.mpr ⟨fun hmem => ?_, hnodup⟩, fun k' hk' => ?_, fun q' k' hlt hk' => ?_⟩
          · have := hge k hmem
            omega
          · rcases mem_cons.mp hk' with rfl | hk'
            · omega
            · have := hge k' hk'
              omega
          · exact hkeep q' k' (by omega) (hj.keeps hk' (by omega))
        · intro hids
          refine .inr ?_
          rcases honly fun k' hk' => hids k' (mem_cons_of_mem _ hk') with rfl | hall
          · exact hin
          · exact (allIn_cons hin hj).mpr hall

theorem quoted_of_mem (h : List.Forall₂ (b.Quoted V) quotes ids) (hk : k ∈ ids) : ∃ q ∈ quotes, b.Quoted V q k := by
  induction h with
  | nil => cases hk
  | cons hq _ ih =>
    rcases mem_cons.mp hk with rfl | hk
    · exact ⟨_, mem_cons_self, hq⟩
    · obtain ⟨q, hmem, hqk⟩ := ih hk
      exact ⟨q, mem_cons_of_mem _ hmem, hqk⟩

/-- All of the quotes rest under the ids that were returned, or 0 was and no order was added. -/
def AllOrNone (V : Env) (b : Book) (quotes : List Quote) (k : Nat) (ids : List Nat) (b' : Book) : Prop :=
  (k = quotes.length ∧ ids.Nodup ∧ List.Forall₂ (b'.Quoted V) quotes ids) ∨ (k = 0 ∧ AddsNone V b b')

/-- The validation turns the array away, or the gates let every quote in. -/
def Book.QuotesPass (V : Env) (b : Book) (quotes : List Quote) (cid : Nat) : Prop :=
  quotes = [] ∨ V.MAX_ORDERS < b.core.activeOrders + quotes.length ∨ quotes.all (Book.Quote.acceptable V b.core) = false ∨
    b.AllIn V quotes cid

end

/-- A mass quote is all or none exactly if it is turned away as a whole or the gates let every quote in. -/
theorem mass_quote_iff {V : Env} {b b' : Book} {quotes : List Quote} {cid : Nat} {x : Outcome}
    (h : Book.Reach V (fun _ _ _ => True) b) (hs : Book.Step V b (.massQuote quotes cid) x b') :
    ∃ k ids, x = .count k ids ∧ (AllOrNone V b quotes k ids b' ↔ b.QuotesPass V quotes cid) := by
  obtain ⟨n, hs⟩ := hs
  obtain ⟨⟨⟨k, ids⟩, b₁⟩, hq, he⟩ := Option.map_eq_some_iff.mp hs
  cases he
  refine ⟨k, ids, rfl, ?_⟩
  unfold Book.massQuote at hq
  unfold Book.QuotesPass AllOrNone
  by_cases hroom : V.MAX_ORDERS < b.core.activeOrders + quotes.length
  · rw [if_pos hroom] at hq
    cases hq
    exact iff_of_true (Or.inr ⟨rfl, fun _ _ hi => hi⟩) (Or.inr (Or.inl hroom))
  · rw [if_neg hroom] at hq
    cases hvalid : quotes.all (Book.Quote.acceptable V b.core) with
    | false =>
      rw [hvalid] at hq
      cases hq
      exact iff_of_true (Or.inr ⟨rfl, fun _ _ hi => hi⟩) (Or.inr (Or.inr (Or.inl rfl)))
    | true =>
      rw [hvalid, if_pos rfl] at hq
      obtain ⟨⟨ids', b₂⟩, hall, he⟩ := Option.map_eq_some_iff.mp hq
      cases he
      have hv : ∀ q ∈ quotes, 0 < q.qty ∧ inRange V q.priceTicks := by
        intro q hq
        have hok := List.all_eq_true.mp hvalid q hq
        simp only [Book.Quote.acceptable, Bool.and_eq_true, decide_eq_true_eq] at hok
        exact hok.1
      obtain ⟨hin, honly⟩ := submitAll_in (Reach.wf h).1 (Reach.nextOrderId_ne_zero h) hv (by omega) hall
      constructor
      · rintro (⟨-, -, hquoted⟩ | ⟨h0, -⟩)
        · have hids : ∀ k ∈ ids, k ≠ 0 := by
            intro k hk
            obtain ⟨q, -, hqk⟩ := quoted_of_mem hquoted hk
            exact hqk.1
          rcases honly hids with hnil | hall
          · exact Or.inl hnil
          · exact Or.inr (Or.inr (Or.inr hall))
        · exact Or.inl (List.length_eq_zero_iff.mp h0)
      · rintro (rfl | hc | hc | hall)
        · cases hall
          exact Or.inr ⟨rfl, fun _ _ hi => hi⟩
        · exact absurd hc hroom
        · cases hc
        · obtain ⟨hquoted, hnodup, -⟩ := hin hall
          exact Or.inl ⟨rfl, hnodup, hquoted⟩

/-- Ten refills of a tenth, a second apart, leave an empty bucket below one token. -/
example : ((fun rb : RateBucket => rb.refilled (rb.lastRefillNs + 1000000000))^[10] ⟨0, 1, toDouble (1 / 10), 0⟩).tokens < 1 := by
  decide +kernel

/-- A bid and an ask below each other, on an empty book. -/
theorem mass_quote_two_sided : ∃ x b' k ids, Book.Step smallEnv (fresh smallEnv) (.massQuote [⟨.buy, 3, 5⟩, ⟨.sell, 4, 5⟩] 1) x b' ∧
    x = .count k ids ∧ k = 2 ∧ AllOrNone smallEnv (fresh smallEnv) [⟨.buy, 3, 5⟩, ⟨.sell, 4, 5⟩] k ids b' := by
  have hrun : (Book.exec smallEnv 3 (.massQuote [⟨.buy, 3, 5⟩, ⟨.sell, 4, 5⟩] 1) (fresh smallEnv)).any
      (fun y => y.1 = .count 2 [1, 2]) = true := by decide +kernel
  obtain ⟨⟨x, b'⟩, hs, hx⟩ := (Option.any_eq_true _ _).mp hrun
  rw [decide_eq_true_eq] at hx
  have hpass : (fresh smallEnv).QuotesPass smallEnv [⟨.buy, 3, 5⟩, ⟨.sell, 4, 5⟩] 1 :=
    Or.inr (Or.inr (Or.inr ⟨by decide, rfl, fun rb hrb => (by cases hrb), rfl, fun hl => (by cases hl), by decide, by decide⟩))
  obtain ⟨k, ids, he, hiff⟩ := mass_quote_iff Book.Reach.init ⟨3, hs⟩
  have hk : k = 2 := by
    rw [show x = _ from hx] at he
    cases he
    rfl
  exact ⟨x, b', k, ids, ⟨3, hs⟩, he, hk, hiff.mpr hpass⟩

/-- Two quotes at one price: the validation looks at the book without the first, and the second is refused. -/
theorem mass_quote_partial : ∃ b', Book.Step smallEnv (fresh smallEnv) (.massQuote [⟨.buy, 4, 5⟩, ⟨.sell, 4, 5⟩] 1) (.count 2 [1, 0]) b' ∧
    ¬ AllOrNone smallEnv (fresh smallEnv) [⟨.buy, 4, 5⟩, ⟨.sell, 4, 5⟩] 2 [1, 0] b' := by
  have hrun : (Book.exec smallEnv 3 (.massQuote [⟨.buy, 4, 5⟩, ⟨.sell, 4, 5⟩] 1) (fresh smallEnv)).any
      (fun y => y.1 = .count 2 [1, 0]) = true := by decide +kernel
  obtain ⟨⟨x, b'⟩, hs, hx⟩ := (Option.any_eq_true _ _).mp hrun
  rw [decide_eq_true_eq] at hx
  have hx' : x = .count 2 [1, 0] := hx
  subst hx'
  refine ⟨b', ⟨3, hs⟩, ?_⟩
  rintro (⟨-, -, hquoted⟩ | ⟨h0, -⟩)
  · obtain ⟨q, -, hq⟩ := quoted_of_mem hquoted (List.mem_cons_of_mem 1 List.mem_cons_self)
    exact hq.1 rfl
  · cases h0

end HftLab.OrderBook
