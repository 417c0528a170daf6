/-
  HftLab.OrderBook.Exposure — account exposure.

  The hooks at submit, fill and cancel keep `open_buy_qty` and `open_sell_qty` equal to what the
  client's live orders have left, plus what was taken off them with no hook: the remainder of an IOC
  order, an in-place decrease, an expiry, an auction fill (`Report.leak`). So the exposure is exact
  if and only if none of these ever happened to the client (`exposure_exact_iff`).
-/

import HftLab.OrderBook.Conservation
import HftLab.OrderBook.SelfTrade
import HftLab.OrderBook.Views
import Mathlib.Algebra.Order.BigOperators.Group.List
import Mathlib.Algebra.Order.Group.Int

namespace HftLab.OrderBook

open Lib List

/-! ## What a report is worth to a client -/

/-- What the order keeps open for client `c` on `side`. -/
def Order.owed (o : Order) (c : Nat) (side : Side) : Int :=
  if o.clientId = c ∧ o.side = side then o.remainingQty else 0

/-- `q`, if the order is a BUY of client `c`; `-q`, if it is a SELL. -/
def Order.signed (o : Order) (c : Nat) (q : Int) : Int :=
  if o.clientId = c then (match o.side with | .buy => q | .sell => -q) else 0

/-- The open quantity that went without a hook. -/
def Report.leak (c : Nat) (side : Side) : Report → Int
  | .iocCancel o | .expire o => o.owed c side
  | .reduce o newQty => if o.clientId = c ∧ o.side = side then o.totalQty - newQty else 0
  | .auctionFill o q => if o.clientId = c ∧ o.side = side then q else 0
  | _ => 0

/-- The report of a transition of an order of client `c` that has no exposure hook. -/
def Report.unhooked (c : Nat) : Report → Bool
  | .iocCancel o | .expire o | .reduce o _ | .auctionFill o _ => o.clientId = c
  | _ => false

/-- Bought minus sold by client `c`, in the executions of the matching loop. -/
def Report.matched (c : Nat) : Report → Int
  | .fill m t q => m.signed c q + t.signed c q
  | _ => 0

/-- Bought minus sold by client `c`, in all executions. -/
def Report.net (c : Nat) : Report → Int
  | .fill m t q => m.signed c q + t.signed c q
  | .auctionFill o q => o.signed c q
  | _ => 0

def AccountExposure.openQty (ex : AccountExposure) : Side → Int
  | .buy => ex.openBuyQty
  | .sell => ex.openSellQty

/-- The remaining quantity of the live orders of client `c` on `side`. -/
def Book.liveQty (V : Env) (b : Book) (c : Nat) (side : Side) : Int :=
  ((b.core.restingSlots V ++ b.core.stopOrders).map fun i => (b.order i).owed c side).sum

/-- What `get_account_exposure(c)` promises. -/
structure ExposureExact (V : Env) (b : Book) (c : Nat) : Prop where
  buy : (b.getAccountExposure c).openBuyQty = b.liveQty V c .buy
  sell : (b.getAccountExposure c).openSellQty = b.liveQty V c .sell
  net : (b.getAccountExposure c).filledNetQty = (b.log.map (Report.net c)).sum

/-! ## The hooks -/

section

variable {b b' : Book} {c cid i t : Nat} {side s : Side} {q p : Int} {f : AccountExposure → AccountExposure} {V : Env}
    {o o' : Order} {e : Report} {k : Kind}

theorem updExposure_of_ne (h : cid ≠ c) : (b.updExposure cid f).exposure c = b.exposure c := by
  unfold Book.updExposure
  dsimp only
  split
  · rfl
  · rw [Function.update_of_ne (Ne.symm h)]

theorem updExposure_self (h : c ≠ 0) : (b.updExposure c f).exposure c = f (b.exposure c) := by
  unfold Book.updExposure
  dsimp only
  rw [if_neg h, Function.update_self]

/-- A quantity that the update of a client moves by `q`. -/
theorem updExposure_moves {g : AccountExposure → Int} (hc : c ≠ 0) (hf : ∀ e, g (f e) = g e + q) :
    g ((b.updExposure cid f).exposure c) = g (b.exposure c) + (if cid = c then q else 0) := by
  by_cases e : cid = c
  · subst e
    rw [updExposure_self hc, hf, if_pos rfl]
  · rw [updExposure_of_ne e, if_neg e, Int.add_zero]

theorem onSubmit_open (hc : c ≠ 0) : ((b.exposureOnSubmit cid s q).exposure c).openQty side =
    (b.exposure c).openQty side + (if cid = c ∧ s = side then q else 0) := by
  rw [ite_and]
  exact updExposure_moves (g := fun e => e.openQty side) hc fun e => by cases s <;> cases side <;> simp [AccountExposure.openQty]

theorem onSubmit_net (hc : c ≠ 0) :
    ((b.exposureOnSubmit cid s q).exposure c).filledNetQty = (b.exposure c).filledNetQty := by
  refine (updExposure_moves (g := AccountExposure.filledNetQty) (q := 0) hc fun e => ?_).trans (by simp)
  cases s <;> simp

theorem onCancel_open (hc : c ≠ 0) : ((b.exposureOnCancel cid s q).exposure c).openQty side =
    (b.exposure c).openQty side - (if cid = c ∧ s = side then q else 0) := by
  refine (updExposure_moves (g := fun e => e.openQty side) (q := -(if s = side then q else 0)) hc fun e => ?_).trans ?_
  · cases s <;> cases side <;> simp [AccountExposure.openQty, sub_eq_add_neg]
  · rw [ite_and]
    split <;> omega

theorem onCancel_net (hc : c ≠ 0) :
    ((b.exposureOnCancel cid s q).exposure c).filledNetQty = (b.exposure c).filledNetQty := by
  refine (updExposure_moves (g := AccountExposure.filledNetQty) (q := 0) hc fun e => ?_).trans (by simp)
  cases s <;> simp

theorem onFill_open (hc : c ≠ 0) : ((b.exposureOnFill cid s q).exposure c).openQty side =
    (b.exposure c).openQty side - (if cid = c ∧ s = side then q else 0) := by
  refine (updExposure_moves (g := fun e => e.openQty side) (q := -(if s = side then q else 0)) hc fun e => ?_).trans ?_
  · cases s <;> cases side <;> simp [AccountExposure.openQty, sub_eq_add_neg]
  · rw [ite_and]
    split <;> omega

theorem onFill_net (hc : c ≠ 0) : ((b.exposureOnFill cid s q).exposure c).filledNetQty =
    (b.exposure c).filledNetQty + (if cid = c then (match s with | .buy => q | .sell => -q) else 0) :=
  updExposure_moves (g := AccountExposure.filledNetQty) hc fun e => by cases s <;> simp [sub_eq_add_neg]

/-- The volume tags leave the open and the net quantity alone. -/
theorem tags_open {x y : Nat} (side : Side) (hc : c ≠ 0) :
    (((b.tagAggressorVolume x q).tagPassiveVolume y q).exposure c).openQty side = (b.exposure c).openQty side ∧
    (((b.tagAggressorVolume x q).tagPassiveVolume y q).exposure c).filledNetQty = (b.exposure c).filledNetQty := by
  have h1 : ∀ (b : Book) (x : Nat) (f : AccountExposure → AccountExposure),
      (∀ ex, (f ex).openQty side = ex.openQty side ∧ (f ex).filledNetQty = ex.filledNetQty) →
      ((b.updExposure x f).exposure c).openQty side = (b.exposure c).openQty side ∧
      ((b.updExposure x f).exposure c).filledNetQty = (b.exposure c).filledNetQty := by
    intro b x f hf
    by_cases e : x = c
    · subst e
      rw [updExposure_self hc]
      exact hf _
    · rw [updExposure_of_ne e]
      exact ⟨rfl, rfl⟩
  have ha := h1 b x (fun ex => { ex with aggressiveVolume := ex.aggressiveVolume + q }) fun ex => by
    cases side <;> exact ⟨rfl, rfl⟩
  have hp := h1 (b.tagAggressorVolume x q) y (fun ex => { ex with passiveVolume := ex.passiveVolume + q }) fun ex => by
    cases side <;> exact ⟨rfl, rfl⟩
  exact ⟨hp.1.trans ha.1, hp.2.trans ha.2⟩

/-! ## The sum over the live orders -/

open Classical in
/-- What slot `i` keeps open: the rest of the order, if it is in a queue or in flight. -/
noncomputable def Book.weight (V : Env) (b : Book) (c : Nat) (side : Side) (i : Nat) : Int :=
  if b.core.Queued V i ∨ i ∈ b.inFlight then (b.core.body i).owed c side else 0

noncomputable def Book.openSum (V : Env) (b : Book) (c : Nat) (side : Side) : Int :=
  ∑ i ∈ Finset.range V.MAX_ORDERS, b.weight V c side i

theorem weight_live (h : b.core.Queued V i ∨ i ∈ b.inFlight) : b.weight V c side i = (b.core.body i).owed c side := if_pos h

theorem weight_dead (h : ¬ b.core.Queued V i) (h' : i ∉ b.inFlight) : b.weight V c side i = 0 := if_neg (by tauto)

theorem Moves.weight {T : List Nat} (h : Moves V T b b') (hi : i ∉ T) : b'.weight V c side i = b.weight V c side i := by
  have hm := or_congr (h.queued hi) (h.flight i hi)
  by_cases hl : b.core.Queued V i ∨ i ∈ b.inFlight
  · rw [weight_live hl, weight_live (hm.mpr hl), h.body i hi]
  · have hl' := fun h' => hl (hm.mp h')
    rw [not_or] at hl
    rw [weight_dead hl.1 hl.2, weight_dead (fun h' => hl' (.inl h')) (fun h' => hl' (.inr h'))]

theorem Moves.openSum (h : Moves V [i] b b') (hi : i < V.MAX_ORDERS) :
    b'.openSum V c side = b.openSum V c side + (b'.weight V c side i - b.weight V c side i) :=
  sum_range_change hi fun _ hj => h.weight (by simpa using hj)

theorem Moves.openSum₂ (h : Moves V [t, i] b b') (ht : t < V.MAX_ORDERS) (hi : i < V.MAX_ORDERS) (hne : i ≠ t) :
    b'.openSum V c side = b.openSum V c side + (b'.weight V c side t - b.weight V c side t) +
      (b'.weight V c side i - b.weight V c side i) :=
  sum_range_change₂ ht hi hne.symm fun _ hj hj' => h.weight (by simp [hj, hj'])

theorem SameSlots.openSum (h : SameSlots b b') (hw : Wf V b) : b'.openSum V c side = b.openSum V c side :=
  Finset.sum_congr rfl fun _ _ => (h.lawful hw).moves.weight (by simp)

theorem Wf.bound (h : Wf V b) (hi : i ∈ b.core.queue V p) : i < V.MAX_ORDERS := Layout.bound h.links hi

theorem Wf.bound_flying (h : Wf V b) (hi : i ∈ b.inFlight) : i < V.MAX_ORDERS :=
  Layout.bound_out h.links (mem_append_right _ hi)

/-- A live order leaves: what it had left is no longer open. -/
theorem Releases.openSum (h : Releases V i b b') (hi : i < V.MAX_ORDERS) (hl : b.core.Queued V i ∨ i ∈ b.inFlight) :
    b'.openSum V c side = b.openSum V c side - (b.core.body i).owed c side := by
  rw [h.moves.openSum hi, weight_dead h.gone.queued h.gone.flight, weight_live hl]
  omega

/-- The live order in slot `i` is another one now. -/
theorem Lawful.openSum (h : Lawful V [i] b b') (hi : i < V.MAX_ORDERS) (hl : b.core.Queued V i ∨ i ∈ b.inFlight)
    (hl' : b'.core.Queued V i ∨ i ∈ b'.inFlight) :
    b'.openSum V c side = b.openSum V c side + ((b'.core.body i).owed c side - (b.core.body i).owed c side) := by
  rw [h.moves.openSum hi, weight_live hl, weight_live hl']

theorem owed_congr (h1 : o'.clientId = o.clientId) (h2 : o'.side = o.side) (h3 : o'.remainingQty = o.remainingQty) :
    o'.owed c side = o.owed c side := by
  unfold Order.owed
  rw [h1, h2, h3]

theorem owed_minus (h1 : o'.clientId = o.clientId) (h2 : o'.side = o.side) (h3 : o'.remainingQty = o.remainingQty - q) :
    o'.owed c side = o.owed c side - (if o.clientId = c ∧ o.side = side then q else 0) := by
  unfold Order.owed
  rw [h1, h2, h3]
  split <;> omega

/-! ## Acts and the accounts -/

/-- The report of a loss names a loss. -/
def Report.Sound (c : Nat) (e : Report) : Prop :=
  (∀ side, 0 ≤ e.leak c side) ∧ (e.unhooked c = true → ∃ side, 0 < e.leak c side)

/-- An act that reports `l` changes the exposure of client `c` by what the live orders changed, but
    for the leaks. -/
structure Booked (V : Env) (c : Nat) (b b' : Book) (l : List Report) : Prop where
  log : b'.log = l ++ b.log
  openQty : ∀ side, (b'.exposure c).openQty side - b'.openSum V c side =
    (b.exposure c).openQty side - b.openSum V c side + (l.map (Report.leak c side)).sum
  net : (b'.exposure c).filledNetQty = (b.exposure c).filledNetQty + (l.map (Report.matched c)).sum
  sound : ∀ e ∈ l, e.Sound c

/-- Nothing is reported, and no account moves. -/
theorem Booked.silent (hl : b'.log = b.log) (he : b'.exposure = b.exposure)
    (hs : ∀ side, b'.openSum V c side = b.openSum V c side) : Booked V c b b' [] := by
  refine ⟨hl, fun side => ?_, ?_, by simp⟩
  · rw [he, hs side]
    simp
  · rw [he]
    simp

/-- One report. -/
theorem Booked.one (hl : b'.log = e :: b.log)
    (ho : ∀ side, (b'.exposure c).openQty side - b'.openSum V c side = (b.exposure c).openQty side - b.openSum V c side + e.leak c side)
    (hn : (b'.exposure c).filledNetQty = (b.exposure c).filledNetQty + e.matched c) (hs : e.Sound c) : Booked V c b b' [e] := by
  refine ⟨hl, ?_, ?_, ?_⟩
  · simpa using ho
  · simpa using hn
  · simpa using hs

theorem Report.sound_of (h : ∀ side, e.leak c side = 0) (h' : e.unhooked c = false) : e.Sound c :=
  ⟨fun side => by rw [h], fun hu => by rw [h'] at hu; cases hu⟩

/-- A loss of `q` by the order `o`. -/
theorem Report.sound_loss (hq : 0 < q) (hl : ∀ side, e.leak c side = if o.clientId = c ∧ o.side = side then q else 0)
    (hu : e.unhooked c = decide (o.clientId = c)) : e.Sound c := by
  refine ⟨fun side => ?_, fun h => ⟨o.side, ?_⟩⟩
  · rw [hl]
    split <;> omega
  · rw [hu] at h
    rw [hl, if_pos ⟨of_decide_eq_true h, rfl⟩]
    exact hq

theorem cancel_booked (hw : Wf V b) (hi : i ∈ b.core.queue V p) (e : Bool) (hc : c ≠ 0) :
    Booked V c b (b.cancelInternal V i e) [if e then .cancel (b.order i) else .replace (b.order i)] := by
  obtain ⟨hlog, hex, -⟩ := Book.cancelInternal_rest e (hw.resting hi).active
  have hsum : ∀ side, (b.cancelInternal V i e).openSum V c side = b.openSum V c side - (b.core.body i).owed c side :=
    fun side => (hw.cancelInternal hi e).openSum (hw.bound hi) (.inl ⟨p, hi⟩)
  have hleak : ∀ side, (if e then Report.cancel (b.order i) else .replace (b.order i)).leak c side = 0 := by
    cases e <;> exact fun _ => rfl
  refine Booked.one hlog (fun side => ?_) ?_ (Report.sound_of hleak (by cases e <;> rfl))
  · rw [hex, onCancel_open hc, hsum, hleak]
    show _ - (b.core.body i).owed c side - _ = _
    omega
  · rw [hex, onCancel_net hc]
    cases e <;> simp [Report.matched]

theorem accept_booked (hw : Wf V b) {r : Request} (hr : 0 < r.qty) (ha : b.accept V r = some (i, b')) (hc : c ≠ 0) :
    Booked V c b b' [.accept (b'.order i)] := by
  have hlaw := hw.accept hr ha
  have hview := hw.accept_view ha
  obtain ⟨⟨⟨G, hF, hl⟩, -, -⟩, hx⟩ := Book.accept_eq hw.links ha
  have hfree := Layout.apart_of_free
    (by have := hw.links; unfold Links at this; rwa [hF] at this)
  have hbody : b'.core.body i = r.order (b.core.newId r.orderId) (V.clock b.asked) := by
    rw [body_of_view hview]
    simp [Book.view, View.setBody]
  have hi : i ∈ b'.inFlight := by
    rw [hx]
    exact mem_cons_self
  have hout : ¬ b.core.Queued V i := by
    intro h
    obtain ⟨p, hp⟩ := h
    exact hfree.1 p hp
  have hsum : ∀ side, b'.openSum V c side = b.openSum V c side +
      (if r.clientId = c ∧ r.side = side then r.qty else 0) := by
    intro side
    rw [hlaw.moves.openSum (hlaw.wf hw |>.bound_flying hi), weight_live (.inr hi),
      weight_dead hout hfree.2.2, hbody]
    show _ + ((if r.clientId = c ∧ r.side = side then r.qty - 0 else 0) - 0) = _
    simp
  obtain ⟨hlog, hex, -⟩ := Book.accept_rest ha
  have ho : (b'.order i).clientId = r.clientId ∧ (b'.order i).side = r.side ∧ (b'.order i).totalQty = r.qty :=
    ⟨congrArg Order.clientId hbody, congrArg Order.side hbody, congrArg Order.totalQty hbody⟩
  refine Booked.one hlog (fun side => ?_) ?_ (Report.sound_of (fun _ => rfl) rfl)
  · rw [hex, onSubmit_open hc, hsum, ho.1, ho.2.1, ho.2.2]
    show _ = _ + 0
    omega
  · rw [hex, onSubmit_net hc]
    simp [Report.matched]

theorem updExposure_congr (h : b'.exposure = b.exposure) (x : Nat) (f : AccountExposure → AccountExposure) :
    (b'.updExposure x f).exposure = (b.updExposure x f).exposure := by
  unfold Book.updExposure
  rw [h]

theorem exec_exposure {ts : Nat} : (b.executed V p t ts i q).exposure =
    ((((b.exposureOnFill (b.order i).clientId (b.order i).side q).exposureOnFill (b.order t).clientId (b.order t).side
      q).tagAggressorVolume (b.order t).clientId q).tagPassiveVolume (b.order i).clientId q).exposure := by
  have hsettle : ∀ d : Book, (d.settleMaker p t i q).exposure = d.exposure := by
    intro d
    unfold Book.settleMaker
    dsimp only
    split
    · rfl
    · split <;> rfl
  have hfill : (b.fillMaker V p t i q ts).exposure =
      ((((b.exposureOnFill (b.order i).clientId (b.order i).side q).exposureOnFill (b.order t).clientId (b.order t).side
        q).tagAggressorVolume (b.order t).clientId q).tagPassiveVolume (b.order i).clientId q).exposure := by
    show (Book.tagPassiveVolume _ _ _).exposure = _
    refine updExposure_congr ?_ _ _
    refine updExposure_congr ?_ _ _
    show (Book.exposureOnFill _ _ _ _).exposure = _
    refine updExposure_congr ?_ _ _
    exact updExposure_congr rfl _ _
  exact (hsettle _).trans hfill

/-- Both sides of an execution are booked. -/
theorem exec_booked (hw : Wf V b) (hi : i ∈ b.core.queue V p) (ht : t ∈ b.inFlight) (ts : Nat) (hq0 : 0 ≤ q)
    (hqi : q ≤ (b.core.body i).displayedQty) (hqt : q ≤ (b.core.body t).totalQty - (b.core.body t).filledQty) (hc : c ≠ 0) :
    Booked V c b (b.executed V p t ts i q) [.fill (b.order i) (b.order t) q] := by
  have hne := hw.flying_ne_queued hi ht
  have hlaw : Lawful V [t, i] b (b.executed V p t ts i q) := hw.executed hi ht hq0 hqi hqt
  have hlog : (b.executed V p t ts i q).log = .fill (b.order i) (b.order t) q :: b.log := executed_prints.log
  have hx : (b.executed V p t ts i q).inFlight = b.inFlight := executed_inFlight
  have htb : (b.executed V p t ts i q).core.body t = (b.core.body t).tookBy q := executed_taker hw hi ht
  have htw : ∀ side, (b.executed V p t ts i q).weight V c side t = (b.core.body t).owed c side -
      (if (b.core.body t).clientId = c ∧ (b.core.body t).side = side then q else 0) := by
    intro side
    rw [weight_live (.inr (hx ▸ ht)), htb]
    exact owed_minus rfl rfl (Order.tookBy_remaining _ q)
  -- whatever becomes of the maker, it has `q` less open
  have hiw : ∀ side, (b.executed V p t ts i q).weight V c side i = (b.core.body i).owed c side -
      (if (b.core.body i).clientId = c ∧ (b.core.body i).side = side then q else 0) := by
    intro side
    have hr := hw.resting hi
    have hhid := hr.hidden
    unfold Order.hiddenQty at hhid
    cases hw.executed_view hi ht ts q with
    | refresh shown _ _ _ _ hv =>
      have hb : (b.executed V p t ts i q).core.body i = { (b.core.body i).filledBy q with displayedQty := shown } := by
        rw [body_of_view hv]
        simp [Book.view, View.refresh, View.exchange]
      have hq' : (b.executed V p t ts i q).core.Queued V i := by
        refine ⟨p, ?_⟩
        rw [queue_of_view hv]
        simp [View.refresh]
      rw [weight_live (.inl hq'), hb]
      exact owed_minus rfl rfl ((b.core.body i).filledBy_remaining q)
    | complete hdone hv =>
      have hrem : (b.core.body i).remainingQty = q := by
        unfold Order.remainingQty
        omega
      have hg : ¬ (b.executed V p t ts i q).core.Queued V i := hw.not_queued_of_erase hi (queue_of_view hv)
      have hnf : i ∉ (b.executed V p t ts i q).inFlight := fun hm =>
        hw.links.apart p i hi (mem_append_right _ (hx ▸ hm))
      rw [weight_dead hg hnf]
      unfold Order.owed
      rw [hrem]
      omega
    | partial_ _ _ hv =>
      have hb : (b.executed V p t ts i q).core.body i =
          { (b.core.body i).filledBy q with status := .partiallyFilled } := by
        rw [body_of_view hv]
        simp [Book.view, View.setBody]
      have hq' : (b.executed V p t ts i q).core.Queued V i := by
        refine ⟨p, ?_⟩
        rw [queue_of_view hv]
        exact hi
      rw [weight_live (.inl hq'), hb]
      exact owed_minus rfl rfl ((b.core.body i).filledBy_remaining q)
  refine Booked.one hlog (fun side => ?_) ?_ (Report.sound_of (fun _ => rfl) rfl)
  · rw [hlaw.moves.openSum₂ (hw.bound_flying ht) (hw.bound hi) hne, htw, hiw, weight_live (.inr ht),
      weight_live (.inl ⟨p, hi⟩), exec_exposure, (tags_open side hc).1, onFill_open hc, onFill_open hc]
    show _ - (if (b.core.body i).clientId = c ∧ (b.core.body i).side = side then q else 0) -
      (if (b.core.body t).clientId = c ∧ (b.core.body t).side = side then q else 0) - _ = _ + 0
    omega
  · rw [exec_exposure, (tags_open .buy hc).2, onFill_net hc, onFill_net hc]
    show _ + _ + _ = _ + ((b.order i).signed c q + (b.order t).signed c q)
    unfold Order.signed
    omega

theorem finishFilled_booked (hw : Wf V b) (hi : i ∈ b.inFlight)
    (hd : (b.core.body i).totalQty ≤ (b.core.body i).filledQty) :
    Booked V c b (b.finishFilled i) [.takerFilled (b.order i)] := by
  have hleft := ((hw.placed i).flying hi).left
  have hrem : ∀ side, (b.core.body i).owed c side = 0 := by
    intro side
    unfold Order.owed Order.remainingQty
    split <;> omega
  have hsum : ∀ side, (b.finishFilled i).openSum V c side = b.openSum V c side := fun side => by
    rw [(hw.finishFilled hi).openSum (hw.bound_flying hi) (.inr hi), hrem]
    omega
  refine Booked.one rfl (fun side => ?_) ?_ (Report.sound_of (fun _ => rfl) rfl)
  · rw [hsum]
    exact (Int.add_zero _).symm
  · exact (Int.add_zero _).symm

theorem finishIoc_booked (hw : Wf V b) (hi : i ∈ b.inFlight)
    (hlt : (b.core.body i).filledQty < (b.core.body i).totalQty) :
    Booked V c b (b.finishIoc i) [.iocCancel (b.order i)] := by
  refine Booked.one rfl (fun side => ?_) (Int.add_zero _).symm ?_
  · rw [(hw.finishIoc hi).openSum (hw.bound_flying hi) (.inr hi)]
    show _ - (_ - (b.core.body i).owed c side) = _ - _ + (b.core.body i).owed c side
    have : (b.finishIoc i).exposure = b.exposure := rfl
    rw [this]
    omega
  · refine Report.sound_loss (q := (b.core.body i).remainingQty) ?_ (fun _ => rfl) rfl
    unfold Order.remainingQty
    omega

theorem Order.atRest_owed (o : Order) : o.atRest.owed c side = o.owed c side := by
  unfold Order.atRest
  split
  · exact owed_congr rfl rfl rfl
  · exact owed_congr rfl rfl rfl

theorem rest_booked (hw : Wf V b) (hi : i ∈ b.inFlight) (hlt : (b.core.body i).filledQty < (b.core.body i).totalQty)
    (hr : inRange V (b.core.body i).priceTicks) : Booked V c b (b.restOrder i) [.rest (b.order i).atRest] := by
  have hlaw := hw.restOrder hi hlt hr
  have hview := hw.restOrder_view hi hr
  have hb : (b.restOrder i).core.body i = (b.core.body i).atRest := by
    rw [body_of_view hview]
    simp [Book.view, View.settle]
  have hq : (b.restOrder i).core.Queued V i := by
    refine ⟨(b.core.body i).atRest.priceTicks, ?_⟩
    rw [queue_of_view hview]
    simp [View.settle]
  have hex : (b.restOrder i).exposure = b.exposure := by
    unfold Book.restOrder
    dsimp only
    split <;> rfl
  refine Booked.one restOrder_prints.log (fun side => ?_) ?_ (Report.sound_of (fun _ => rfl) rfl)
  · rw [hlaw.openSum (hw.bound_flying hi) (.inr hi) (.inl hq), hb, Order.atRest_owed, hex]
    show _ = _ + 0
    omega
  · rw [hex]
    exact (Int.add_zero _).symm

theorem reduce_booked (hw : Wf V b) {id : Nat} (hf : b.core.find id = some i) (hi : i ∈ b.core.queue V p)
    (hlt : q < (b.core.body i).totalQty) (hq : (b.core.body i).filledQty < q) :
    Booked V c b (b.reduceInPlace id i q) [.reduce (b.order i) q] := by
  have hlaw := hw.reduceInPlace hf hq
  have hview := hw.reduceInPlace_view (i := i) id q
  have hb : (b.reduceInPlace id i q).core.body i = (b.core.body i).reduced q := by
    rw [body_of_view hview]
    simp [Book.view, View.setBody]
  have hq' : (b.reduceInPlace id i q).core.Queued V i := by
    refine ⟨p, ?_⟩
    rw [queue_of_view hview]
    exact hi
  have howed : ∀ side, ((b.core.body i).reduced q).owed c side = (b.core.body i).owed c side -
      (if (b.core.body i).clientId = c ∧ (b.core.body i).side = side then (b.core.body i).totalQty - q else 0) := by
    intro side
    refine owed_minus rfl rfl ?_
    unfold Order.reduced Order.remainingQty
    dsimp only
    omega
  refine Booked.one rfl (fun side => ?_) (Int.add_zero _).symm ?_
  · rw [hlaw.openSum (hw.bound hi) (.inl ⟨p, hi⟩) (.inl hq'), hb, howed]
    show (b.exposure c).openQty side - _ = _ - _ +
      (if (b.core.body i).clientId = c ∧ (b.core.body i).side = side then (b.core.body i).totalQty - q else 0)
    omega
  · exact Report.sound_loss (q := (b.core.body i).totalQty - q) (by omega) (fun _ => rfl) rfl

theorem expire_booked (hw : Wf V b) (hi : i ∈ b.core.queue V p) :
    Booked V c b (b.expireOrder V i) [.expire (b.order i)] := by
  have hlt := (hw.resting hi).left
  refine Booked.one rfl (fun side => ?_) (Int.add_zero _).symm ?_
  · rw [(hw.expireOrder hi).openSum (hw.bound hi) (.inl ⟨p, hi⟩)]
    show (b.exposure c).openQty side - (_ - (b.core.body i).owed c side) = _ - _ + (b.core.body i).owed c side
    omega
  · refine Report.sound_loss (q := (b.core.body i).remainingQty) ?_ (fun _ => rfl) rfl
    unfold Order.remainingQty
    omega

theorem auction_booked (hw : Wf V b) (hi : i ∈ b.core.queue V p) (clearing : Int) {take : Int} (ts : Nat) (hpos : 0 < take)
    (hle : take ≤ (b.core.body i).totalQty - (b.core.body i).filledQty) :
    Booked V c b (b.auctionTake p clearing i take ts) [.auctionFill (b.order i) take] := by
  have hlaw : Lawful V [i] b (b.auctionTake p clearing i take ts) := hw.auctionTake hi (Int.le_of_lt hpos) hle
  have hx := b.auctionTake_inFlight p clearing i take ts
  have hrest : (b.auctionTake p clearing i take ts).log = .auctionFill (b.order i) take :: b.log ∧
      (b.auctionTake p clearing i take ts).exposure = b.exposure := by
    unfold Book.auctionTake
    dsimp only
    split <;> exact ⟨rfl, rfl⟩
  have hwt : ∀ side, (b.auctionTake p clearing i take ts).weight V c side i = (b.core.body i).owed c side -
      (if (b.core.body i).clientId = c ∧ (b.core.body i).side = side then take else 0) := by
    intro side
    cases hw.auctionTake_view hi clearing take ts with
    | complete hdone hv =>
      have hrem : (b.core.body i).remainingQty = take := by
        unfold Order.remainingQty
        omega
      have hg : ¬ (b.auctionTake p clearing i take ts).core.Queued V i := hw.not_queued_of_erase hi (queue_of_view hv)
      have hnf : i ∉ (b.auctionTake p clearing i take ts).inFlight := fun hm =>
        hw.links.apart p i hi (mem_append_right _ (hx ▸ hm))
      rw [weight_dead hg hnf]
      unfold Order.owed
      rw [hrem]
      omega
    | partial_ _ hv =>
      have hb : (b.auctionTake p clearing i take ts).core.body i =
          { (b.core.body i).auctioned take with status := .partiallyFilled } := by
        rw [body_of_view hv]
        simp [Book.view, View.setBody]
      have hq' : (b.auctionTake p clearing i take ts).core.Queued V i := by
        refine ⟨p, ?_⟩
        rw [queue_of_view hv]
        exact hi
      rw [weight_live (.inl hq'), hb]
      refine owed_minus rfl rfl ?_
      unfold Order.auctioned Order.remainingQty
      dsimp only
      omega
  refine Booked.one hrest.1 (fun side => ?_) ?_ ?_
  · rw [hlaw.moves.openSum (hw.bound hi), hwt, weight_live (.inl ⟨p, hi⟩), hrest.2]
    show _ = _ - _ + (if (b.core.body i).clientId = c ∧ (b.core.body i).side = side then take else 0)
    omega
  · rw [hrest.2]
    exact (Int.add_zero _).symm
  · exact Report.sound_loss hpos (fun _ => rfl) rfl

/-- The calls that know nothing of stops never make one. -/
theorem Act.stops_nil (h : Act V k b b') (hk : plainKinds False k) (hw : Wf V b) (hn : b.core.stopOrders = []) :
    b'.core.stopOrders = [] := by
  have hv : (b'.view V).stops = (b.view V).stops := by
    cases h with
    | aux hs _ _ _ => rw [hs.view]
    | config hs _ _ _ _ _ => rw [hs.view]
    | accept r i _ _ ha => rw [hw.accept_view ha]; rfl
    | exec p t ts i qty hm =>
      cases hw.executed_view hm.queued hm.flying ts (min qty (b.core.body i).displayedQty) with
      | refresh _ _ _ _ _ hv => rw [hv]; rfl
      | complete _ hv => rw [hv]; rfl
      | partial_ _ _ hv => rw [hv]; rfl
    | cancel p i hi => rw [hw.cancelInternal_view hi]; rfl
    | replace p i hi => rw [hw.cancelInternal_view hi]; rfl
    | unwait i hi => rw [hn] at hi; cases hi
    | rest i hi _ hr => rw [hw.restOrder_view hi hr]; rfl
    | expire p i hi => rw [hw.expireOrder_view hi]; rfl
    | auction p clearing i take ts hi _ _ =>
      cases hw.auctionTake_view hi clearing take ts with
      | complete _ hv => rw [hv]; rfl
      | partial_ _ hv => rw [hv]; rfl
    | stpAbort | stpCancel | finishFilled | finishIoc | reduce | touch | oco => rfl
    | wait | peg | reduceStop | release | reprice | bracket | clear => cases hk
  exact hv.trans hn

theorem Wf.queued_of_found (hw : Wf V b) (hn : b.core.stopOrders = []) {k : Nat} (hf : b.core.find k = some i) :
    b.core.Queued V i := by
  rcases (hw.found hf).2 with hs | hq
  · rw [hn] at hs
    cases hs
  · exact hq

/-- Every act of these calls is booked, up to its leaks. -/
theorem Act.booked (h : Act V k b b') (hk : plainKinds False k) (hw : Wf V b) (hn : b.core.stopOrders = []) (hc : c ≠ 0) :
    ∃ l, Booked V c b b' l := by
  cases h with
  | aux hs hf _ _ => exact ⟨[], Booked.silent hf.log hf.exposure fun _ => hs.openSum hw⟩
  | config hs he _ hl _ _ => exact ⟨[], Booked.silent hl he fun _ => hs.openSum hw⟩
  | stpAbort x y =>
    have hs : SameSlots b (b.note (.stpAbort x y)) := .of_core rfl rfl
    refine ⟨_, Booked.one rfl (fun side => ?_) (Int.add_zero _).symm (Report.sound_of (fun _ => rfl) rfl)⟩
    rw [hs.openSum hw]
    exact (Int.add_zero _).symm
  | stpCancel x y =>
    have hs : SameSlots b (b.note (.stpCancel x y b.core)) := .of_core rfl rfl
    refine ⟨_, Booked.one rfl (fun side => ?_) (Int.add_zero _).symm (Report.sound_of (fun _ => rfl) rfl)⟩
    rw [hs.openSum hw]
    exact (Int.add_zero _).symm
  | accept r i hq _ ha => exact ⟨_, accept_booked hw hq ha hc⟩
  | exec p t ts i qty hm =>
    have hsh := (hw.resting hm.queued).shown
    have h1 := hm.pos
    have h2 := hm.left
    exact ⟨_, exec_booked hw hm.queued hm.flying ts (by omega) (by omega) (by omega) hc⟩
  | cancel p i hi => exact ⟨_, cancel_booked hw hi true hc⟩
  | replace p i hi => exact ⟨_, cancel_booked hw hi false hc⟩
  | unwait i hi =>
    rw [hn] at hi
    cases hi
  | finishFilled i hi hd => exact ⟨_, finishFilled_booked hw hi hd⟩
  | finishIoc i hi hlt => exact ⟨_, finishIoc_booked hw hi hlt⟩
  | rest i hi hlt hr => exact ⟨_, rest_booked hw hi hlt hr⟩
  | reduce p id i q hi hf hlt hq => exact ⟨_, reduce_booked hw hf hi hlt hq⟩
  | expire p i hi => exact ⟨_, expire_booked hw hi⟩
  | auction p clearing i take ts hi hpos hle => exact ⟨_, auction_booked hw hi clearing ts hpos hle⟩
  | touch k i o hf ho =>
    have hf' : b.core.find k = some i := hf.resolve_left (by rw [hn]; simp)
    obtain ⟨p, hi⟩ := hw.queued_of_found hn hf'
    have hlaw : Lawful V [i] b (b.mapCore (·.setOrder i o)) := hw.touch hf ho rfl rfl
    have hview := hw.touch_view ho
    have hb : (b.mapCore (·.setOrder i o)).core.body i = o.strip := by
      rw [body_of_view hview]
      simp [Book.view, View.setBody]
    have hq' : (b.mapCore (·.setOrder i o)).core.Queued V i := by
      refine ⟨p, ?_⟩
      rw [queue_of_view hview]
      exact hi
    refine ⟨[], Booked.silent rfl rfl fun side => ?_⟩
    rw [hlaw.openSum (hw.bound hi) (.inl ⟨p, hi⟩) (.inl hq'), hb, ho]
    show _ + ((b.core.body i).owed c side - (b.core.body i).owed c side) = _
    omega
  | oco o _ =>
    have hs : SameSlots b { b with oco := o } := .of_core rfl rfl
    exact ⟨[], Booked.silent rfl rfl fun _ => hs.openSum hw⟩
  | wait | peg | reduceStop | release | reprice | bracket | clear => cases hk

end

/-! ## Runs -/

/-- The accounts of a book: the exposure of every client is what its live orders have left, plus
    what the reports of the run say went without a hook. -/
structure Accounted (V : Env) (b : Book) : Prop where
  wf : Wf V b
  noBracket : b.NoBracket
  noStops : b.core.stopOrders = []
  openQty : ∀ c, c ≠ 0 → ∀ side,
    (b.exposure c).openQty side = b.openSum V c side + (b.log.map (Report.leak c side)).sum
  net : ∀ c, c ≠ 0 → (b.exposure c).filledNetQty = (b.log.map (Report.matched c)).sum
  sound : ∀ c, c ≠ 0 → ∀ e ∈ b.log, e.Sound c

theorem Accounted.act {V : Env} {k : Kind} {b b' : Book} (h : Accounted V b) (ha : Act V k b b')
    (hk : plainKinds False k) : Accounted V b' := by
  refine ⟨ha.wf h.wf, ha.noBracket (by rintro rfl; exact hk) h.noBracket, ha.stops_nil hk h.wf h.noStops, ?_, ?_, ?_⟩
  · intro c hc side
    obtain ⟨l, hl⟩ := ha.booked hk h.wf h.noStops hc
    have h1 := hl.openQty side
    have h2 := h.openQty c hc side
    rw [hl.log, map_append, sum_append]
    omega
  · intro c hc
    obtain ⟨l, hl⟩ := ha.booked hk h.wf h.noStops hc
    rw [hl.net, hl.log, map_append, sum_append, h.net c hc]
    omega
  · intro c hc e he
    obtain ⟨l, hl⟩ := ha.booked hk h.wf h.noStops hc
    rw [hl.log] at he
    rcases mem_append.mp he with he | he
    · exact hl.sound e he
    · exact h.sound c hc e he

theorem fresh_accounted (V : Env) : Accounted V (fresh V) := by
  refine ⟨fresh_wf V, ⟨rfl, fun _ => rfl⟩, rfl, ?_, fun _ _ => rfl, ?_⟩
  · intro c _ side
    have hz : (fresh V).openSum V c side = 0 := by
      refine Finset.sum_eq_zero fun i _ => weight_dead ?_ (by simp [fresh])
      rintro ⟨p, hp⟩
      have := (fresh_wf V).resting hp
      exact absurd this.active (by simp [fresh, Core.body, Order.strip, Order.isActive])
    rw [hz]
    cases side <;> rfl
  · intro c _ e he
    cases he

theorem Reach.accounted {V : Env} {b : Book} (h : Book.Reach V (fun _ op _ => op.plain = true) b) : Accounted V b := by
  induction h with
  | init => exact fresh_accounted V
  | step _ hs hp ih =>
    obtain ⟨n, hn⟩ := hs
    have hd := exec_plain (N := False) hp ih.wf (.inr ih.noBracket) (ih.wf.reducesStop_eq ih.noStops _) hn
    exact hd.acts.keeps ih fun hk ha hb => hb.act ha hk

/-- Nothing in flight: the sum over the slots is the sum over the live orders. -/
theorem Accounted.liveQty {V : Env} {b : Book} (h : Accounted V b) (hx : b.inFlight = []) (c : Nat) (side : Side) :
    b.openSum V c side = b.liveQty V c side := by
  have hsub : (b.core.restingSlots V).toFinset ⊆ Finset.range V.MAX_ORDERS := by
    intro i hi
    obtain ⟨p, hp⟩ := h.wf.mem_restingSlots.mp (mem_toFinset.mp hi)
    exact Finset.mem_range.mpr (h.wf.bound hp)
  have hzero : ∀ i ∈ Finset.range V.MAX_ORDERS, i ∉ (b.core.restingSlots V).toFinset → b.weight V c side i = 0 := by
    intro i _ hi
    refine weight_dead ?_ (by simp [hx])
    rwa [mem_toFinset, h.wf.mem_restingSlots] at hi
  unfold Book.openSum Book.liveQty
  rw [← Finset.sum_subset hsub hzero, sum_toFinset _ h.wf.restingSlots_nodup, h.noStops, append_nil]
  refine congrArg List.sum (map_congr_left fun i hi => ?_)
  exact weight_live (.inl (h.wf.mem_restingSlots.mp hi))

theorem Report.hooked {e : Report} {c : Nat} (h : e.unhooked c = false) :
    (∀ side, e.leak c side = 0) ∧ e.net c = e.matched c := by
  cases e with
  | iocCancel o =>
    have hne : o.clientId ≠ c := of_decide_eq_false h
    exact ⟨fun side => if_neg (by tauto), rfl⟩
  | expire o =>
    have hne : o.clientId ≠ c := of_decide_eq_false h
    exact ⟨fun side => if_neg (by tauto), rfl⟩
  | reduce o q =>
    have hne : o.clientId ≠ c := of_decide_eq_false h
    exact ⟨fun side => if_neg (by tauto), rfl⟩
  | auctionFill o q =>
    have hne : o.clientId ≠ c := of_decide_eq_false h
    exact ⟨fun side => if_neg (by tauto), if_neg hne⟩
  | _ => exact ⟨fun _ => rfl, rfl⟩

/-- The exposure of a client is exact if and only if no order of the client ever changed with no hook:
    no IOC remainder dropped, no decrease in place, no expiry, no auction fill. -/
theorem exposure_exact_iff {V : Env} {b : Book} {c : Nat} (hr : Book.Reach V (fun _ op _ => op.plain = true) b)
    (hc : c ≠ 0) : ExposureExact V b c ↔ ∀ e ∈ b.log, e.unhooked c = false := by
  have hacc := Reach.accounted hr
  have hlive := hacc.liveQty (Reach.wf hr).2 c
  have hopen := hacc.openQty c hc
  constructor
  · intro hex e he
    by_contra hu
    obtain ⟨-, hloss⟩ := hacc.sound c hc e he
    obtain ⟨side, hpos⟩ := hloss (by simpa using hu)
    have hzero : (b.log.map (Report.leak c side)).sum = 0 := by
      have hside : (b.exposure c).openQty side = b.liveQty V c side := by
        cases side with
        | buy => exact hex.buy
        | sell => exact hex.sell
      have h1 := hopen side
      have h2 := hlive side
      omega
    have hle : e.leak c side ≤ (b.log.map (Report.leak c side)).sum := by
      refine List.single_le_sum ?_ _ (List.mem_map_of_mem he)
      intro x hx
      obtain ⟨e', he', rfl⟩ := List.mem_map.mp hx
      exact (hacc.sound c hc e' he').1 side
    omega
  · intro hall
    have hzero : ∀ side, (b.log.map (Report.leak c side)).sum = 0 := by
      intro side
      refine List.sum_eq_zero fun x hx => ?_
      obtain ⟨e, he, rfl⟩ := List.mem_map.mp hx
      exact (Report.hooked (hall e he)).1 side
    have hside : ∀ side, (b.exposure c).openQty side = b.liveQty V c side := by
      intro side
      have h1 := hopen side
      have h2 := hlive side
      have h3 := hzero side
      omega
    refine ⟨hside .buy, hside .sell, ?_⟩
    have hnet : b.log.map (Report.net c) = b.log.map (Report.matched c) :=
      List.map_congr_left fun e he => (Report.hooked (hall e he)).2
    rw [hnet]
    exact hacc.net c hc

/-- A partial fill and a cancel: the exposure of client 1 is exact. -/
theorem exposure_exact_small : ∃ b, Book.runIf smallEnv 20 (fun _ op _ => op.plain)
      [.submit { side := .sell, priceTicks := 3, qty := 5, clientId := 1 },
       .submit { side := .buy, priceTicks := 3, qty := 2, clientId := 2 },
       .submit { side := .buy, priceTicks := 1, qty := 4, clientId := 1 },
       .cancel 3] (fresh smallEnv) = some b ∧ ExposureExact smallEnv b 1 := by
  have hrun : (Book.runIf smallEnv 20 (fun _ op _ => op.plain)
      [.submit { side := .sell, priceTicks := 3, qty := 5, clientId := 1 },
       .submit { side := .buy, priceTicks := 3, qty := 2, clientId := 2 },
       .submit { side := .buy, priceTicks := 1, qty := 4, clientId := 1 },
       .cancel 3] (fresh smallEnv)).any (fun b => b.log.all fun e => !e.unhooked 1) = true := by decide +kernel
  obtain ⟨b, hb, hr, hall⟩ := Reach.ofRun hrun fun _ _ _ h => h
  refine ⟨b, hb, (exposure_exact_iff hr (by decide)).mpr fun e he => ?_⟩
  simpa using List.all_eq_true.mp hall e he

/-- An IOC order that meets nothing leaves its quantity in the exposure of its client. -/
theorem exposure_leaks : ∃ b, Book.runIf smallEnv 20 (fun _ op _ => op.plain)
      [.submit { side := .buy, priceTicks := 3, qty := 5, type := .ioc, clientId := 1 }] (fresh smallEnv) = some b ∧
    (b.getAccountExposure 1).openBuyQty = 5 ∧ b.liveQty smallEnv 1 .buy = 0 ∧ ¬ ExposureExact smallEnv b 1 := by
  have hrun : (Book.runIf smallEnv 20 (fun _ op _ => op.plain)
      [.submit { side := .buy, priceTicks := 3, qty := 5, type := .ioc, clientId := 1 }] (fresh smallEnv)).any
      (fun b => (b.getAccountExposure 1).openBuyQty = 5 ∧ b.liveQty smallEnv 1 .buy = 0) = true := by decide +kernel
  obtain ⟨b, hb, h⟩ := (Option.any_eq_true _ _).mp hrun
  obtain ⟨h1, h2⟩ := of_decide_eq_true h
  refine ⟨b, hb, h1, h2, fun hex => ?_⟩
  have := hex.buy
  omega

end HftLab.OrderBook
