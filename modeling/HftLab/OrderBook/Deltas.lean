/-
  HftLab.OrderBook.Deltas — the incremental feed (DeltaMessage, push_delta).

  A message is pushed when an order comes to rest and when one is cancelled. Executions push none, and
  neither does the in-place branch of `modify`. So a consumer is right after a call that changes no level
  but those it tells of (`Relays`): an order that meets nobody, or one that takes all of the level at its
  own limit and rests there itself.
-/

import HftLab.OrderBook.Caches
import HftLab.OrderBook.Simulation
import HftLab.OrderBook.FillEvents

namespace HftLab.OrderBook

open Lib Function List

/-- What a consumer holds after the message `d`: the level's new quantity, or nothing. -/
def applyDelta (c : Int → Int) (d : DeltaMessage) : Int → Int :=
  Function.update c d.priceTicks (if d.type = .delete then 0 else d.newQty)

def Book.totalVolumeAtPrice (V : Env) (b : Book) (p : Int) : Int := if inRange V p then (b.core.levels p).totalQty else 0

/-- The messages `l` were pushed on the way from `b` to `b'`, and they tell all that changed. -/
structure Relays (V : Env) (b b' : Book) (l : List DeltaMessage) : Prop where
  enabled : b'.tape.deltaQueueEnabled = b.tape.deltaQueueEnabled
  queue : b'.tape.deltaQueue = b.tape.deltaQueue ++ l
  volume : l.foldl applyDelta (b.totalVolumeAtPrice V) = b'.totalVolumeAtPrice V

/-- LIMIT, IOC, FOK and POST_ONLY orders, for any time. -/
def fedKind (k : OrderType × TimeInForce) : Prop := k.1 = .limit ∨ k.1 = .ioc ∨ k.1 = .fok ∨ k.1 = .postOnly

instance (k : OrderType × TimeInForce) : Decidable (fedKind k) := inferInstanceAs (Decidable (_ ∨ _))

section

variable {V : Env} {b b' b'' b₀ : Book} {p q k : Int} {t ts i n : Nat} {s : Side} {r : Request} {l l' : List DeltaMessage}
    {y : Nat × RejectReason} {c : Int → Int}

theorem fedKind.not_iceberg {k : OrderType × TimeInForce} (h : fedKind k) : k.1 ≠ .iceberg := by
  rcases h with h | h | h | h <;> rw [h] <;> decide

theorem fedKind.not_hidden {k : OrderType × TimeInForce} (h : fedKind k) : k.1 ≠ .hidden := by
  rcases h with h | h | h | h <;> rw [h] <;> decide

theorem fedKind.not_market {k : OrderType × TimeInForce} (h : fedKind k) : k.1 ≠ .market := by
  rcases h with h | h | h | h <;> rw [h] <;> decide

theorem Relays.trans (h : Relays V b b' l) (h' : Relays V b' b'' l') : Relays V b b'' (l ++ l') := by
  refine ⟨h'.enabled.trans h.enabled, ?_, ?_⟩
  · rw [h'.queue, h.queue, append_assoc]
  · rw [foldl_append, h.volume, h'.volume]

/-- The feed and the sums of the levels off `p` are as they were. -/
structure Mute (p : Int) (b b' : Book) : Prop where
  enabled : b'.tape.deltaQueueEnabled = b.tape.deltaQueueEnabled
  queue : b'.tape.deltaQueue = b.tape.deltaQueue
  levels : ∀ r, r ≠ p → b'.core.levels r = b.core.levels r

theorem Mute.refl (p : Int) (b : Book) : Mute p b b := ⟨rfl, rfl, fun _ _ => rfl⟩

theorem Mute.trans (h : Mute p b b') (h' : Mute p b' b'') : Mute p b b'' :=
  ⟨h'.enabled.trans h.enabled, h'.queue.trans h.queue, fun r hr => (h'.levels r hr).trans (h.levels r hr)⟩

/-- Nothing changed and nothing was told. -/
theorem Relays.silent (h : Mute p b b') (hp : b'.core.levels p = b.core.levels p) : Relays V b b' [] := by
  refine ⟨h.enabled, by rw [h.queue, append_nil], funext fun r => ?_⟩
  have hr : b'.core.levels r = b.core.levels r := by
    by_cases e : r = p
    · rw [e, hp]
    · exact h.levels r e
  show b.totalVolumeAtPrice V r = b'.totalVolumeAtPrice V r
  unfold Book.totalVolumeAtPrice
  rw [hr]

/-- Only level `p` changed, and a message tells its sum. -/
theorem Relays.one {d : DeltaMessage} (he : b'.tape.deltaQueueEnabled = b.tape.deltaQueueEnabled)
    (hq : b'.tape.deltaQueue = b.tape.deltaQueue ++ [d]) (hl : ∀ r, r ≠ p → b'.core.levels r = b.core.levels r)
    (hr : inRange V p) (hp : d.priceTicks = p)
    (hv : (if d.type = .delete then 0 else d.newQty) = (b'.core.levels p).totalQty) : Relays V b b' [d] := by
  refine ⟨he, hq, funext fun r => ?_⟩
  show update (b.totalVolumeAtPrice V) d.priceTicks _ r = _
  by_cases e : r = p
  · rw [hp, e, update_self, hv]
    unfold Book.totalVolumeAtPrice
    rw [if_pos hr]
  · rw [hp, update_of_ne e]
    unfold Book.totalVolumeAtPrice
    rw [hl r e]

/-! ## What pushes -/

theorem pushDelta_queue (h : b.tape.deltaQueueEnabled) (type : DeltaType) (side : Side) (price newQty : Int) :
    (b.pushDelta type side price newQty).tape.deltaQueueEnabled = true ∧
    (b.pushDelta type side price newQty).tape.deltaQueue =
      b.tape.deltaQueue ++ [⟨type, side, price, newQty, b.tape.deltaSeq + 1⟩] := by
  unfold Book.pushDelta
  rw [if_pos h]
  exact ⟨h, rfl⟩

theorem Book.Summed.empty_level (h : b.Summed V) (hw : Wf V b) (he : (b.core.levels p).empty) :
    (b.core.levels p).totalQty = 0 := by
  have hq : b.core.queue V p = [] := by
    have hh := hw.links.head_eq p
    rw [Option.isNone_iff_eq_none.mp he] at hh
    exact List.head?_eq_none_iff.mp hh.symm
  have := congrArg Tally.qty (h p)
  rw [hq] at this
  exact this

theorem cancel_relays (hw : Wf V b) (hs : b.Summed V) (hi : i ∈ b.core.queue V p) (e : Bool)
    (hon : b.tape.deltaQueueEnabled) : ∃ d, Relays V b (b.cancelInternal V i e) [d] := by
  have ha : (b.order i).isActive := (hw.resting hi).active
  have hp : (b.order i).priceTicks = p := hw.price hi
  have hfeed : ∃ sq, (b.cancelInternal V i e).tape.deltaQueueEnabled ∧
      (b.cancelInternal V i e).tape.deltaQueue = b.tape.deltaQueue ++
        [⟨if ((b.cancelInternal V i e).core.levels p).empty then .delete else .modify, (b.order i).side, p,
          ((b.cancelInternal V i e).core.levels p).totalQty, sq⟩] := by
    unfold Book.cancelInternal
    simp only [ha, Bool.not_true, Bool.false_eq_true, if_false, hp]
    cases e with
    | true => exact ⟨_, pushDelta_queue (by exact hon) ..⟩
    | false => exact ⟨_, pushDelta_queue (by exact hon) ..⟩
  obtain ⟨sq, he, hq⟩ := hfeed
  refine ⟨_, Relays.one (he.trans hon.symm) hq (cancel_aside hw hi e).levels (hw.links.grid p i hi) rfl ?_⟩
  have hkeep := cancelInternal_summed hw hs hi e
  by_cases hemp : ((b.cancelInternal V i e).core.levels p).empty
  · rw [if_pos hemp, if_pos rfl, hkeep.2.empty_level hkeep.1 hemp]
  · rw [if_neg hemp, if_neg (show ¬ DeltaType.modify = .delete by decide)]

/-- An order comes to rest at `p`, where the level may have changed before. -/
theorem rest_relays (hm : Mute p b₀ b) (hon : b₀.tape.deltaQueueEnabled) (hp : (b.core.body i).priceTicks = p)
    (hr : inRange V p) (ht : (b.core.body i).type ≠ .hidden) : ∃ d, Relays V b₀ (b.restOrder i) [d] := by
  have ho : (b.order i).atRest.priceTicks = p ∧ (b.order i).atRest.type ≠ .hidden := by
    unfold Order.atRest
    split
    · exact ⟨hp, ht⟩
    · exact ⟨hp, ht⟩
  have hfeed : (b.restOrder i).tape.deltaQueueEnabled ∧ (b.restOrder i).tape.deltaQueue = b.tape.deltaQueue ++
      [⟨.add, (b.order i).atRest.side, p, ((b.restOrder i).core.levels p).totalQty, b.tape.deltaSeq + 1⟩] := by
    unfold Book.restOrder
    rw [if_neg ho.2, ho.1]
    exact pushDelta_queue (hm.enabled.trans hon) ..
  have hlevels : ∀ r, r ≠ p → (b.restOrder i).core.levels r = b.core.levels r := by
    intro r hne
    obtain ⟨y, z, hc⟩ := Book.restOrder_core
    rw [hc]
    refine (Core.enqueueAtLevel_levels_of_ne _ _ ?_).trans rfl
    rw [show (b.core.setOrder i (b.order i).atRest).price i = p from ?_]
    · exact hne
    · show (update b.core.pool i (b.order i).atRest i).priceTicks = p
      rw [update_self, ho.1]
  refine ⟨_, Relays.one (hfeed.1.trans hon.symm) (by rw [hfeed.2, hm.queue]) (fun r hne => ?_) hr rfl ?_⟩
  · rw [hlevels r hne, hm.levels r hne]
  · exact if_neg (show ¬ DeltaType.add = .delete by decide)

/-! ## What does not -/

theorem executed_mute (hne : i ≠ t) (ts : Nat) (q : Int) : Mute p b (b.executed V p t ts i q) := by
  have hfeed : (b.executed V p t ts i q).tape.deltaQueueEnabled = b.tape.deltaQueueEnabled ∧
      (b.executed V p t ts i q).tape.deltaQueue = b.tape.deltaQueue := by
    unfold Book.executed Book.settleMaker
    dsimp only
    split
    · exact ⟨rfl, rfl⟩
    · split
      · exact ⟨rfl, rfl⟩
      · exact ⟨rfl, rfl⟩
  exact ⟨hfeed.1, hfeed.2, fun r hr => executed_levels hne ts q hr⟩

/-- An execution takes from the taker what it takes from what the level shows. -/
theorem executed_shown (hw : Wf V b) (hi : i ∈ b.core.queue V p) (ht : t ∈ b.inFlight)
    (hty : (b.core.body i).type ≠ .iceberg) (ts : Nat) {x : Int} (hx : x ≤ (b.core.body i).displayedQty) :
    shownSum (b.executed V p t ts i x).core.body ((b.executed V p t ts i x).core.queue V p) =
      shownSum b.core.body (b.core.queue V p) - x := by
  have hnd := (hw.links.level p).nodup
  obtain ⟨o, l, hcase, hQ, hB⟩ := hw.executed_cases hi ht ts x
  have hbody : ∀ j, j ≠ i → ((b.executed V p t ts i x).core.body j).displayedQty = (b.core.body j).displayedQty := by
    intro j hne
    rw [hB, update_of_ne hne]
    by_cases e : j = t
    · subst e
      rw [update_self]
      rfl
    · rw [update_of_ne e]
  rw [hQ, update_self]
  unfold shownSum
  cases hcase with
  | refresh _ _ _ _ hice => exact absurd hice hty
  | complete hd =>
    have hhid : 0 ≤ (b.core.body i).totalQty - (b.core.body i).filledQty - (b.core.body i).displayedQty := (hw.resting hi).hidden
    have hrest : ((b.core.queue V p).erase i).map (fun j => ((b.executed V p t ts i x).core.body j).displayedQty) =
        ((b.core.queue V p).erase i).map fun j => (b.core.body j).displayedQty := by
      refine map_congr_left fun j hj => hbody j ?_
      exact ((List.Nodup.mem_erase_iff hnd).mp hj).1
    rw [hrest, sum_map_erase _ hi]
    omega
  | partial_ =>
    have hself : ((b.executed V p t ts i x).core.body i).displayedQty = (b.core.body i).displayedQty - x := by
      rw [hB, update_self]
      rfl
    rw [sum_map_change hnd hi hbody, hself]
    omega

/-- The taker in slot `t` came from `b₀` to `b`, with `q` left to match, and only level `p` was touched: it
    lost what the level shows less. -/
structure Touches (V : Env) (p : Int) (t : Nat) (b₀ : Book) (k q : Int) (b : Book) : Prop where
  taking : Taking V b t q
  left : q = (b.core.body t).remainingQty
  stp : b.gates.stpPolicy = .none
  plain : b.NoIceberg V
  took : ∃ x, b.core.body t = (b₀.core.body t).tookBy x
  mute : Mute p b₀ b
  sum : q - shownSum b.core.body (b.core.queue V p) = k

theorem Touches.exec (h : Touches V p t b₀ k q b) (hi : i ∈ b.core.queue V p) (hpos : 0 < q) (ts : Nat) :
    Touches V p t b₀ k (q - min q (b.core.body i).displayedQty)
      (b.executed V p t ts i (min q (b.core.body i).displayedQty)) := by
  have hw := h.taking.wf
  have ht := h.taking.flying
  have hne := hw.flying_ne_queued hi ht
  have htaker : (b.executed V p t ts i (min q (b.core.body i).displayedQty)).core.body t =
      (b.core.body t).tookBy (min q (b.core.body i).displayedQty) := executed_taker hw hi ht
  obtain ⟨x, hx⟩ := h.took
  refine ⟨⟨?_, ?_, ?_⟩, ?_, executed_prints.stpPolicy.trans h.stp, executed_noIceberg h.plain hw hi ht ts _,
    ⟨x + min q (b.core.body i).displayedQty, ?_⟩, h.mute.trans (executed_mute hne ts _), ?_⟩
  · exact (Act.exec p t ts i q ⟨hi, ht, hpos, h.taking.left, .inl h.stp⟩).wf hw
  · rw [show (b.executed V p t ts i (min q (b.core.body i).displayedQty)).inFlight = b.inFlight from
      Book.settleMaker_inFlight]
    exact ht
  · have h1 := h.left
    rw [htaker]
    unfold Order.remainingQty at h1
    show _ ≤ (b.core.body t).totalQty - ((b.core.body t).filledQty + _)
    omega
  · rw [htaker, Order.tookBy_remaining, ← h.left]
  · rw [htaker, hx]
    unfold Order.tookBy
    simp only [Int.add_assoc]
  · rw [executed_shown hw hi ht (h.plain p i hi) ts (min_le_right _ _), ← h.sum]
    omega

theorem matchAtLevel_touches {q' : Int} (h : Touches V p t b₀ k q b)
    (hm : Book.matchAtLevel V p t ts n (b.core.levels p).head q b = some (q', b')) : Touches V p t b₀ k q' b' := by
  refine (matchAtLevel_passes (fun {i q b v} _ htr hpos hi _ hcase => ?_) h.taking (h.taking.wf.at_head p) h hm).2
  cases hcase with
  | newest hp _ | oldest hp _ | both hp _ =>
    rw [htr.stp] at hp
    cases hp
  | exec _ => exact htr.exec hi hpos ts

theorem Touches.best (h : Touches V p t b₀ k q b) (x y : Int) :
    Touches V p t b₀ k q { b with core := { b.core with bestBid := x, bestAsk := y } } := by
  exact ⟨h.taking.best x y, h.left, h.stp, h.plain, h.took, ⟨h.mute.enabled, h.mute.queue, h.mute.levels⟩,
    h.sum⟩

/-- No level better than the taker's own limit `p` is there: the price loop touches that one only. -/
theorem priceLoop_touches (h : Touches V p t b₀ k q b) (hg : b.core.OnGrid V) (hside : (b₀.core.body t).side = s.other)
    (hp : (b₀.core.body t).priceTicks = p) (hfront : s.rank p ≤ s.rank (b.core.best s))
    (hm : Book.priceLoop V t ts n q b = some b') : ∃ q', Touches V p t b₀ k q' b' := by
  have hsd : ∀ {q b}, Touches V p t b₀ k q b → (b.order t).side = s.other ∧ (b.order t).priceTicks = p := by
    intro q b h
    obtain ⟨x, hx⟩ := h.took
    have h1 : (b.core.body t).side = (b₀.core.body t).side := by rw [hx]; rfl
    have h2 : (b.core.body t).priceTicks = (b₀.core.body t).priceTicks := by rw [hx]; rfl
    exact ⟨h1.trans hside, h2.trans hp⟩
  refine priceLoop_rule
    (I := fun q b => Touches V p t b₀ k q b ∧ b.core.OnGrid V ∧ s.rank p ≤ s.rank (b.core.best s))
    (J := fun b => ∃ q', Touches V p t b₀ k q' b) ?_ (fun q _ h _ => ⟨q, h.1⟩) n q b b' ⟨h, hg, hfront⟩ hm
  rintro m q b r q1 b1 ⟨htr, hgrid, hle⟩ hpos hnext hl
  have hr : r = p := by
    rw [nextLevel_side (hsd htr).1, (hsd htr).2] at hnext
    split at hnext
    · rename_i hc
      cases hnext
      exact Side.rank_inj (le_antisymm hc.2 hle)
    · cases hnext
  subst hr
  have htr' := matchAtLevel_touches htr hl
  obtain ⟨hg1, hr1, -⟩ := pass_grid htr.taking (htr.taking.wf.at_head r) hgrid hl
  obtain ⟨x, y, hb⟩ := advanceBest_eq (b1.order t).side
  refine ⟨?_, advance_grid hg1 _, ?_⟩
  · rw [hb]
    exact htr'.best x y
  · rw [(hsd htr').1]
    exact hle.trans ((hr1 s).trans (advance_rank hg1 s).1)

/-! ## Submit -/

theorem reject_mute (reason : RejectReason) : Mute p b (b.reject r reason) := ⟨rfl, rfl, fun _ _ => rfl⟩

theorem accept_mute (hw : Wf V b) (ha : b.accept V r = some (i, b')) : Mute p b b' ∧ b'.core.levels = b.core.levels := by
  have hl := (accept_unmoved hw ha).levels
  have hfeed : b'.tape.deltaQueueEnabled = b.tape.deltaQueueEnabled ∧ b'.tape.deltaQueue = b.tape.deltaQueue := by
    unfold Book.accept at ha
    dsimp only at ha
    split at ha
    · cases ha
    · cases ha
      exact ⟨rfl, rfl⟩
  exact ⟨⟨hfeed.1, hfeed.2, fun r _ => by rw [hl]⟩, hl⟩

/-- What is left of the order rests and is told, or is dropped at a level that has not changed. -/
theorem finish_relays (hm : Mute p b₀ b) (hon : b₀.tape.deltaQueueEnabled) (hp : (b.core.body i).priceTicks = p)
    (hr : inRange V p) (ht : (b.core.body i).type ≠ .hidden) (hlt : (b.core.body i).filledQty < (b.core.body i).totalQty)
    (hsame : b.core.levels p = b₀.core.levels p ∨ ((b.core.body i).type ≠ .ioc ∧ (b.core.body i).tif ≠ .ioc))
    (hf : b.finish V i = some b') : ∃ l, Relays V b₀ b' l := by
  unfold Book.finish at hf
  dsimp only at hf
  split at hf
  · rename_i hd
    have hd : (b.core.body i).totalQty ≤ (b.core.body i).filledQty := hd
    omega
  · split at hf
    · rename_i hioc
      have hioc : (b.core.body i).type = .ioc ∨ (b.core.body i).tif = .ioc := hioc
      cases hf
      rcases hsame with hsame | ⟨h1, h2⟩
      · exact ⟨[], Relays.silent (hm.trans ⟨rfl, rfl, fun _ _ => rfl⟩) hsame⟩
      · rcases hioc with hioc | hioc
        · exact absurd hioc h1
        · exact absurd hioc h2
    · split at hf
      · cases hf
        obtain ⟨d, hd⟩ := rest_relays hm hon hp hr ht
        exact ⟨[d], hd⟩
      · cases hf

/-- The order leaves no level changed without a message: it is refused or finds no slot, it is POST_ONLY, it
    meets nobody, or it meets only the level at its own limit, has more than the level shows, and rests. -/
def Book.announces (V : Env) (b : Book) (r : Request) : Bool :=
  let s := r.side.other
  (b.screen V r).isSome || b.core.freeHead.isNone || r.type = .postOnly || b.core.best s = s.noBest ||
    s.rank r.priceTicks < s.rank (b.core.best s) ||
    (b.core.best s = r.priceTicks && shownSum b.core.body (b.core.queue V r.priceTicks) < r.qty &&
      r.type ≠ .ioc && r.tif ≠ .ioc)

/-- Between two calls. -/
structure Ready (V : Env) (b : Book) : Prop where
  cont : b.Continuous
  wf : Wf V b
  idle : b.inFlight = []
  typed : b.Typed V fedKind
  summed : b.Summed V
  grid : b.core.OnGrid V
  stp : b.gates.stpPolicy = .none

/-- What the price loop leaves of level `p` and of the order, if no better level is there. -/
theorem matchAgainst_touches {b1 : Book} (hw : Wf V b1) (hi : i ∈ b1.inFlight) (hg : b1.core.OnGrid V)
    (hstp : b1.gates.stpPolicy = .none) (hn : b1.NoIceberg V) (hside : (b1.core.body i).side = s.other)
    (hp : (b1.core.body i).priceTicks = p) (hfront : s.rank p ≤ s.rank (b1.core.best s))
    (hm : b1.matchAgainst V n i = some b') :
    ∃ q, Touches V p i b1 ((b1.core.body i).remainingQty - shownSum b1.core.body (b1.core.queue V p)) q b' := by
  have h0 : Touches V p i b1 ((b1.core.body i).remainingQty - shownSum b1.core.body (b1.core.queue V p))
      (b1.core.body i).remainingQty (b1.monoNsNow V).2 := by
    refine ⟨⟨hw.of_core rfl rfl, hi, le_rfl⟩, rfl, hstp, hn, ⟨0, ?_⟩, ⟨rfl, rfl, fun _ _ => rfl⟩, rfl⟩
    show b1.core.body i = _
    unfold Order.tookBy
    rw [Int.add_zero]
  exact priceLoop_touches h0 hg hside hp hfront hm

theorem matchAgainst_nobody (hn : b.nextLevel i = none) (hm : b.matchAgainst V n i = some b') : b' = (b.monoNsNow V).2 := by
  unfold Book.matchAgainst at hm
  cases n with
  | zero => cases hm
  | succ n =>
    dsimp only at hm
    unfold Book.priceLoop at hm
    have hn' : (b.monoNsNow V).2.nextLevel i = none := hn
    rw [hn'] at hm
    split at hm
    · cases hm
      rfl
    · cases hm
      rfl

theorem submit_relays (h : Ready V b) (hon : b.tape.deltaQueueEnabled) (hk : fedKind r.kind) (ha : b.announces V r)
    (hs : Book.submit V n r b = some (y, b')) : ∃ l, Relays V b b' l := by
  rcases submit_entered h.cont hs with ⟨reason, -, rfl, -⟩ | ⟨m, i, b1, b2, -, hen⟩
  · exact ⟨[], Relays.silent (reject_mute (p := 0) reason) rfl⟩
  · have hsc := hen.passed
    have hacc := hen.accepted
    have hm := hen.matched
    have hfin := hen.finished
    have hq := (screen_none hsc).1
    have hw1 := hen.act.wf h.wf
    have hi := hen.flying
    have hun := accept_unmoved h.wf hacc
    have hbody := accept_body h.wf hacc
    obtain ⟨hmute, hlev⟩ := accept_mute h.wf hacc
    have hprice : (b1.core.body i).priceTicks = r.priceTicks := by rw [hbody]; rfl
    have hr := screen_inRange hsc hk.not_market
    have hstill : ∀ {b2 : Book}, Mute r.priceTicks b1 b2 → b2.core.body i = b1.core.body i →
        b2.core.levels r.priceTicks = b1.core.levels r.priceTicks → b2.finish V i = some b' → ∃ l, Relays V b b' l := by
      intro b2 hm2 hb2 hl2 hfin
      refine finish_relays (hmute.trans hm2) hon (by rw [hb2]; exact hprice) hr ?_ ?_ (.inl ?_) hfin
      · rw [hb2, hbody]
        exact hk.not_hidden
      · rw [hb2, hbody]
        exact hq
      · rw [hl2, hlev]
    by_cases hpo : r.type = .postOnly
    · unfold Book.matchEntry at hm
      rw [if_neg fun hc => hc.1 hpo] at hm
      cases hm
      exact hstill (Mute.refl _ _) rfl rfl hfin
    · unfold Book.matchEntry at hm
      rw [if_pos ⟨hpo, hk.not_hidden⟩] at hm
      have hside : (b1.core.body i).side = r.side.other.other := by
        rw [hbody, Side.other_other]
        rfl
      by_cases hnob : b.core.best r.side.other = r.side.other.noBest ∨
          r.side.other.rank r.priceTicks < r.side.other.rank (b.core.best r.side.other)
      · have hnext : b1.nextLevel i = none := by
          rw [nextLevel_side hside, hun.best]
          refine if_neg fun hc => ?_
          have hc2 : r.side.other.rank (b.core.best r.side.other) ≤ r.side.other.rank (b1.core.body i).priceTicks := hc.2
          rw [hprice] at hc2
          rcases hnob with hnob | hnob
          · exact hc.1 hnob
          · omega
        rw [matchAgainst_nobody hnext hm] at hfin
        have hask : Mute r.priceTicks b1 (b1.monoNsNow V).2 := ⟨rfl, rfl, fun _ _ => rfl⟩
        exact hstill hask rfl rfl hfin
      · rw [not_or] at hnob
        unfold Book.announces at ha
        rw [hsc, accept_slot hacc] at ha
        simp only [Option.isSome_none, Bool.false_or, Bool.or_eq_true, Bool.and_eq_true, decide_eq_true_eq, hpo, false_or,
          hnob.1, hnob.2] at ha
        obtain ⟨⟨⟨hbest, hshown⟩, hty⟩, htif⟩ := ha
        have hn1 : b1.NoIceberg V := by
          intro p j hj
          rw [hun.queue] at hj
          rw [hun.body p j hj]
          exact (h.typed.queued p j hj).not_iceberg
        have hg1 : b1.core.OnGrid V := by
          intro u
          rw [hun.best]
          exact h.grid u
        have hstp : b1.gates.stpPolicy = .none := by
          rw [(Book.accept_rest hacc).2.2.2.1]
          exact h.stp
        obtain ⟨q, htouch⟩ := matchAgainst_touches hw1 hi hg1 hstp hn1 hside hprice (by rw [hun.best, hbest]) hm
        -- the order has more than the level shows, so something is left of it
        have hleft : 0 < q := by
          have hsum := htouch.sum
          have hrem : (b1.core.body i).remainingQty = r.qty := by
            rw [hbody]
            show r.qty - 0 = r.qty
            omega
          have hshown1 : shownSum b1.core.body (b1.core.queue V r.priceTicks) =
              shownSum b.core.body (b.core.queue V r.priceTicks) := by
            rw [hun.queue]
            exact congrArg List.sum (map_congr_left fun j hj => by rw [hun.body _ j hj])
          have hnn : 0 ≤ shownSum b2.core.body (b2.core.queue V r.priceTicks) := by
            refine sum_nonneg fun x hx => ?_
            obtain ⟨j, hj, rfl⟩ := mem_map.mp hx
            exact (htouch.taking.wf.resting hj).shown
          rw [hrem, hshown1] at hsum
          omega
        obtain ⟨x, hx⟩ := htouch.took
        refine finish_relays (hmute.trans htouch.mute) hon ?_ hr ?_ ?_ (.inr ⟨?_, ?_⟩) hfin
        · rw [hx]
          exact hprice
        · rw [hx, hbody]
          exact hk.not_hidden
        · have := htouch.left
          unfold Order.remainingQty at this
          omega
        · rw [hx, hbody]
          exact hty
        · rw [hx, hbody]
          exact htif

/-! ## Calls -/

/-- The call leaves no level changed without a message; less quantity in place always does. -/
def Book.announced (V : Env) (b : Book) : Op → Bool
  | .submit r => b.announces V r
  | .cancel _ => true
  | .modify id newPrice newQty => (b.core.find id).all fun i =>
      !(newPrice = (b.order i).priceTicks && newQty < (b.order i).totalQty && (b.order i).filledQty < newQty) &&
        (b.cancelInternal V i false).announces V ((b.order i).resubmit id newPrice newQty)
  | _ => false

/-- Submitting LIMIT, IOC, FOK and POST_ONLY orders, cancelling and modifying. -/
def Op.fed : Op → Bool
  | .submit r => fedKind r.kind
  | .cancel _ | .modify .. => true
  | _ => false

theorem Ready.cancel (h : Ready V b) (hi : i ∈ b.core.queue V p) (e : Bool) : Ready V (b.cancelInternal V i e) := by
  have hkeep := cancelInternal_summed h.wf h.summed hi e
  refine ⟨cancelInternal_continuous h.cont e, hkeep.1, Book.cancelInternal_inFlight.trans h.idle, h.typed.cancel h.wf hi e,
    hkeep.2, cancelInternal_onGrid h.grid i e, ?_⟩
  rw [(Book.cancelInternal_rest e (h.wf.resting hi).active).2.2.2.1]
  exact h.stp

theorem Ready.submit (h : Ready V b) (hk : fedKind r.kind) (hs : Book.submit V n r b = some (y, b')) : Ready V b' := by
  have hd := submit_does (N := False) n r b y b' h.wf (.inr h.cont.bracket) hs
  obtain ⟨l, hl, -⟩ := submit_prints h.wf hs
  refine ⟨submit_continuous h.cont hs, hd.wf h.wf, hd.inFlight.trans h.idle, ?_, ?_, (Core.OnGrid.walk V).submit n r b y b' hs h.grid,
    hl.stpPolicy.trans h.stp⟩
  · exact (submit_flow h.wf h.cont hk hs).keeps h.wf h.typed fun hw hm ht => hm.typed hw ht
  · have he : Book.exec V n (.submit r) b = some (.id y.1 y.2, b') := by
      show (Book.submit V n r b).map _ = _
      rw [hs]
      rfl
    have hst : b.reducesStop (.submit r) = false := rfl
    refine ((exec_tame h.wf hst he).acts.keeps (I := fun b => Wf V b ∧ b.Summed V) ⟨h.wf, h.summed⟩ ?_).2
    rintro k b b' hk ha ⟨hw, hs⟩
    exact ⟨ha.wf hw, ha.summed hk hw hs⟩

/-- The messages are taken from the queue. -/
theorem Ready.retape (h : Ready V b) (tape : Tape) : Ready V { b with tape := tape } := by
  have hsame : SameSlots b { b with tape := tape } := .of_core rfl rfl
  exact ⟨h.cont.congr h.cont.gates rfl id rfl rfl, h.wf.aside hsame, h.idle, ⟨h.typed.queued, h.typed.flying⟩,
    hsame.summed h.summed, h.grid, h.stp⟩

/-- One call: the messages it pushed tell all that changed. -/
theorem exec_relays {op : Op} {a : Outcome} (h : Ready V b) (hon : b.tape.deltaQueueEnabled) (hop : op.fed)
    (ha : b.announced V op) (he : Book.exec V n op b = some (a, b')) : Ready V b' ∧ ∃ l, Relays V b b' l := by
  cases op with
  | submit r =>
    obtain ⟨y, hs⟩ := Book.returned he fun _ => rfl
    have hk : fedKind r.kind := of_decide_eq_true hop
    exact ⟨h.submit hk hs, submit_relays h hon hk ha hs⟩
  | cancel id =>
    cases he
    rw [cancel_eq h.cont h.wf]
    cases hf : b.core.find id with
    | none => exact ⟨h, [], Relays.silent (Mute.refl 0 b) rfl⟩
    | some i =>
      obtain ⟨p, hi⟩ := h.cont.queued h.wf hf
      obtain ⟨d, hd⟩ := cancel_relays h.wf h.summed hi true hon
      exact ⟨h.cancel hi true, [d], hd⟩
  | modify id newPrice newQty =>
    obtain ⟨y, hs⟩ := Book.returned he fun _ => rfl
    rw [modify_eq h.cont h.wf] at hs
    simp only [Book.announced] at ha
    cases hf : b.core.find id with
    | none =>
      rw [hf] at hs
      cases hs
      exact ⟨h, [], Relays.silent (Mute.refl 0 b) rfl⟩
    | some i =>
      rw [hf] at hs ha
      simp only [Option.all_some, Bool.and_eq_true, Bool.not_eq_true', Bool.and_eq_false_iff,
        decide_eq_false_iff_not] at ha
      obtain ⟨hmove, hann⟩ := ha
      obtain ⟨p, hi⟩ := h.cont.queued h.wf hf
      dsimp only at hs
      rw [if_neg (by rintro ⟨h1, h2, h3⟩; rcases hmove with (hc | hc) | hc; exacts [hc h1, hc h2, hc h3])] at hs
      obtain ⟨d, hd⟩ := cancel_relays h.wf h.summed hi false hon
      have h1 := h.cancel hi false
      have hk : fedKind ((b.order i).resubmit id newPrice newQty).kind := h.typed.queued p i hi
      obtain ⟨l, hl⟩ := submit_relays h1 (hd.enabled.trans hon) hk hann hs
      exact ⟨h1.submit hk hs, _, hd.trans hl⟩
  | _ => cases hop

/-! ## Runs -/

/-- A book and a consumer of its feed: after each call the consumer takes every message from the queue. -/
inductive Fed (V : Env) (P : Book → Op → Prop) : Book → (Int → Int) → Prop
  | init {b : Book} {a : Outcome} : Book.Step V (fresh V) (.enableDeltaQueue true) a b → Fed V P b fun _ => 0
  | step {b b₁ b' : Book} {c : Int → Int} {op : Op} {a : Outcome} {k : Nat} {l : List DeltaMessage} : Fed V P b c →
      P b op → Book.Step V b op a b₁ → b₁.tape.deltaQueue.length ≤ k →
      Book.Step V b₁ (.popDeltaQueue k) (.deltas l) b' → Fed V P b' (l.foldl applyDelta c)

/-- The consumer holds what the book shows, at every price. -/
def FeedExact (V : Env) (b : Book) (c : Int → Int) : Prop := ∀ p, c p = b.totalVolumeAtPrice V p

theorem fresh_ready (V : Env) : Ready V (fresh V) := by
  refine ⟨fresh_continuous V, fresh_wf V, rfl, fresh_typed, fresh_summed V, fun s => .inl ?_, rfl⟩
  cases s <;> rfl

theorem Fed.exact (h : Fed V (fun b op => op.fed = true ∧ b.announced V op) b c) :
    Ready V b ∧ b.tape.deltaQueueEnabled ∧ b.tape.deltaQueue = [] ∧ c = b.totalVolumeAtPrice V := by
  induction h with
  | init hs =>
    obtain ⟨n, hn⟩ := hs
    cases hn
    refine ⟨(fresh_ready V).retape _, rfl, rfl, funext fun p => ?_⟩
    unfold Book.totalVolumeAtPrice
    split
    · rfl
    · rfl
  | step _ hp hs hk hpop ih =>
    obtain ⟨hready, hon, hnil, rfl⟩ := ih
    obtain ⟨n, hn⟩ := hs
    obtain ⟨m, hm⟩ := hpop
    obtain ⟨hready', l, hl⟩ := exec_relays hready hon hp.1 hp.2 hn
    cases hm
    refine ⟨hready'.retape _, hl.enabled.trans hon, drop_eq_nil_of_le hk, ?_⟩
    rw [take_of_length_le hk, hl.queue, hnil, nil_append, hl.volume]
    rfl

end

/-- The calls `ops`, each of which must pass `chk`; the consumer takes all messages after each. -/
def Book.feed (V : Env) (n : Nat) (chk : Book → Op → Bool) : List Op → Book → (Int → Int) → Option (Book × (Int → Int))
  | [], b, c => some (b, c)
  | op :: ops, b, c => if chk b op then
      (Book.exec V n op b).bind fun x =>
        Book.feed V n chk ops { x.2 with tape := { x.2.tape with deltaQueue := [] } } (x.2.tape.deltaQueue.foldl applyDelta c)
    else none

theorem Fed.feed {V : Env} {P : Book → Op → Prop} {n : Nat} {chk : Book → Op → Bool} (hP : ∀ b op, chk b op → P b op)
    (ops : List Op) {b b' : Book} {c c' : Int → Int} (h : Fed V P b c) (hr : Book.feed V n chk ops b c = some (b', c')) :
    Fed V P b' c' := by
  induction ops generalizing b c with
  | nil =>
    cases hr
    exact h
  | cons op ops ih =>
    unfold Book.feed at hr
    split at hr
    · rename_i hc
      obtain ⟨⟨a, b1⟩, he, hr⟩ := Option.bind_eq_some_iff.mp hr
      refine ih (.step h (hP _ _ hc) ⟨n, he⟩ le_rfl ⟨n, ?_⟩) hr
      show some (Outcome.deltas (b1.tape.deltaQueue.take _), _) = _
      rw [take_length, drop_length]
    · cases hr

/-- Such a run on a fresh book. -/
theorem Fed.ofRun {V : Env} {P : Book → Op → Prop} {n : Nat} {chk : Book → Op → Bool} {ops : List Op} {b : Book}
    {f : Book × (Int → Int) → Bool} (hb : Book.exec V n (.enableDeltaQueue true) (fresh V) = some (.unit, b))
    (h : (Book.feed V n chk ops b fun _ => 0).any f) (hP : ∀ b op, chk b op → P b op) :
    ∃ b' c, Fed V P b' c ∧ f (b', c) := by
  obtain ⟨⟨b', c⟩, hr, hf⟩ := (Option.any_eq_true _ _).mp h
  exact ⟨b', c, .feed hP ops (.init ⟨n, hb⟩) hr, hf⟩

/-- In a run whose calls all leave no level changed without a message, the consumer is exact. -/
theorem feed_complete {V : Env} {b : Book} {c : Int → Int}
    (h : Fed V (fun b op => op.fed = true ∧ b.announced V op = true) b c) : FeedExact V b c := by
  intro p
  rw [h.exact.2.2.2]

/-- A BUY takes all there is at its limit and rests there; another order is moved. -/
theorem feed_complete_small : ∃ b c, Fed smallEnv (fun b op => op.fed = true ∧ b.announced smallEnv op = true) b c ∧
    c 3 = 2 ∧ c 4 = 0 ∧ c 5 = 6 ∧ FeedExact smallEnv b c := by
  have hrun : (Book.feed smallEnv 20 (fun b op => op.fed && b.announced smallEnv op)
      [.submit { side := .sell, priceTicks := 3, qty := 5 }, .submit { side := .sell, priceTicks := 4, qty := 4, orderId := 8 },
       .submit { side := .buy, priceTicks := 3, qty := 7, clientId := 1 }, .modify 8 5 6]
      { fresh smallEnv with tape := { (fresh smallEnv).tape with deltaQueueEnabled := true } } fun _ => 0).any
      (fun x => x.2 3 = 2 && x.2 4 = 0 && x.2 5 = 6) = true := by decide +kernel
  obtain ⟨b, c, h, hc⟩ := Fed.ofRun rfl hrun
    fun _ _ h => Bool.and_eq_true_iff.mp h
  simp only [Bool.and_eq_true, decide_eq_true_eq] at hc
  exact ⟨b, c, h, hc.1.1, hc.1.2, hc.2, feed_complete h⟩

/-- SELL 5 at price 3, BUY 2 at price 3: the consumer still holds 5, the book shows 3. -/
theorem partial_fill_unannounced : ∃ b c, Fed smallEnv (fun _ op => op.fed = true) b c ∧ c 3 = 5 ∧
    b.totalVolumeAtPrice smallEnv 3 = 3 ∧ ¬ FeedExact smallEnv b c := by
  have hrun : (Book.feed smallEnv 20 (fun _ op => op.fed)
      [.submit { side := .sell, priceTicks := 3, qty := 5 }, .submit { side := .buy, priceTicks := 3, qty := 2, clientId := 1 }]
      { fresh smallEnv with tape := { (fresh smallEnv).tape with deltaQueueEnabled := true } } fun _ => 0).any
      (fun x => x.2 3 = 5 && x.1.totalVolumeAtPrice smallEnv 3 = 3) = true := by decide +kernel
  obtain ⟨b, c, h, hc⟩ := Fed.ofRun rfl hrun fun _ _ h => h
  simp only [Bool.and_eq_true, decide_eq_true_eq] at hc
  refine ⟨b, c, h, hc.1, hc.2, fun hex => ?_⟩
  have h3 := hex 3
  rw [hc.1, hc.2] at h3
  exact absurd h3 (by decide)

end HftLab.OrderBook
