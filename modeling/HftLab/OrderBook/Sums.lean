/-
  HftLab.OrderBook.Sums — the sums each level carries.

  `Book.Summed`: `total_qty` and `total_hidden` of a level are the sums of the displayed and of the
  hidden quantities of the orders queued there, wrapped to 32 bits, and `order_count` is their number.
  Every act keeps this but one: the decrease of a waiting stop in place (`Act.summed`).
-/

import HftLab.OrderBook.Reachable
import HftLab.OrderBook.Views

namespace HftLab.OrderBook

open Lib Function List

def shownSum (B : Nat → Order) (l : List Nat) : Int := (l.map fun i => (B i).displayedQty).sum

def hiddenSum (B : Nat → Order) (l : List Nat) : Int := (l.map fun i => (B i).hiddenQty).sum

/-- What a level says about its queue. -/
structure Tally where
  qty : Int
  hidden : Int
  count : Int

def Core.tally (c : Core) (p : Int) : Tally := ⟨(c.levels p).totalQty, (c.levels p).totalHidden, (c.levels p).orderCount⟩

/-- The tally of a queue `l` of orders `B`. -/
def tallyOf (B : Nat → Order) (l : List Nat) : Tally := ⟨i32 (shownSum B l), i32 (hiddenSum B l), l.length⟩

/-- The levels of `c` carry the sums of the queues `Q`. -/
def Core.SummedBy (c : Core) (Q : Int → List Nat) : Prop := ∀ p, c.tally p = tallyOf c.body (Q p)

def Book.Summed (V : Env) (b : Book) : Prop := b.core.SummedBy (b.core.queue V)

/-! ## How the helpers move the tallies -/

section

variable (c : Core) (p : Int) (i t : Nat)

def Tally.minus (x : Tally) (o : Order) : Tally :=
  ⟨i32 (x.qty - o.displayedQty), i32 (x.hidden - o.hiddenQty), if 0 < x.count then x.count - 1 else x.count⟩

def Tally.plus (x : Tally) (o : Order) : Tally :=
  ⟨i32 (x.qty + o.displayedQty), i32 (x.hidden + o.hiddenQty), x.count + 1⟩

theorem setLevel_tally (l : PriceLevel) :
    (c.setLevel p l).tally = update c.tally p ⟨l.totalQty, l.totalHidden, l.orderCount⟩ := by
  funext q
  unfold Core.tally
  by_cases e : q = p
  · subst e
    rw [update_self, Core.setLevel_levels_self]
  · rw [update_of_ne e, Core.setLevel_levels_of_ne e]

theorem splice_tally : (c.splice p i).tally = c.tally := by
  funext q
  unfold Core.tally
  by_cases e : q = p
  · subst e
    rw [Core.splice_levels_self]
  · rw [Core.splice_levels_of_ne c i e]

theorem requeue_tally : (c.requeue p i).tally = c.tally := by
  funext q
  unfold Core.tally
  by_cases e : q = p
  · subst e
    rw [Core.requeue_levels_self, Core.splice_levels_self]
  · rw [Core.requeue_levels_of_ne c i p e]

theorem unlink_tally : (c.unlinkFromLevel i).tally =
    update c.tally (c.body i).priceTicks ((c.tally (c.body i).priceTicks).minus (c.body i)) := by
  funext q
  unfold Core.tally
  by_cases e : q = c.price i
  · subst e
    rw [Core.unlinkFromLevel_levels_self]
    exact (update_self (f := c.tally) ..).symm
  · rw [Core.unlinkFromLevel_levels_of_ne c i e]
    exact (update_of_ne (f := c.tally) e ..).symm

theorem enqueue_tally : (c.enqueueAtLevel i).tally =
    update c.tally (c.body i).priceTicks ((c.tally (c.body i).priceTicks).plus (c.body i)) := by
  funext q
  unfold Core.tally
  by_cases e : q = c.price i
  · subst e
    rw [Core.enqueueAtLevel_levels_self]
    exact (update_self (f := c.tally) ..).symm
  · rw [Core.enqueueAtLevel_levels_of_ne c i e]
    exact (update_of_ne (f := c.tally) e ..).symm

theorem settle_tally (o : Order) : (c.settle i o).tally =
    update c.tally o.priceTicks ((c.tally o.priceTicks).plus o.strip) := by
  have h := enqueue_tally (c.setOrder i o) i
  rw [Core.setOrder_body, update_self] at h
  exact h

theorem fill_tally (q : Int) : (c.fill p t i q).tally =
    update c.tally p ⟨i32 ((c.tally p).qty - q), (c.tally p).hidden, (c.tally p).count⟩ := setLevel_tally ..

theorem complete_tally : (c.complete p i).tally = update c.tally p
    { c.tally p with count := if 0 < (c.tally p).count then (c.tally p).count - 1 else (c.tally p).count } := by
  have h := splice_tally (c.setStatus i .filled) p i
  have hp : ((c.setStatus i .filled).splice p i).tally p = c.tally p := congrFun h p
  show (((c.setStatus i .filled).splice p i).setLevel p _).tally = _
  rw [setLevel_tally, h, ← hp]
  rfl

theorem refresh_tally (shown : Int) : (c.refresh p i shown).tally = update c.tally p
    { c.tally p with qty := i32 ((c.tally p).qty + shown), hidden := i32 ((c.tally p).hidden - shown) } := by
  unfold Core.refresh
  dsimp only
  split
  · exact setLevel_tally ..
  · rw [requeue_tally]
    exact setLevel_tally ..

theorem auctionFill_tally (take : Int) : (c.auctionFill p i take).tally = update c.tally p
    { c.tally p with
      qty := i32 ((c.tally p).qty - min take (c.body i).displayedQty)
      hidden := i32 ((c.tally p).hidden - (take - min take (c.body i).displayedQty)) } := setLevel_tally ..

theorem reprice_tally (V : Env) (q : Int) : (c.reprice V i q).tally =
    update (c.unlinkFromLevel i).tally q (((c.unlinkFromLevel i).tally q).plus (c.body i)) := by
  obtain ⟨x, y, hr⟩ := (c.unlinkFromLevel i).refreshIfEmptied_eq (c.pool i).priceTicks V (c.pool i).side
  unfold Core.reprice
  dsimp only
  rw [hr, enqueue_tally, Core.setOrder_body, update_self]
  have hb := congrFun (Core.unlinkFromLevel_body c i) i
  have h1 : ((c.unlinkFromLevel i).body i).displayedQty = (c.body i).displayedQty := congrArg Order.displayedQty hb
  have h2 : ((c.unlinkFromLevel i).body i).hiddenQty = (c.body i).hiddenQty := congrArg Order.hiddenQty hb
  unfold Tally.plus
  rw [← h1, ← h2]
  rfl

end

/-! ## The tally of a queue -/

section

variable {B : Nat → Order} {l F X : List Nat} {i t : Nat} {o : Order} {V : Env} {c d : Core} {Q : Int → List Nat} {p q : Int}
    {b b' : Book}

theorem tallyOf_push : tallyOf B (l ++ [i]) = (tallyOf B l).plus (B i) := by
  simp [tallyOf, Tally.plus, shownSum, hiddenSum]

theorem tallyOf_erase (hi : i ∈ l) : tallyOf B (l.erase i) = (tallyOf B l).minus (B i) := by
  have hpos : 0 < l.length := length_pos_of_mem hi
  have hc : (0 : Int) < l.length := by omega
  unfold tallyOf Tally.minus shownSum hiddenSum
  dsimp only
  rw [i32_sub_left, i32_sub_left, sum_map_erase _ hi, sum_map_erase _ hi, if_pos hc, length_erase_of_mem hi]
  congr 1
  omega

theorem tallyOf_congr {B' : Nat → Order} (h : ∀ j ∈ l, B' j = B j) : tallyOf B' l = tallyOf B l := by
  have h1 : shownSum B' l = shownSum B l := by
    unfold shownSum
    rw [map_congr_left fun j hj => congrArg Order.displayedQty (h j hj)]
  have h2 : hiddenSum B' l = hiddenSum B l := by
    unfold hiddenSum
    rw [map_congr_left fun j hj => congrArg Order.hiddenQty (h j hj)]
  unfold tallyOf
  rw [h1, h2]

/-- One order of the queue is rewritten: the sums move by as much. -/
theorem tallyOf_rewrite (hn : l.Nodup) (hi : i ∈ l) : tallyOf (update B i o) l =
    ⟨i32 (shownSum B l + (o.displayedQty - (B i).displayedQty)),
     i32 (hiddenSum B l + (o.hiddenQty - (B i).hiddenQty)), l.length⟩ := by
  have h1 : shownSum (update B i o) l = shownSum B l + (o.displayedQty - (B i).displayedQty) := by
    unfold shownSum
    rw [sum_map_change hn hi (fun x hx => by rw [update_of_ne hx]), update_self]
  have h2 : hiddenSum (update B i o) l = hiddenSum B l + (o.hiddenQty - (B i).hiddenQty) := by
    unfold hiddenSum
    rw [sum_map_change hn hi (fun x hx => by rw [update_of_ne hx]), update_self]
  unfold tallyOf
  rw [h1, h2]

theorem tallyOf_perm {l' : List Nat} (h : l.Perm l') : tallyOf B l = tallyOf B l' := by
  unfold tallyOf shownSum hiddenSum
  rw [(h.map _).sum_eq, (h.map fun i => (B i).hiddenQty).sum_eq, h.length_eq]

/-! ## The helpers keep the sums -/

/-- Level `p` changes; the queues of the others keep their orders. -/
theorem Core.SummedBy.relevel (h : c.SummedBy Q) {x : Tally} (hT : d.tally = update c.tally p x)
    (hB : ∀ r, r ≠ p → ∀ j ∈ Q r, d.body j = c.body j) (hx : x = tallyOf d.body l) : d.SummedBy (update Q p l) := by
  intro r
  rw [hT]
  by_cases e : r = p
  · subst e
    rw [update_self, update_self, hx]
  · rw [update_of_ne e, update_of_ne e, h r, tallyOf_congr (hB r e)]

/-- What no queue holds may change. -/
theorem Core.SummedBy.frame (h : c.SummedBy Q) (hT : d.tally = c.tally) (hB : ∀ r, ∀ j ∈ Q r, d.body j = c.body j) :
    d.SummedBy Q := by
  intro r
  rw [hT, h r, tallyOf_congr (hB r)]

/-- The slot `i` of level `p` is in no other queue. -/
theorem Layout.elsewhere (hl : Layout V c F Q X) (hi : i ∈ Q p) : ∀ r, r ≠ p → ∀ j ∈ Q r, update B i o j = B j := by
  intro r hr j hj
  refine update_of_ne ?_ ..
  rintro rfl
  exact hr (hl.unique hj hi)

/-- An order is rewritten in its place. -/
theorem Core.SummedBy.rewrite (h : c.SummedBy Q) (hl : Layout V c F Q X) (hi : i ∈ Q p)
    (hT : d.tally = update c.tally p ⟨i32 ((c.tally p).qty + (o.displayedQty - (c.body i).displayedQty)),
      i32 ((c.tally p).hidden + (o.hiddenQty - (c.body i).hiddenQty)), (c.tally p).count⟩)
    (hB : d.body = update c.body i o) : d.SummedBy Q := by
  rw [← update_eq_self p Q]
  refine h.relevel hT (by rw [hB]; exact hl.elsewhere hi) ?_
  rw [hB, tallyOf_rewrite (hl.level p).nodup hi, h p]
  unfold tallyOf
  rw [i32_add_left, i32_add_left]

/-- Only the displayed and the hidden quantity of an order count. -/
theorem Core.SummedBy.setOrder (h : c.SummedBy Q) (hT : d.tally = c.tally) (hB : d.body = update c.body i o)
    (hD : o.displayedQty = (c.body i).displayedQty) (hH : o.hiddenQty = (c.body i).hiddenQty) : d.SummedBy Q := by
  have h1 : ∀ j, (d.body j).displayedQty = (c.body j).displayedQty := by
    intro j
    rw [hB]
    by_cases e : j = i
    · rw [e, update_self, hD]
    · rw [update_of_ne e]
  have h2 : ∀ j, (d.body j).hiddenQty = (c.body j).hiddenQty := by
    intro j
    rw [hB]
    by_cases e : j = i
    · rw [e, update_self, hH]
    · rw [update_of_ne e]
  intro r
  unfold tallyOf shownSum hiddenSum
  simp only [h1, h2, hT]
  exact h r

theorem Core.SummedBy.setStatus (h : c.SummedBy Q) (i : Nat) (s : OrderStatus) : (c.setStatus i s).SummedBy Q :=
  h.setOrder rfl (Core.setStatus_body ..) rfl rfl

theorem tallyOf_without (hn : (Q p).Nodup) (hi : i ∈ Q p) :
    tallyOf (update B i o) ((Q p).erase i) = (tallyOf B (Q p)).minus (B i) := by
  rw [← tallyOf_erase hi]
  refine tallyOf_congr fun j hj => update_of_ne ?_ ..
  rintro rfl
  exact hn.not_mem_erase hj

theorem Core.SummedBy.unlink (h : c.SummedBy Q) (hl : Layout V c F Q X) (hi : i ∈ Q p) :
    (c.unlinkFromLevel i).SummedBy (update Q p ((Q p).erase i)) := by
  have hp : (c.body i).priceTicks = p := hl.price p i hi
  refine h.relevel (by rw [unlink_tally, hp]) (by rw [Core.unlinkFromLevel_body]; exact fun _ _ _ _ => rfl) ?_
  rw [Core.unlinkFromLevel_body, h p, tallyOf_erase hi]

theorem Core.SummedBy.settle (h : c.SummedBy Q) (hi : ∀ r, i ∉ Q r) (o : Order) :
    (c.settle i o).SummedBy (update Q o.priceTicks (Q o.priceTicks ++ [i])) := by
  have hB : ∀ r, ∀ j ∈ Q r, (c.settle i o).body j = c.body j := by
    intro r j hj
    rw [Core.settle_body]
    refine update_of_ne ?_ ..
    rintro rfl
    exact hi r hj
  refine h.relevel (settle_tally c i o) (fun r _ => hB r) ?_
  rw [tallyOf_push, tallyOf_congr (hB _), h o.priceTicks, Core.settle_body, update_self]

/-- The displayed quantity and the level's sum go down together; what is hidden stays. -/
theorem Core.SummedBy.fill (h : c.SummedBy Q) (hl : Layout V c F Q X) (hi : i ∈ Q p) (ht : t ∈ X) (q : Int) :
    (c.fill p t i q).SummedBy Q := by
  have hnt : ∀ r, t ∉ Q r := hl.not_queued (mem_append_right _ ht)
  have hne : i ≠ t := fun e => hnt p (e ▸ hi)
  have h1 : (c.setOrder t ((c.pool t).tookBy q)).SummedBy Q := by
    refine h.frame rfl fun r j hj => ?_
    rw [Core.setOrder_body]
    refine update_of_ne ?_ ..
    rintro rfl
    exact hnt r hj
  have hb : (c.setOrder t ((c.pool t).tookBy q)).body = update c.body t ((c.body t).tookBy q) :=
    Core.setOrder_body ..
  have hl1 := hl.setOrder (o := (c.pool t).tookBy q) rfl rfl rfl rfl
  refine h1.rewrite hl1 hi ?_ (by rw [Core.fill_body hne, hb])
  rw [fill_tally, hb, update_of_ne hne]
  have hh : ((c.body i).filledBy q).hiddenQty = (c.body i).hiddenQty := by
    unfold Order.hiddenQty Order.filledBy
    dsimp only
    omega
  have hd : ((c.body i).filledBy q).displayedQty - (c.body i).displayedQty = -q := by
    unfold Order.filledBy
    dsimp only
    omega
  have hw : i32 (c.tally p).hidden = (c.tally p).hidden := by
    rw [h p]
    exact i32_eq (isInt32_i32 _)
  rw [hh, hd, Int.sub_self, Int.add_zero]
  show _ = update c.tally p ⟨_, i32 (c.tally p).hidden, _⟩
  rw [hw]
  rfl

/-- A filled maker shows and hides nothing when it leaves. -/
theorem Core.SummedBy.complete (h : c.SummedBy Q) (hl : Layout V c F Q X) (hi : i ∈ Q p)
    (hD : (c.body i).displayedQty = 0) (hH : (c.body i).hiddenQty = 0) :
    (c.complete p i).SummedBy (update Q p ((Q p).erase i)) := by
  refine h.relevel (complete_tally c p i) (by rw [Core.complete_body]; exact hl.elsewhere hi) ?_
  rw [Core.complete_body, tallyOf_without (hl.level p).nodup hi, ← h p]
  have hw : i32 (c.tally p).qty = (c.tally p).qty ∧ i32 (c.tally p).hidden = (c.tally p).hidden := by
    rw [h p]
    exact ⟨i32_eq (isInt32_i32 _), i32_eq (isInt32_i32 _)⟩
  unfold Tally.minus
  rw [hD, hH, Int.sub_zero, Int.sub_zero, hw.1, hw.2]

theorem Core.SummedBy.refresh (h : c.SummedBy Q) (hl : Layout V c F Q X) (hi : i ∈ Q p)
    (hD : (c.body i).displayedQty = 0) (shown : Int) :
    (c.refresh p i shown).SummedBy (update Q p ((Q p).erase i ++ [i])) := by
  refine h.relevel (refresh_tally c p i shown) (by rw [Core.refresh_body]; exact hl.elsewhere hi) ?_
  have hperm : ((Q p).erase i ++ [i]).Perm (Q p) :=
    (perm_append_comm.trans (perm_cons_erase hi).symm)
  rw [tallyOf_perm hperm, Core.refresh_body, tallyOf_rewrite (hl.level p).nodup hi, h p]
  have hh : ({ c.body i with displayedQty := shown } : Order).hiddenQty - (c.body i).hiddenQty = -shown := by
    unfold Order.hiddenQty
    dsimp only
    omega
  rw [hh, hD, Int.sub_zero, ← Int.sub_eq_add_neg]
  unfold tallyOf
  rw [i32_add_left, i32_sub_left]

theorem Core.SummedBy.auctionFill (h : c.SummedBy Q) (hl : Layout V c F Q X) (hi : i ∈ Q p) (take : Int) :
    (c.auctionFill p i take).SummedBy Q := by
  refine h.rewrite hl hi ?_ Core.auctionFill_body
  have hd : ((c.body i).auctioned take).displayedQty - (c.body i).displayedQty = -min take (c.body i).displayedQty := by
    unfold Order.auctioned
    dsimp only
    omega
  have hh : ((c.body i).auctioned take).hiddenQty - (c.body i).hiddenQty = -(take - min take (c.body i).displayedQty) := by
    unfold Order.hiddenQty Order.auctioned
    dsimp only
    omega
  rw [hd, hh, ← Int.sub_eq_add_neg, ← Int.sub_eq_add_neg]
  exact auctionFill_tally c p i take

theorem Core.SummedBy.leave (h : c.SummedBy Q) (hl : Layout V c F Q X) (hi : i ∈ Q p) (s : OrderStatus) :
    (c.leave V i s).SummedBy (update Q p ((Q p).erase i)) := by
  obtain ⟨x, y, hr⟩ := (c.unlinkFromLevel i).refreshIfEmptied_eq (c.pool i).priceTicks V (c.pool i).side
  have h1 : ({ c.unlinkFromLevel i with bestBid := x, bestAsk := y } : Core).SummedBy (update Q p ((Q p).erase i)) :=
    (h.unlink hl hi).frame rfl fun _ _ _ => rfl
  refine (h1.setStatus i s).frame ?_ fun r j _ => ?_
  · unfold Core.leave
    rw [hr]
    rfl
  · unfold Core.leave
    rw [hr, Core.freeOrder_body]
    rfl

theorem Core.SummedBy.reduce (h : c.SummedBy Q) (hl : Layout V c F Q X) (hi : i ∈ Q p) {n : Int}
    (hT : d.tally = update c.tally p
      ⟨i32 ((c.tally p).qty - min ((c.body i).totalQty - n) (c.body i).displayedQty),
       i32 ((c.tally p).hidden - ((c.body i).totalQty - n - min ((c.body i).totalQty - n) (c.body i).displayedQty)),
       (c.tally p).count⟩)
    (hB : d.body = update c.body i ((c.body i).reduced n)) : d.SummedBy Q := by
  refine h.rewrite hl hi ?_ hB
  rw [hT]
  have hd : ((c.body i).reduced n).displayedQty - (c.body i).displayedQty =
      -min ((c.body i).totalQty - n) (c.body i).displayedQty := by
    unfold Order.reduced
    dsimp only
    omega
  have hh : ((c.body i).reduced n).hiddenQty - (c.body i).hiddenQty =
      -((c.body i).totalQty - n - min ((c.body i).totalQty - n) (c.body i).displayedQty) := by
    unfold Order.hiddenQty Order.reduced
    dsimp only
    omega
  rw [hd, hh, ← Int.sub_eq_add_neg, ← Int.sub_eq_add_neg]

theorem Core.SummedBy.reprice (h : c.SummedBy Q) (hl : Layout V c F Q X) (hi : i ∈ Q p) (q : Int) :
    (c.reprice V i q).SummedBy (requeued Q p q i) := by
  have h1 := h.unlink hl hi
  have hout : ∀ r, ∀ j ∈ update Q p ((Q p).erase i) r, j ≠ i := by
    rintro r j hj rfl
    by_cases e : r = p
    · subst e
      rw [update_self] at hj
      exact (hl.level r).nodup.not_mem_erase hj
    · rw [update_of_ne e] at hj
      exact e (hl.unique hj hi)
  have hB : ∀ r, ∀ j ∈ update Q p ((Q p).erase i) r, (c.reprice V i q).body j = (c.unlinkFromLevel i).body j := by
    intro r j hj
    rw [Core.reprice_body, Core.unlinkFromLevel_body]
    exact update_of_ne (hout r j hj) ..
  refine h1.relevel (reprice_tally c i V q) (fun r _ => hB r) ?_
  rw [tallyOf_push, tallyOf_congr (hB q), h1 q, Core.reprice_body, update_self]
  rfl

theorem clearLevels_tally (V : Env) (ps : List Int) (c : Core) (p : Int) :
    (ps.foldl (Core.clearLevel V) c).tally p = if p ∈ ps then ⟨0, 0, 0⟩ else c.tally p := by
  induction ps generalizing c with
  | nil => rfl
  | cons q ps ih =>
    rw [foldl_cons, ih]
    have hq : (c.clearLevel V q).tally p = if p = q then ⟨0, 0, 0⟩ else c.tally p := by
      unfold Core.tally Core.clearLevel
      by_cases e : p = q
      · subst e
        rw [if_pos rfl]
        dsimp only
        rw [update_self]
      · rw [if_neg e]
        dsimp only
        rw [update_of_ne e]
    rw [hq]
    by_cases e : p = q <;> by_cases e' : p ∈ ps <;> simp [e, e']

/-! ## Acts keep the sums -/

theorem Book.Summed.of_layout (h : b.core.SummedBy Q) (hl : Layout V b.core F Q X) : b.Summed V := by
  unfold Book.Summed
  rw [hl.queue_eq]
  exact h

/-- Nothing changes but a slot that is in no queue. -/
theorem Book.Summed.outside (h : b.Summed V) (hQ : b'.core.queue V = b.core.queue V) (hL : b'.core.levels = b.core.levels)
    (hB : b'.core.body = update b.core.body i o) (hi : ∀ r, i ∉ b.core.queue V r) : b'.Summed V := by
  unfold Book.Summed
  rw [hQ]
  refine Core.SummedBy.frame h ?_ fun r j hj => ?_
  · unfold Core.tally
    rw [hL]
  · rw [hB]
    refine update_of_ne ?_ ..
    rintro rfl
    exact hi r hj

theorem SameSlots.summed (h : SameSlots b b') (hs : b.Summed V) : b'.Summed V := by
  unfold Book.Summed
  rw [h.queue]
  refine Core.SummedBy.frame hs ?_ fun r j _ => ?_
  · unfold Core.tally
    rw [h.levels]
  · rw [h.body]

theorem Book.Summed.exec (h : b.Summed V) (hw : Wf V b) (hi : i ∈ b.core.queue V p) (ht : t ∈ b.inFlight) (ts : Nat)
    (hq : q ≤ (b.core.body i).displayedQty) : (b.executed V p t ts i q).Summed V := by
  have hne := hw.flying_ne_queued hi ht
  have hl := hw.links.fill (p := p) (t := t) (i := i) (q := q)
  have hs := Core.SummedBy.fill h hw.links hi ht q
  have hbi : (b.core.fill p t i q).body i = (b.core.body i).filledBy q := by
    rw [Core.fill_body hne, update_self]
  have hH := (hw.resting hi).hidden
  unfold Order.hiddenQty at hH
  have hset : Settled b p t i q (b.executed V p t ts i q) := Book.settled hne
  cases hset with
  | refresh shown hD _ _ _ hc =>
    have hD' : (b.core.body i).displayedQty = q := hD
    have hl' := hl.refresh hi shown
    rw [← hc] at hl'
    refine Book.Summed.of_layout ?_ hl'
    rw [hc]
    refine hs.refresh hl hi ?_ shown
    rw [hbi]
    show (b.core.body i).displayedQty - q = 0
    omega
  | complete hdone hc =>
    have hdone' : (b.core.body i).totalQty ≤ (b.core.body i).filledQty + q := hdone
    have hl' := hl.complete hi
    rw [← hc] at hl'
    refine Book.Summed.of_layout ?_ hl'
    rw [hc]
    refine hs.complete hl hi ?_ ?_
    · rw [hbi]
      show (b.core.body i).displayedQty - q = 0
      omega
    · rw [hbi]
      show (b.core.body i).totalQty - ((b.core.body i).filledQty + q) - ((b.core.body i).displayedQty - q) = 0
      omega
  | partial_ _ _ hc =>
    have hl' := hl.setStatus i .partiallyFilled
    rw [← hc] at hl'
    refine Book.Summed.of_layout ?_ hl'
    rw [hc]
    exact hs.setStatus i .partiallyFilled

theorem Book.Summed.auction (h : b.Summed V) (hw : Wf V b) (hi : i ∈ b.core.queue V p) (clearing take : Int) (ts : Nat) :
    (b.auctionTake p clearing i take ts).Summed V := by
  have hl := hw.links.auctionFill p i take
  have hs := Core.SummedBy.auctionFill h hw.links hi take
  cases b.auctioned p clearing i take ts with
  | complete _ hc =>
    have hl' := (((hl.setStatus i .filled).unlink hi).eraseId (b.order i).id).freeOrder mem_cons_self
    rw [← hc] at hl'
    refine Book.Summed.of_layout ?_ hl'
    rw [hc]
    refine Core.SummedBy.frame ((hs.setStatus i .filled).unlink (hl.setStatus i .filled) hi) rfl fun r j _ => ?_
    rw [Core.freeOrder_body]
    rfl
  | partial_ _ hc =>
    have hl' := hl.setStatus i .partiallyFilled
    rw [← hc] at hl'
    refine Book.Summed.of_layout ?_ hl'
    rw [hc]
    exact hs.setStatus i .partiallyFilled

theorem Book.Summed.clear (h : b.Summed V) (hw : Wf V b) : (b.clear V).Summed V := by
  obtain ⟨G, hl, -⟩ := Links.clear hw.links
  obtain ⟨c, hc, hcore⟩ := Book.clear_core
  refine Book.Summed.of_layout (fun p => ?_) hl
  have hfree : ∀ (l : List Nat) (d : Core), (l.foldl Core.freeOrder d).tally = d.tally := by
    intro l
    induction l with
    | nil => exact fun _ => rfl
    | cons i l ih => exact fun d => ih _
  have ht : (b.clear V).core.tally p = c.tally p := by
    rw [hcore]
    exact congrFun (hfree c.stopOrders { c with stopOrders := [] }) p
  rw [ht, hc, clearLevels_tally]
  split
  · rfl
  · rename_i hp
    have hnil : b.core.queue V p = [] := by
      by_contra hne
      obtain ⟨i, hi⟩ := exists_mem_of_ne_nil _ hne
      obtain ⟨h1, h2⟩ := hw.links.grid p i hi
      exact hp (mem_map.mpr ⟨p.toNat, mem_range.mpr (by omega), by omega⟩)
    rw [h p, hnil]
    rfl

theorem Book.Summed.leave (h : b.Summed V) (hw : Wf V b) (hi : i ∈ b.core.queue V p) {s : OrderStatus}
    (hc : b'.core = b.core.leave V i s) : b'.Summed V := by
  have hl := hw.links.leave (s := s) hi
  rw [← hc] at hl
  refine Book.Summed.of_layout ?_ hl
  rw [hc]
  exact Core.SummedBy.leave h hw.links hi s

/-- The order `o` joins a queue of `c`, whose levels and queued orders are those of `b`. -/
theorem Book.Summed.settle (h : b.Summed V) {c : Core} {F X : List Nat} (hl : Layout V c F (b.core.queue V) X) (hi : i ∈ X)
    (hL : c.levels = b.core.levels) (hB : ∀ r, ∀ j ∈ b.core.queue V r, c.body j = b.core.body j) {o : Order} {x y : Int}
    {ps : List Nat} (hr : inRange V o.priceTicks)
    (hc : b'.core = { c.settle i o with bestBid := x, bestAsk := y, pegOrders := ps }) : b'.Summed V := by
  have hs : c.SummedBy (b.core.queue V) := by
    refine Core.SummedBy.frame h ?_ hB
    unfold Core.tally
    rw [hL]
  have hl' := (hl.settle hi hr).same (d := b'.core) (by rw [hc]) (by rw [hc]) (by rw [hc]) (by rw [hc]) (by rw [hc])
  refine Book.Summed.of_layout ?_ hl'
  rw [hc]
  refine Core.SummedBy.frame (hs.settle ?_ o) rfl fun _ _ _ => rfl
  exact hl.not_queued (mem_append_right _ hi)

/-- Every act but the decrease of a waiting stop keeps the sums. -/
theorem Act.summed {k : Kind} (h : Act V k b b') (hk : tameKinds k) (hw : Wf V b) (hs : b.Summed V) : b'.Summed V := by
  have hstop : ∀ {j}, j ∈ b.core.stopOrders → ∀ r, j ∉ b.core.queue V r := fun hj =>
    hw.links.not_queued (mem_append_left _ (mem_append_right _ hj))
  have hfly : ∀ {j}, j ∈ b.inFlight → ∀ r, j ∉ b.core.queue V r := fun hj =>
    hw.links.not_queued (mem_append_right _ hj)
  have hfree : ∀ {j c o}, Allocated V b.inFlight j o b.core c → ∀ r, j ∉ b.core.queue V r := by
    rintro j c o ⟨⟨G, hF, -⟩, -, -⟩
    exact hw.links.not_queued (mem_append_left _ (mem_append_left _ (hF ▸ mem_cons_self)))
  cases h with
  | aux h _ _ _ => exact h.summed hs
  | config h _ _ _ _ _ => exact h.summed hs
  | accept r i _ _ ha =>
    obtain ⟨hal, -⟩ := Book.accept_eq hw.links ha
    exact hs.outside hal.view_core.1 (by rw [hal.rest]) hal.body (hfree hal)
  | wait oid i f c h =>
    have hal := hw.links.allocAs h.alloc
    have hv := hw.wait_view h.alloc h.core h.inFlight
    exact hs.outside (queue_of_view hv) (by rw [h.core, hal.rest]; rfl) (body_of_view hv) (hfree hal)
  | peg oid i f c h =>
    have hal := hw.links.allocAs h.alloc
    obtain ⟨x, y, hc⟩ := h.core
    obtain ⟨⟨G, -, hl⟩, hb, hrest⟩ := hal
    have hprice : (c.pool i).priceTicks = (f { id := b.core.newId oid }).priceTicks := by
      have : (c.body i).priceTicks = (f { id := b.core.newId oid }).strip.priceTicks := by rw [hb, update_self]
      exact this
    refine hs.settle hl mem_cons_self (by rw [hrest]) (fun r j hj => ?_) (hprice ▸ h.grid) hc
    rw [hb]
    refine update_of_ne ?_ ..
    rintro rfl
    exact hfree (hw.links.allocAs h.alloc) r hj
  | exec p t ts i qty hm => exact hs.exec hw hm.queued hm.flying ts (min_le_right _ _)
  | cancel p i hi => exact hs.leave hw hi (Book.cancelInternal_core (hw.resting hi).active)
  | replace p i hi => exact hs.leave hw hi (Book.cancelInternal_core (hw.resting hi).active)
  | unwait i hi =>
    obtain ⟨k, -, hv⟩ := hw.cancelPendingStop_view hi
    refine hs.outside (queue_of_view hv) ?_ (body_of_view hv) (hstop hi)
    unfold Book.cancelPendingStop
    split <;> rfl
  | finishFilled i hi _ =>
    have hv : (b.finishFilled i).view V = _ := hw.drop_view hi rfl rfl
    exact hs.outside (queue_of_view hv) rfl (body_of_view hv) (hfly hi)
  | finishIoc i hi _ =>
    have hv : (b.finishIoc i).view V = _ := hw.drop_view hi rfl rfl
    exact hs.outside (queue_of_view hv) rfl (body_of_view hv) (hfly hi)
  | rest i hi _ hr =>
    obtain ⟨x, y, hc⟩ := Book.restOrder_core
    refine hs.settle hw.links hi rfl (fun _ _ _ => rfl) ?_ (hc.trans rfl)
    rw [Order.atRest_price]
    exact hr
  | reduce p id i q hi _ _ _ =>
    have hv := hw.reduceInPlace_view (i := i) id q
    have hp : (b.core.body i).priceTicks = p := hw.price hi
    unfold Book.Summed
    rw [queue_of_view hv]
    refine Core.SummedBy.reduce hs hw.links hi ?_ (body_of_view hv)
    rw [← hp]
    exact setLevel_tally ..
  | reduceStop => exact hk.elim
  | release k i hk =>
    have hv := hw.releaseStop_view hk
    exact hs.outside (queue_of_view hv) rfl (body_of_view hv) (hstop (mem_of_getElem? hk))
  | reprice p i q x y hi hr =>
    refine Book.Summed.of_layout ?_ ((hw.links.reprice hi hr).same rfl rfl rfl rfl rfl)
    exact Core.SummedBy.frame (Core.SummedBy.reprice hs hw.links hi q) rfl fun _ _ _ => rfl
  | expire p i hi => exact hs.leave hw hi rfl
  | auction p clearing i take ts hi _ _ => exact hs.auction hw hi clearing take ts
  | touch k i o _ ho =>
    have hv := hw.touch_view ho
    unfold Book.Summed
    rw [queue_of_view hv]
    exact Core.SummedBy.setOrder hs rfl (body_of_view hv) (by rw [ho]; rfl) (by rw [ho]; rfl)
  | clear => exact hs.clear hw
  | stpAbort | stpCancel | oco | bracket => exact hs

theorem cancelInternal_summed (hw : Wf V b) (hs : b.Summed V) (hi : i ∈ b.core.queue V p) (e : Bool) :
    Wf V (b.cancelInternal V i e) ∧ (b.cancelInternal V i e).Summed V := by
  cases e with
  | true => exact ⟨(Act.cancel p i hi).wf hw, (Act.cancel p i hi).summed trivial hw hs⟩
  | false => exact ⟨(Act.replace p i hi).wf hw, (Act.replace p i hi).summed trivial hw hs⟩

end

theorem fresh_queue (V : Env) (p : Int) : (fresh V).core.queue V p = [] := by
  unfold Core.queue
  cases V.MAX_ORDERS <;> rfl

theorem fresh_summed (V : Env) : (fresh V).Summed V := by
  intro p
  rw [fresh_queue]
  rfl

/-- In every run that never decreases a waiting stop in place, the sums are right. -/
theorem Reach.summed {V : Env} {b : Book} (h : Book.Reach V (fun b op _ => b.reducesStop op = false) b) : b.Summed V := by
  induction h with
  | init => exact fresh_summed V
  | step hr hs hst ih =>
    obtain ⟨n, hn⟩ := hs
    have hw := (Reach.wf hr).1
    refine ((exec_tame hw hst hn).acts.keeps (I := fun b => Wf V b ∧ b.Summed V) ⟨hw, ih⟩ ?_).2
    rintro k b b' hk ha ⟨hw, hs⟩
    exact ⟨ha.wf hw, ha.summed hk hw hs⟩

end HftLab.OrderBook
