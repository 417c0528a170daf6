/-
  HftLab.Flat.Shadow — the flat book beside the orders it no longer tells apart.

  The flat book keeps one quantity for each level, and by id only what an order was submitted with;
  matching does not touch the latter. Beside it runs the reference book of HftLab.OrderBook.Reference,
  which takes the same orders and knows what each has left under price-time priority (`unfilled`).
  There the order `id` goes by the number `named id`, the orders without an id by 1.

  A cancel takes the submitted quantity, or all the level has. That is no more than the order has left
  if nothing of it was executed or nothing else is on the level (`spares`), and otherwise it is quantity
  of the orders behind it.

  - `cancel_takes_iff`: what a cancel takes and when it is the order's own, over all runs; as long as
    every cancel spared the others, both books show the same quantities.
-/

import HftLab.Flat.Modify
import HftLab.OrderBook.Tickets

namespace HftLab.Flat

open Lib Function List
open OrderBook (RefBook Ticket Request Side Env heldBy trade Ranks)

variable {g : Grid} {P : FlatBook → RefBook → Nat → Prop} {b : FlatBook} {x : RefBook}

/-- The reference book looks at the grid only. -/
def Grid.env (g : Grid) : Env :=
  { OrderBook.smallEnv with
    LEVELS := g.levels
    levels_pos := by
      have := g.words_pos
      omega
    levels_int32 := by
      have := g.levels_le
      unfold int32Max
      omega }

def named (id : Nat) : Nat := id + 2

def sideOf (isBuy : Bool) : Side := if isBuy then .buy else .sell

/-- A LIMIT order with the number `k`. -/
def limitOrder (k : Nat) (price qty : Int) (isBuy : Bool) : Request :=
  { side := sideOf isBuy, priceTicks := price, qty := qty, orderId := k }

/-- What the order `id` has left under price-time priority. -/
def unfilled (x : RefBook) (id : Nat) : Int := heldBy (named id) (x.orders .buy) + heldBy (named id) (x.orders .sell)

/-- The call in the reference book: it takes the orders that the flat book takes. -/
def follow (g : Grid) (b : FlatBook) (x : RefBook) : Op → RefBook
  | .addBuy price qty => if g.valid price qty then (x.submit g.env (limitOrder 1 price qty true)).2 else x
  | .addSell price qty => if g.valid price qty then (x.submit g.env (limitOrder 1 price qty false)).2 else x
  | .submitWithId id price qty isBuy =>
    if g.valid price qty && (b.ordersById id).isNone then (x.submit g.env (limitOrder (named id) price qty isBuy)).2 else x
  | .cancel id => x.drop (named id)
  | .modify id newPrice newQty =>
    match b.ordersById id with
    | none => x
    | some ref =>
      if g.valid newPrice newQty then ((x.drop (named id)).submit g.env (limitOrder (named id) newPrice newQty ref.isBuy)).2
      else x.drop (named id)

/-- The order that a call takes out. -/
def Op.cancels : Op → Option Nat
  | .cancel id | .modify id _ _ => some id
  | _ => none

/-- The flat book after some calls, and the reference book after the same calls; `P` is what is known when an order is taken out. -/
inductive Shadow (g : Grid) (P : FlatBook → RefBook → Nat → Prop) : FlatBook → RefBook → Prop
  | init : Shadow g P (fresh g) {}
  | step {b : FlatBook} {x : RefBook} (op : Op) : Shadow g P b x → b.opFits g op = true →
      (∀ id, op.cancels = some id → P b x id) → Shadow g P (b.exec g op) (follow g b x op)

/-- Nothing of the order was executed, or its level has no more than the order has left. -/
def FlatBook.spares (b : FlatBook) (x : RefBook) (id : Nat) : Bool :=
  (b.ordersById id).all fun ref => unfilled x id = ref.qty || b.side ref.isBuy ref.price.toNat ≤ unfilled x id

/-- The numbers of the reference book are those of the orders the flat book has by id. -/
structure Numbered (b : FlatBook) (x : RefBook) : Prop where
  absent : ∀ id, b.ordersById id = none → ∀ s, ∀ m ∈ x.orders s, m.id ≠ named id
  place : ∀ id ref, b.ordersById id = some ref → ∀ s, ∀ m ∈ x.orders s, m.id = named id → s = sideOf ref.isBuy ∧ m.price = ref.price
  left : ∀ id ref, b.ordersById id = some ref → unfilled x id ≤ ref.qty

section

variable {g : Grid} {P : FlatBook → RefBook → Nat → Prop} {b b' : FlatBook} {x : RefBook} {id k : Nat} {ref : OrderRef}
  {price qty : Int} {isBuy : Bool} {m : Ticket} {l : List Ticket} {p : Int}

theorem unfilled_eq (x : RefBook) (id : Nat) (s : Side) :
    unfilled x id = heldBy (named id) (x.orders s) + heldBy (named id) (x.orders s.other) := by
  cases s with
  | buy => rfl
  | sell => exact Int.add_comm _ _

theorem valid_inRange (hv : g.valid price qty) : OrderBook.inRange g.env price ∧ 0 < qty := by
  obtain ⟨h0, hl, hq⟩ := valid_iff.mp hv
  exact ⟨⟨h0, hl⟩, hq⟩

/-! ## The reference book takes an order -/

/-- What a valid order makes of the two lists. -/
theorem submit_orders (hv : g.valid price qty) (hk : k ≠ 0) (x : RefBook) (isBuy : Bool) :
    (x.submit g.env (limitOrder k price qty isBuy)).2.orders (sideOf isBuy).other =
        (trade (Ticket.within (sideOf isBuy) price) (x.orders (sideOf isBuy).other) qty).1 ∧
      (x.submit g.env (limitOrder k price qty isBuy)).2.orders (sideOf isBuy) =
        if (trade (Ticket.within (sideOf isBuy) price) (x.orders (sideOf isBuy).other) qty).2.1 ≤ 0 then x.orders (sideOf isBuy)
        else OrderBook.enter ⟨k, sideOf isBuy, price, qty,
          qty - (trade (Ticket.within (sideOf isBuy) price) (x.orders (sideOf isBuy).other) qty).2.1, .limit⟩
          (x.orders (sideOf isBuy)) := by
  obtain ⟨hp, hq⟩ := valid_inRange hv
  exact RefBook.submit_lists (r := limitOrder k price qty isBuy) rfl rfl hq hp hk

theorem submit_sane (h : x.Sane g.env) (hv : g.valid price qty) (hk : k ≠ 0) :
    (x.submit g.env (limitOrder k price qty isBuy)).2.Sane g.env := by
  obtain ⟨hp, hq⟩ := valid_inRange hv
  exact h.submit rfl rfl hq hp hk

/-- The orders after a submission: those from before, and perhaps the new one. -/
theorem mem_submit (hv : g.valid price qty) (hk : k ≠ 0) {s : Side}
    (hm : m ∈ (x.submit g.env (limitOrder k price qty isBuy)).2.orders s) :
    (∃ j ∈ x.orders s, j.id = m.id ∧ j.price = m.price) ∨ s = sideOf isBuy ∧ m.id = k ∧ m.price = price := by
  obtain ⟨hother, hown⟩ := submit_orders hv hk x isBuy
  by_cases e : s = sideOf isBuy
  · subst e
    rw [hown] at hm
    split at hm
    · exact .inl ⟨m, hm, rfl, rfl⟩
    · rcases OrderBook.mem_enter hm with rfl | hm
      · exact .inr ⟨rfl, rfl, rfl⟩
      · exact .inl ⟨m, hm, rfl, rfl⟩
  · obtain rfl := Side.eq_other_of_ne e
    rw [hother] at hm
    obtain ⟨j, hj, hid, hprice, -⟩ := OrderBook.mem_trade hm
    exact .inl ⟨j, hj, hid, hprice⟩

/-- A submission gives no order more than it had, and the new one no more than its quantity. -/
theorem unfilled_submit (h : x.Sane g.env) (hv : g.valid price qty) (hk : k ≠ 0) (id : Nat) :
    unfilled (x.submit g.env (limitOrder k price qty isBuy)).2 id ≤ unfilled x id + if k = named id then qty else 0 := by
  obtain ⟨-, hq⟩ := valid_inRange hv
  obtain ⟨hother, hown⟩ := submit_orders hv hk x isBuy
  have hpos := (h.ranks (sideOf isBuy).other).pos
  have hrest : 0 ≤ (trade (Ticket.within (sideOf isBuy) price) (x.orders (sideOf isBuy).other) qty).2.1 ∧ _ :=
    OrderBook.trade_rest_le _ hpos hq.le
  have htrade := OrderBook.heldBy_trade hpos (named id) (Ticket.within (sideOf isBuy) price) qty
  rw [unfilled_eq _ id (sideOf isBuy), unfilled_eq x id (sideOf isBuy), hother, hown]
  split
  · split <;> omega
  · rw [OrderBook.heldBy_enter]
    have hleft : Ticket.left ⟨k, sideOf isBuy, price, qty,
        qty - (trade (Ticket.within (sideOf isBuy) price) (x.orders (sideOf isBuy).other) qty).2.1, .limit⟩ ≤ qty := by
      show qty - (qty - _) ≤ qty
      omega
    split <;> omega

/-- The new order goes by a number that no order has. -/
theorem Numbered.submit (h : Numbered b x) (hx : x.Sane g.env) (hv : g.valid price qty) (hk : k ≠ 0)
    (hnew : ∀ id, k = named id → b.ordersById id = none)
    (hb : ∀ id, b'.ordersById id = if k = named id then some ⟨price, qty, isBuy⟩ else b.ordersById id) :
    Numbered b' (x.submit g.env (limitOrder k price qty isBuy)).2 := by
  refine ⟨fun id hid s m hm he => ?_, fun id ref hid s m hm he => ?_, fun id ref hid => ?_⟩
  · rw [hb] at hid
    split at hid
    · cases hid
    · rename_i hne
      rcases mem_submit hv hk hm with ⟨j, hj, hjm, -⟩ | ⟨-, hmk, -⟩
      · exact h.absent id hid s j hj (hjm.trans he)
      · exact hne (hmk.symm.trans he)
  · rw [hb] at hid
    split at hid
    · rename_i hkid
      cases hid
      rcases mem_submit hv hk hm with ⟨j, hj, hjm, -⟩ | ⟨hs, -, hp⟩
      · exact absurd (hjm.trans he) (h.absent id (hnew id hkid) s j hj)
      · exact ⟨hs, hp⟩
    · rename_i hne
      rcases mem_submit hv hk hm with ⟨j, hj, hjm, hp⟩ | ⟨-, hmk, -⟩
      · rw [← hp]
        exact h.place id ref hid s j hj (hjm.trans he)
      · exact absurd (hmk.symm.trans he) hne
  · have hle : unfilled (x.submit g.env (limitOrder k price qty isBuy)).2 id ≤ _ := unfilled_submit hx hv hk id
    rw [hb] at hid
    split at hid
    · rename_i hkid
      cases hid
      have hzero : unfilled x id = 0 := by
        unfold unfilled
        rw [OrderBook.heldBy_none (h.absent id (hnew id hkid) .buy), OrderBook.heldBy_none (h.absent id (hnew id hkid) .sell)]
        rfl
      rw [hzero, if_pos hkid, Int.zero_add] at hle
      exact hle
    · rename_i hne
      rw [if_neg hne, Int.add_zero] at hle
      exact hle.trans (h.left id ref hid)

/-- The order `id` is taken out of both books. -/
theorem Numbered.drop (h : Numbered b x) (hb : b'.ordersById = update b.ordersById id none) :
    Numbered b' (x.drop (named id)) := by
  have hmem : ∀ {s : Side} {m : Ticket}, m ∈ (x.drop (named id)).orders s → m ∈ x.orders s ∧ m.id ≠ named id := by
    intro s m hm
    obtain ⟨h1, h2⟩ := mem_filter.mp hm
    exact ⟨h1, of_decide_eq_true h2⟩
  refine ⟨fun i hi s m hm he => ?_, fun i ref hi s m hm he => ?_, fun i ref hi => ?_⟩
  · obtain ⟨h1, h2⟩ := hmem hm
    by_cases e : i = id
    · exact h2 (e ▸ he)
    · rw [hb, update_of_ne e] at hi
      exact h.absent i hi s m h1 he
  · have e : i ≠ id := by
      rintro rfl
      rw [hb, update_self] at hi
      cases hi
    rw [hb, update_of_ne e] at hi
    exact h.place i ref hi s m (hmem hm).1 he
  · have e : i ≠ id := by
      rintro rfl
      rw [hb, update_self] at hi
      cases hi
    rw [hb, update_of_ne e] at hi
    have hsame : unfilled (x.drop (named id)) i = unfilled x i := by
      have hheld : ∀ l : List Ticket, heldBy (named i) (l.filter (·.id ≠ named id)) = heldBy (named i) l := by
        intro l
        unfold heldBy
        rw [filter_filter]
        refine congrArg (fun l => (l.map Ticket.left).sum) (filter_congr fun m _ => ?_)
        by_cases he : m.id = named i
        · have hne : named i ≠ named id := by
            unfold named
            omega
          simp [he, hne]
        · simp [he]
      exact congrArg₂ (· + ·) (hheld _) (hheld _)
    rw [hsame]
    exact h.left i ref hi

/-! ## Depth -/

theorem heldBy_le_qtyAt (hpos : ∀ m ∈ l, 0 < m.left) (h : ∀ m ∈ l, m.id = k → m.price = p) : heldBy k l ≤ OrderBook.qtyAt p l := by
  induction l with
  | nil => exact le_rfl
  | cons m l ih =>
    have hm := hpos m mem_cons_self
    have hl := ih (fun j hj => hpos j (mem_cons_of_mem _ hj)) fun j hj => h j (mem_cons_of_mem _ hj)
    rw [OrderBook.heldBy_cons, OrderBook.qtyAt_cons]
    by_cases e : m.id = k
    · rw [if_pos e, if_pos (h m mem_cons_self e)]
      omega
    · rw [if_neg e]
      split <;> omega

/-- The orders with the number `k` leave the level they are all on. -/
theorem qtyAt_drop (h : ∀ m ∈ l, m.id = k → m.price = p) (r : Int) :
    OrderBook.qtyAt r (l.filter (·.id ≠ k)) = OrderBook.qtyAt r l - if r = p then heldBy k l else 0 := by
  induction l with
  | nil => split <;> rfl
  | cons m l ih =>
    have hl := ih fun j hj => h j (mem_cons_of_mem _ hj)
    rw [OrderBook.heldBy_cons, OrderBook.qtyAt_cons]
    by_cases e : m.id = k
    · have hp := h m mem_cons_self e
      rw [filter_cons_of_neg (by simpa using e), hl, if_pos e, hp]
      by_cases er : r = p
      · rw [if_pos er, if_pos er, if_pos er.symm]
        omega
      · rw [if_neg er, if_neg er, if_neg (Ne.symm er)]
        omega
    · rw [filter_cons_of_pos (by simpa using e), OrderBook.qtyAt_cons, hl, if_neg e, Int.zero_add]
      omega

/-- What the order `id` has left is on its level. -/
theorem Numbered.unfilled_le (h : Numbered b x) (hx : x.Sane g.env) (hid : b.ordersById id = some ref) :
    unfilled x id = heldBy (named id) (x.orders (sideOf ref.isBuy)) ∧
      unfilled x id ≤ OrderBook.qtyAt ref.price (x.orders (sideOf ref.isBuy)) := by
  have hzero : heldBy (named id) (x.orders (sideOf ref.isBuy).other) = 0 := by
    refine OrderBook.heldBy_none fun m hm he => ?_
    exact Side.other_ne _ (h.place id ref hid _ m hm he).1
  have heq : unfilled x id = heldBy (named id) (x.orders (sideOf ref.isBuy)) := by
    rw [unfilled_eq x id (sideOf ref.isBuy), hzero, Int.add_zero]
  refine ⟨heq, ?_⟩
  rw [heq]
  exact heldBy_le_qtyAt (hx.ranks _).pos fun m hm he => (h.place id ref hid _ m hm he).2

/-- The order `id` leaves the depth of the reference book. -/
theorem drop_depth (h : Numbered b x) (hx : x.Sane g.env) (hid : b.ordersById id = some ref) (h0 : 0 ≤ ref.price) :
    (x.drop (named id)).depth = x.depth.add ref.isBuy ref.price.toNat (-unfilled x id) := by
  have hown := (h.unfilled_le hx hid).1
  have hP : (ref.price.toNat : Int) = ref.price := Int.toNat_of_nonneg h0
  have hside : ∀ s, s ≠ sideOf ref.isBuy → (x.drop (named id)).orders s = x.orders s := by
    intro s hs
    refine filter_eq_self.mpr fun m hm => decide_eq_true fun he => ?_
    exact hs (h.place id ref hid s m hm he).1
  have hlevel : ∀ r : Nat, OrderBook.qtyAt r ((x.drop (named id)).orders (sideOf ref.isBuy)) =
      update (fun r : Nat => OrderBook.qtyAt r (x.orders (sideOf ref.isBuy))) ref.price.toNat
        (OrderBook.qtyAt ref.price.toNat (x.orders (sideOf ref.isBuy)) + -unfilled x id) r := by
    intro r
    rw [show (x.drop (named id)).orders (sideOf ref.isBuy) = (x.orders (sideOf ref.isBuy)).filter (·.id ≠ named id) from rfl,
      qtyAt_drop (fun m hm he => (h.place id ref hid _ m hm he).2), hown]
    by_cases e : r = ref.price.toNat
    · subst e
      rw [update_self, if_pos hP]
      omega
    · rw [update_of_ne e, if_neg (by omega), Int.sub_zero]
  cases hb : ref.isBuy with
  | true =>
    rw [hb] at hlevel hside
    exact Depth.ext (funext hlevel) (by show (fun p : Nat => OrderBook.qtyAt p _) = _; rw [hside .sell (by decide)]; rfl)
  | false =>
    rw [hb] at hlevel hside
    exact Depth.ext (by show (fun p : Nat => OrderBook.qtyAt p _) = _; rw [hside .buy (by decide)]; rfl) (funext hlevel)

theorem qtyAt_pos (hpos : ∀ m ∈ l, 0 < m.left) (hm : m ∈ l) : 0 < OrderBook.qtyAt m.price l := by
  have hmem : m.left ∈ (l.filter (·.price = m.price)).map Ticket.left :=
    mem_map_of_mem (mem_filter.mpr ⟨hm, decide_eq_true rfl⟩)
  refine lt_of_lt_of_le (hpos m hm) (single_le_sum (fun a ha => ?_) _ hmem)
  obtain ⟨j, hj, rfl⟩ := mem_map.mp ha
  exact (hpos j (mem_filter.mp hj).1).le

/-- An order uncrosses the depth it is added to, in the reference book as in the flat one. -/
theorem submit_uncrosses (h : x.Sane g.env) (hu : x.depth.Uncrossed) (hv : g.valid price qty) :
    ∃ n v, Uncrosses (x.depth.add isBuy price.toNat qty) n v (x.submit g.env (limitOrder k price qty isBuy)).2.depth := by
  obtain ⟨hp, hq⟩ := valid_inRange hv
  have hapart : ∀ m ∈ x.orders .buy, ∀ j ∈ x.orders .sell, m.price < j.price := by
    intro m hm j hj
    have hm0 := (h.grid .buy m hm).1
    have hj0 := (h.grid .sell j hj).1
    have hlt := hu m.price.toNat j.price.toNat
      (by show 0 < OrderBook.qtyAt _ _; rw [Int.toNat_of_nonneg hm0]; exact qtyAt_pos (h.ranks .buy).pos hm)
      (by show 0 < OrderBook.qtyAt _ _; rw [Int.toNat_of_nonneg hj0]; exact qtyAt_pos (h.ranks .sell).pos hj)
    omega
  obtain ⟨n, hn⟩ := RefBook.submit_uncrosses (r := limitOrder k price qty isBuy) h.ranks
    (fun s m hm => (h.grid s m hm).1) hapart rfl le_rfl hq hp
  have hside : decide ((limitOrder k price qty isBuy).side = .buy) = isBuy := by cases isBuy <;> rfl
  rw [hside] at hn
  exact ⟨n, _, hn⟩

/-! ## Calls -/

/-- The two books after the same calls. -/
structure Beside (g : Grid) (b : FlatBook) (x : RefBook) : Prop where
  sound : Sound g b
  sane : x.Sane g.env
  numbered : Numbered b x

/-- Both take an order: of the same depth they make the same depth. -/
theorem Beside.submit (h : Beside g b x) (hv : g.valid price qty) (hk : k ≠ 0) (hs : Sound g b')
    (hnew : ∀ id, k = named id → b.ordersById id = none)
    (hb : ∀ id, b'.ordersById id = if k = named id then some ⟨price, qty, isBuy⟩ else b.ordersById id)
    (hm : ∃ n v, Uncrosses (b.depth.add isBuy price.toNat qty) n v b'.depth) :
    Beside g b' (x.submit g.env (limitOrder k price qty isBuy)).2 ∧
      (b.depth = x.depth → b'.depth = (x.submit g.env (limitOrder k price qty isBuy)).2.depth) := by
  refine ⟨⟨hs, submit_sane h.sane hv hk, h.numbered.submit h.sane hv hk hnew hb⟩, fun hd => ?_⟩
  have hcross : b.crosses g = false := by
    by_contra hc
    obtain ⟨p, q, hp, hq, hbid, hask, hle⟩ := h.sound.crosses (Bool.eq_true_of_not_eq_false hc)
    have := h.sound.apart (by rw [hp]; unfold NO_BID; omega) (by
      rw [hq]
      have hlt : q < g.levels := by
        by_contra hge
        have := hask.1
        rw [h.sound.asks.outside q (by omega)] at this
        omega
      unfold Grid.NO_ASK
      omega)
    omega
  have hu := h.sound.toRep.uncrossed hcross
  obtain ⟨n, v, hflat⟩ := hm
  rw [hd] at hu hflat
  obtain ⟨n', v', href⟩ : ∃ n v, Uncrosses _ n v (x.submit g.env (limitOrder k price qty isBuy)).2.depth := submit_uncrosses h.sane hu hv
  exact (hflat.unique href).2.2

/-- The order is taken out of both; if the others are spared, of the same depth they make the same depth. -/
theorem Beside.cancel (h : Beside g b x) (hid : b.ordersById id = some ref) :
    Beside g (b.cancel g id).2 (x.drop (named id)) ∧
      (b.drop ref ≤ unfilled x id ↔ b.spares x id) ∧
      (b.spares x id = true → b.depth = x.depth → (b.cancel g id).2.depth = (x.drop (named id)).depth) := by
  obtain ⟨h0, hl, hq⟩ := h.sound.refs id ref hid
  have hle := h.numbered.left id ref hid
  have hspares : b.spares x id ↔ unfilled x id = ref.qty ∨ b.side ref.isBuy ref.price.toNat ≤ unfilled x id := by
    unfold FlatBook.spares
    rw [hid]
    simp
  refine ⟨⟨cancel_sound h.sound id, h.sane.drop _, h.numbered.drop (cancel_ordersById hid)⟩, ?_, fun hsp hd => ?_⟩
  · rw [hspares]
    unfold FlatBook.drop
    omega
  · have hon := (h.numbered.unfilled_le h.sane hid).2
    have hlevel : b.side ref.isBuy ref.price.toNat = OrderBook.qtyAt ref.price (x.orders (sideOf ref.isBuy)) := by
      have hP : (ref.price.toNat : Int) = ref.price := Int.toNat_of_nonneg h0
      have hbid := congrFun (congrArg Depth.bid hd) ref.price.toNat
      have hask := congrFun (congrArg Depth.ask hd) ref.price.toNat
      cases ref.isBuy with
      | true => exact hbid.trans (congrArg (fun p => OrderBook.qtyAt p (x.orders .buy)) hP)
      | false => exact hask.trans (congrArg (fun p => OrderBook.qtyAt p (x.orders .sell)) hP)
    have hdrop : b.drop ref = unfilled x id := by
      have := hspares.mp hsp
      unfold FlatBook.drop
      omega
    rw [cancel_depth h.sound.toRep hid, drop_depth h.numbered h.sane hid h0, hdrop, hd]

theorem addOrder_ordersById (b : FlatBook) (o : Order) : (b.addOrder g o).ordersById = b.ordersById := by
  unfold FlatBook.addOrder FlatBook.addBuy FlatBook.addSell
  split <;> split
  · exact tryMatch_ordersById _
  · rfl
  · exact tryMatch_ordersById _
  · rfl

/-- An order without an id. -/
theorem Beside.addOrder (h : Beside g b x) (hv : g.valid price qty) (hfit : b.fits g isBuy price qty) :
    Beside g (b.addOrder g ⟨price, qty, isBuy⟩) (x.submit g.env (limitOrder 1 price qty isBuy)).2 ∧
      (b.depth = x.depth → (b.addOrder g ⟨price, qty, isBuy⟩).depth = (x.submit g.env (limitOrder 1 price qty isBuy)).2.depth) := by
  have hne : ∀ id, 1 ≠ named id := by
    intro id
    unfold named
    omega
  have hsound : Sound g (b.addOrder g ⟨price, qty, isBuy⟩) := by
    cases isBuy with
    | true => exact addBuy_sound h.sound hfit
    | false => exact addSell_sound h.sound hfit
  obtain ⟨n, v, -, hm, -⟩ := addOrder_matched (o := ⟨price, qty, isBuy⟩) h.sound.toRep hv hfit
  refine h.submit hv Nat.one_ne_zero hsound (fun id hid => absurd hid (hne id)) (fun id => ?_) ⟨n, v, hm⟩
  rw [if_neg (hne id), addOrder_ordersById]

/-- An order by an id that the flat book does not have. -/
theorem Beside.submitWithId (h : Beside g b x) (hid : b.ordersById id = none) (hv : g.valid price qty)
    (hfit : b.fits g isBuy price qty) :
    Beside g (b.submitWithId g id price qty isBuy).2 (x.submit g.env (limitOrder (named id) price qty isBuy)).2 ∧
      (b.depth = x.depth →
        (b.submitWithId g id price qty isBuy).2.depth = (x.submit g.env (limitOrder (named id) price qty isBuy)).2.depth) := by
  obtain ⟨-, hrefs, hm⟩ := submitWithId_uncrosses h.sound.toRep hid hv hfit
  have hsound : Sound g (b.submitWithId g id price qty isBuy).2 := by
    refine submitWithId_sound h.sound ?_
    show ((b.ordersById id).isSome || b.fits g isBuy price qty)
    rw [hfit, Bool.or_true]
  have hinj : ∀ i, named id = named i ↔ i = id := by
    intro i
    unfold named
    omega
  refine h.submit hv (by unfold named; omega) hsound (fun i hi => ?_) (fun i => ?_) hm
  · rw [(hinj i).mp hi]
    exact hid
  · rw [hrefs]
    by_cases e : i = id
    · rw [e, update_self, if_pos rfl]
    · rw [update_of_ne e, if_neg fun hc => e ((hinj i).mp hc)]

/-- A call that changes neither book. -/
theorem Beside.idle (h : Beside g b x) {P : Prop} : Beside g b x ∧ (P → b.depth = x.depth → b.depth = x.depth) := ⟨h, fun _ hd => hd⟩

theorem exec_beside {op : Op} (h : Beside g b x) (hfit : b.opFits g op) :
    Beside g (b.exec g op) (follow g b x op) ∧
      ((∀ id, op.cancels = some id → b.spares x id) → b.depth = x.depth → (b.exec g op).depth = (follow g b x op).depth) := by
  cases op with
  | addBuy price qty =>
    dsimp only [FlatBook.exec, follow]
    cases hv : g.valid price qty with
    | true =>
      obtain ⟨h1, h2⟩ : Beside g (b.addOrder g ⟨price, qty, true⟩) _ ∧ _ := h.addOrder hv hfit
      exact ⟨h1, fun _ => h2⟩
    | false =>
      rw [show (b.addBuy g price qty).2 = b by unfold FlatBook.addBuy; rw [hv]; rfl]
      exact h.idle
  | addSell price qty =>
    dsimp only [FlatBook.exec, follow]
    cases hv : g.valid price qty with
    | true =>
      obtain ⟨h1, h2⟩ : Beside g (b.addOrder g ⟨price, qty, false⟩) _ ∧ _ := h.addOrder hv hfit
      exact ⟨h1, fun _ => h2⟩
    | false =>
      rw [show (b.addSell g price qty).2 = b by unfold FlatBook.addSell; rw [hv]; rfl]
      exact h.idle
  | submitWithId id price qty isBuy =>
    dsimp only [FlatBook.exec, follow]
    cases hv : g.valid price qty with
    | true =>
      cases hid : b.ordersById id with
      | none =>
        have hfit : ((b.ordersById id).isSome || b.fits g isBuy price qty) := hfit
        rw [hid] at hfit
        obtain ⟨h1, h2⟩ := h.submitWithId hid hv hfit
        exact ⟨h1, fun _ => h2⟩
      | some ref =>
        rw [show (b.submitWithId g id price qty isBuy).2 = b by unfold FlatBook.submitWithId; rw [hv, hid]; rfl]
        exact h.idle
    | false =>
      rw [submitWithId_refused hv]
      exact h.idle
  | cancel id =>
    dsimp only [FlatBook.exec, follow]
    cases hid : b.ordersById id with
    | none =>
      have hgone : ∀ s, (x.drop (named id)).orders s = x.orders s := fun s =>
        filter_eq_self.mpr fun m hm => decide_eq_true (h.numbered.absent id hid s m hm)
      have hdrop : x.drop (named id) = x := by
        unfold RefBook.drop
        rw [show (fun s => (x.orders s).filter (·.id ≠ named id)) = x.orders from funext hgone]
      rw [show (b.cancel g id).2 = b by unfold FlatBook.cancel; rw [hid], hdrop]
      exact h.idle
    | some ref =>
      obtain ⟨h1, -, h2⟩ := h.cancel hid
      exact ⟨h1, fun hsp => h2 (hsp id rfl)⟩
  | modify id newPrice newQty =>
    dsimp only [FlatBook.exec, follow]
    unfold FlatBook.modify
    cases hid : b.ordersById id with
    | none => exact h.idle
    | some ref =>
      obtain ⟨h1, -, h2⟩ := h.cancel hid
      dsimp only
      cases hv : g.valid newPrice newQty with
      | true =>
        have hfit : (b.ordersById id).all (fun ref => (b.cancel g id).2.fits g ref.isBuy newPrice newQty) := hfit
        rw [hid] at hfit
        have hgone : (b.cancel g id).2.ordersById id = none := by
          rw [cancel_ordersById hid, update_self]
        obtain ⟨h3, h4⟩ := h1.submitWithId hgone hv hfit
        exact ⟨h3, fun hsp hd => h4 (h2 (hsp id rfl) hd)⟩
      | false =>
        rw [submitWithId_refused hv]
        exact ⟨h1, fun hsp => h2 (hsp id rfl)⟩

end

theorem Shadow.beside (h : Shadow g P b x) : Beside g b x ∧ ((∀ b x id, P b x id → b.spares x id) → b.depth = x.depth) := by
  induction h with
  | init =>
    refine ⟨⟨fresh_sound g, ⟨fun s => ⟨List.Pairwise.nil, fun m hm => ?_⟩, fun s m hm => ?_⟩,
      ⟨fun id _ s m hm => ?_, ?_, ?_⟩⟩, fun _ => rfl⟩
    · cases hm
    · cases hm
    · cases hm
    · exact fun id ref hid => by cases hid
    · exact fun id ref hid => by cases hid
  | step op _ hfit hP ih =>
    obtain ⟨h1, h2⟩ := exec_beside ih.1 hfit
    exact ⟨h1, fun hsp => h2 (fun id hid => hsp _ _ _ (hP id hid)) (ih.2 hsp)⟩

/-- The calls one after another, as long as no level overflows and `chk` holds when an order is taken out. -/
def shadowed (g : Grid) (chk : FlatBook → RefBook → Nat → Bool) : List Op → FlatBook → RefBook → Option (FlatBook × RefBook)
  | [], b, x => some (b, x)
  | op :: ops, b, x =>
    if b.opFits g op && op.cancels.all (chk b x) then shadowed g chk ops (b.exec g op) (follow g b x op) else none

theorem Shadow.ofRun {chk : FlatBook → RefBook → Nat → Bool} {ops : List Op} {b' : FlatBook} {x' : RefBook}
    (hP : ∀ b x id, chk b x id → P b x id) (h : Shadow g P b x) (hrun : shadowed g chk ops b x = some (b', x')) :
    Shadow g P b' x' := by
  induction ops generalizing b x with
  | nil =>
    cases hrun
    exact h
  | cons op ops ih =>
    unfold shadowed at hrun
    split at hrun
    · rename_i hc
      obtain ⟨hfit, hchk⟩ := Bool.and_eq_true_iff.mp hc
      refine ih (.step op h hfit fun id hid => hP b x id ?_) hrun
      rw [hid] at hchk
      exact hchk
    · cases hrun

/-- In every run in which no level overflows, a cancel lowers the order's level, and nothing else, by what the order was submitted
    with or all there is; this is no more than the order has left under price-time priority exactly if nothing of it was executed or
    its level has no more than that. As long as the cancels of the run were such, the levels have what price-time priority leaves. -/
theorem cancel_takes_iff {g : Grid} {P : FlatBook → RefBook → Nat → Prop} {b : FlatBook} {x : RefBook} (h : Shadow g P b x)
    {id : Nat} {ref : OrderRef} (hid : b.ordersById id = some ref) :
    (b.cancel g id).2.depth = b.depth.add ref.isBuy ref.price.toNat (-b.drop ref) ∧
      (b.drop ref ≤ unfilled x id ↔ b.spares x id = true) ∧
      ((∀ b x id, P b x id → b.spares x id = true) → b.depth = x.depth) := by
  obtain ⟨hbeside, hsync⟩ := h.beside
  exact ⟨cancel_depth hbeside.sound.toRep hid, (hbeside.cancel hid).2.1, hsync⟩

/-- An order is cancelled whole, the one behind it is hit and alone on its level. -/
theorem cancel_takes_iff_small : ∃ b x, shadowed grid128 (fun b x id => b.spares x id)
      [.submitWithId 1 64 5 false, .submitWithId 2 64 4 false, .cancel 1, .addBuy 64 1] (fresh grid128) {} = some (b, x) ∧
    b.spares x 2 = true ∧ (b.cancel grid128 2).2.depth = b.depth.add false 64 (-b.drop ⟨64, 4, false⟩) ∧
    (b.drop ⟨64, 4, false⟩ ≤ unfilled x 2 ↔ b.spares x 2 = true) ∧
    ((∀ b x id, (fun b x id => FlatBook.spares b x id = true) b x id → b.spares x id = true) → b.depth = x.depth) := by
  have hrun : (shadowed grid128 (fun b x id => b.spares x id)
      [.submitWithId 1 64 5 false, .submitWithId 2 64 4 false, .cancel 1, .addBuy 64 1] (fresh grid128) {}).any (fun s =>
        s.1.ordersById 2 = some ⟨64, 4, false⟩ && s.1.spares s.2 2) = true := by decide +kernel
  obtain ⟨⟨b, x⟩, hs, hf⟩ := (Option.any_eq_true _ _).mp hrun
  obtain ⟨hid, hsp⟩ := Bool.and_eq_true_iff.mp hf
  have hshadow : Shadow grid128 (fun b x id => b.spares x id = true) b x := Shadow.ofRun (fun _ _ _ h => h) .init hs
  exact ⟨b, x, hs, hsp, cancel_takes_iff hshadow (of_decide_eq_true hid)⟩

/-- Order 1 is filled before order 2 arrives at its price; its cancel takes five of the seven of order 2. -/
theorem filled_order_cancels_another : ∃ b x, shadowed grid128 (fun b x id => b.spares x id)
      [.submitWithId 1 64 5 false, .addBuy 64 5, .submitWithId 2 64 7 false] (fresh grid128) {} = some (b, x) ∧
    b.ordersById 1 = some ⟨64, 5, false⟩ ∧ unfilled x 1 = 0 ∧ unfilled x 2 = 7 ∧
    b.askQty 64 = 7 ∧ (b.cancel grid128 1).2.askQty 64 = 2 := by
  have hrun : (shadowed grid128 (fun b x id => b.spares x id)
      [.submitWithId 1 64 5 false, .addBuy 64 5, .submitWithId 2 64 7 false] (fresh grid128) {}).any (fun s =>
        s.1.ordersById 1 = some ⟨64, 5, false⟩ && unfilled s.2 1 = 0 && unfilled s.2 2 = 7 && s.1.askQty 64 = 7 &&
          (s.1.cancel grid128 1).2.askQty 64 = 2) = true := by decide +kernel
  obtain ⟨⟨b, x⟩, hs, hf⟩ := (Option.any_eq_true _ _).mp hrun
  simp only [Bool.and_eq_true, decide_eq_true_eq] at hf
  obtain ⟨⟨⟨⟨h1, h2⟩, h3⟩, h4⟩, h5⟩ := hf
  exact ⟨b, x, hs, h1, h2, h3, h4, h5⟩

end HftLab.Flat
