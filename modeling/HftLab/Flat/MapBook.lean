/-
  HftLab.Flat.MapBook — the reference book over ordered maps (benchmark_orderbook.cpp) and the
  agreement of the two books.

  An ordered map is a list in the order of its keys; `begin()` is its head. `MapRep` says which depth
  the maps show, each round of `try_match` takes the step of the uncrossing, and the uncrossing has
  one outcome, so both books show the same depth after every order.
-/

import HftLab.Flat.Invariant

namespace HftLab.Flat

open Lib Function List

/-- The comparison a map is ordered by. -/
structure KeyOrder where
  before : Int → Int → Bool
  irrefl : ∀ a, before a a = false
  trans : ∀ a b c, before a b = true → before b c = true → before a c = true
  total : ∀ a b, a ≠ b → before a b = false → before b a = true

/-- `std::less`. -/
def less : KeyOrder where
  before a b := a < b
  irrefl a := decide_eq_false (lt_irrefl a)
  trans _ _ _ h1 h2 := decide_eq_true ((of_decide_eq_true h1).trans (of_decide_eq_true h2))
  total _ _ hne h := decide_eq_true (by have := of_decide_eq_false h; omega)

/-- `std::greater`. -/
def greater : KeyOrder where
  before a b := b < a
  irrefl a := decide_eq_false (lt_irrefl a)
  trans _ _ _ h1 h2 := decide_eq_true ((of_decide_eq_true h2).trans (of_decide_eq_true h1))
  total _ _ hne h := decide_eq_true (by have := of_decide_eq_false h; omega)

structure MapBook where
  bids : List (Int × Int) := []
  asks : List (Int × Int) := []
  trades : UInt64 := 0
  deriving DecidableEq, Repr

structure Order where
  price : Int
  quantity : Int
  isBuy : Bool
  deriving DecidableEq, Repr

/-- `m[price] += qty`. -/
def addAt (ord : KeyOrder) (price qty : Int) : List (Int × Int) → List (Int × Int)
  | [] => [(price, i32 (0 + qty))]
  | (p, x) :: l =>
    if ord.before price p then (price, i32 (0 + qty)) :: (p, x) :: l
    else if p = price then (p, i32 (x + qty)) :: l
    else (p, x) :: addAt ord price qty l

/-- Lower the quantity of the first entry, and erase it if nothing is left. -/
def takeFirst (fill : Int) : List (Int × Int) → List (Int × Int)
  | [] => []
  | (p, x) :: l => if i32 (x - fill) = 0 then l else (p, i32 (x - fill)) :: l

namespace MapBook

/-- Both maps have entries and the first ones overlap. -/
def crosses (m : MapBook) : Bool :=
  match m.bids, m.asks with
  | (p, _) :: _, (q, _) :: _ => !(p < q)
  | _, _ => false

def matchBest (m : MapBook) : MapBook :=
  match m.bids, m.asks with
  | (_, x) :: _, (_, y) :: _ =>
    { bids := takeFirst (min x y) m.bids, asks := takeFirst (min x y) m.asks, trades := m.trades + 1 }
  | _, _ => m

def tryMatchUpTo : Nat → MapBook → MapBook
  | 0, m => m
  | n + 1, m => if m.crosses then tryMatchUpTo n m.matchBest else m

/-- The loop: each round erases an entry. -/
def tryMatch (m : MapBook) : MapBook := m.tryMatchUpTo (m.bids.length + m.asks.length)

def addOrder (m : MapBook) (o : Order) : MapBook :=
  let m := if o.isBuy then { m with bids := addAt greater o.price o.quantity m.bids }
    else { m with asks := addAt less o.price o.quantity m.asks }
  m.tryMatch

def qtyAt (l : List (Int × Int)) (p : Int) : Int := ((l.find? fun e => e.1 = p).map (·.2)).getD 0

def bestBid (m : MapBook) : Int := (m.bids.head?.map (·.1)).getD NO_BID

def bestAsk (g : Grid) (m : MapBook) : Int := (m.asks.head?.map (·.1)).getD g.NO_ASK

/-- What the maps show. -/
def depth (m : MapBook) : Depth := ⟨fun p => qtyAt m.bids p, fun p => qtyAt m.asks p⟩

end MapBook

open MapBook

/-! ## Ordered lists -/

/-- An ordered map with positive quantities at keys that are not negative. -/
structure Ordered (ord : KeyOrder) (l : List (Int × Int)) : Prop where
  sorted : l.Pairwise fun a b => ord.before a.1 b.1 = true
  keys : ∀ e ∈ l, 0 ≤ e.1
  pos : ∀ e ∈ l, 0 < e.2 ∧ e.2 ≤ int32Max

section

variable {ord : KeyOrder} {l : List (Int × Int)} {p x q : Int} {m : MapBook} {g : Grid} {b : FlatBook}

theorem qtyAt_cons (p x : Int) (l : List (Int × Int)) (q : Int) :
    qtyAt ((p, x) :: l) q = if p = q then x else qtyAt l q := by
  unfold qtyAt
  by_cases e : p = q
  · rw [if_pos e, List.find?_cons_of_pos (by simpa using e)]
    rfl
  · rw [if_neg e, List.find?_cons_of_neg (by simpa using e)]

theorem Ordered.tail (h : Ordered ord ((p, x) :: l)) : Ordered ord l :=
  ⟨h.sorted.tail, fun e he => h.keys e (mem_cons_of_mem _ he), fun e he => h.pos e (mem_cons_of_mem _ he)⟩

theorem Ordered.cons (h : Ordered ord l) (hlt : ∀ e ∈ l, ord.before p e.1) (hp : 0 ≤ p) (hx : 0 < x)
    (hsm : x ≤ int32Max) : Ordered ord ((p, x) :: l) := by
  refine ⟨pairwise_cons.mpr ⟨hlt, h.sorted⟩, fun e he => ?_, fun e he => ?_⟩
  · rcases mem_cons.mp he with rfl | he
    · exact hp
    · exact h.keys e he
  · rcases mem_cons.mp he with rfl | he
    · exact ⟨hx, hsm⟩
    · exact h.pos e he

theorem Ordered.rest_before (h : Ordered ord ((p, x) :: l)) : ∀ e ∈ l, ord.before p e.1 :=
  (pairwise_cons.mp h.sorted).1

theorem ne_of_before (h : ord.before p q) : p ≠ q := by
  rintro rfl
  rw [ord.irrefl] at h
  cases h

theorem qtyAt_of_not_mem (h : ∀ e ∈ l, e.1 ≠ q) : qtyAt l q = 0 := by
  unfold qtyAt
  rw [List.find?_eq_none.mpr fun e he => by simpa using h e he]
  rfl

theorem qtyAt_before_all (ord : KeyOrder) (h : ∀ e ∈ l, ord.before q e.1) : qtyAt l q = 0 :=
  qtyAt_of_not_mem fun e he => (ne_of_before (h e he)).symm

/-- No entry of the map is before its first. -/
theorem Ordered.qtyAt_before (h : Ordered ord ((p, x) :: l)) (hq : ord.before q p) : qtyAt ((p, x) :: l) q = 0 := by
  refine qtyAt_before_all ord fun e he => ?_
  rcases mem_cons.mp he with rfl | he
  · exact hq
  · exact ord.trans _ _ _ hq (h.rest_before e he)

theorem mem_addAt {e : Int × Int} {qty : Int} (he : e ∈ addAt ord p qty l) : e.1 = p ∨ ∃ e' ∈ l, e'.1 = e.1 := by
  induction l with
  | nil => exact .inl (congrArg Prod.fst (mem_singleton.mp he))
  | cons a l ih =>
    obtain ⟨r, x⟩ := a
    unfold addAt at he
    split at he
    · rcases mem_cons.mp he with rfl | he
      · exact .inl rfl
      · exact .inr ⟨e, he, rfl⟩
    · split at he
      · rcases mem_cons.mp he with rfl | he
        · exact .inr ⟨(r, x), mem_cons_self, rfl⟩
        · exact .inr ⟨e, mem_cons_of_mem _ he, rfl⟩
      · rcases mem_cons.mp he with rfl | he
        · exact .inr ⟨(r, x), mem_cons_self, rfl⟩
        · rcases ih he with h1 | ⟨e', h1, h2⟩
          · exact .inl h1
          · exact .inr ⟨e', mem_cons_of_mem _ h1, h2⟩

/-- `m[p] += qty` keeps the order and changes the quantity at `p` only. -/
theorem Ordered.addAt (h : Ordered ord l) {qty : Int} (hp : 0 ≤ p) (hq : 0 < qty) (hfit : qtyAt l p + qty ≤ int32Max) :
    Ordered ord (addAt ord p qty l) ∧
    ∀ r, qtyAt (Flat.addAt ord p qty l) r = if r = p then qtyAt l p + qty else qtyAt l r := by
  induction l with
  | nil =>
    have hq0 : i32 (0 + qty) = qty := by
      rw [Int.zero_add]
      have : qtyAt [] p = 0 := rfl
      exact i32_eq ⟨by unfold int32Min; omega, by omega⟩
    unfold Flat.addAt
    rw [hq0]
    refine ⟨h.cons (fun e he => absurd he not_mem_nil) hp hq (by have : qtyAt [] p = 0 := rfl; omega), fun r => ?_⟩
    rw [qtyAt_cons]
    by_cases e : p = r
    · rw [if_pos e, if_pos e.symm]
      exact (Int.zero_add qty).symm
    · rw [if_neg e, if_neg (Ne.symm e)]
  | cons a l ih =>
    obtain ⟨r, x⟩ := a
    obtain ⟨hx, hxs⟩ := h.pos (r, x) mem_cons_self
    unfold Flat.addAt
    by_cases hb : ord.before p r
    · have hz := h.qtyAt_before hb
      have hq0 : i32 (0 + qty) = qty := by
        rw [Int.zero_add]
        exact i32_eq ⟨by unfold int32Min; omega, by omega⟩
      rw [if_pos hb, hq0, hz]
      refine ⟨h.cons (fun e he => ?_) hp hq (by omega), fun s => ?_⟩
      · rcases mem_cons.mp he with rfl | he
        · exact hb
        · exact ord.trans _ _ _ hb (h.rest_before e he)
      · rw [qtyAt_cons]
        by_cases e : p = s
        · rw [if_pos e, if_pos e.symm, Int.zero_add]
        · rw [if_neg e, if_neg (Ne.symm e)]
    · rw [if_neg hb]
      by_cases hr : r = p
      · subst hr
        have hqr : qtyAt ((r, x) :: l) r = x := by rw [qtyAt_cons, if_pos rfl]
        have hx0 : i32 (x + qty) = x + qty := i32_eq ⟨by unfold int32Min; omega, by omega⟩
        rw [if_pos rfl, hx0, hqr]
        refine ⟨h.tail.cons h.rest_before hp (by omega) (by omega), fun s => ?_⟩
        rw [qtyAt_cons, qtyAt_cons]
        by_cases e : r = s
        · rw [if_pos e, if_pos e.symm]
        · rw [if_neg e, if_neg (Ne.symm e), if_neg e]
      · rw [if_neg hr]
        have hrp : ord.before r p := ord.total p r (Ne.symm hr) (Bool.eq_false_iff.mpr hb)
        have hqp : qtyAt ((r, x) :: l) p = qtyAt l p := by rw [qtyAt_cons, if_neg hr]
        rw [hqp] at hfit ⊢
        obtain ⟨h1, h2⟩ := ih h.tail hfit
        refine ⟨h1.cons (fun e he => ?_) (h.keys _ mem_cons_self) hx hxs, fun s => ?_⟩
        · rcases mem_addAt he with hep | ⟨e', he', hee⟩
          · rw [hep]
            exact hrp
          · rw [← hee]
            exact h.rest_before e' he'
        · rw [qtyAt_cons, qtyAt_cons, h2]
          by_cases e : r = s
          · rw [if_pos e, if_pos e, if_neg fun hc => hr (e.trans hc)]
          · rw [if_neg e, if_neg e]

/-- The first entry gives up `fill`. -/
theorem Ordered.takeFirst (h : Ordered ord ((p, x) :: l)) {fill : Int} (h0 : 0 ≤ fill) (hle : fill ≤ x) :
    Ordered ord (takeFirst fill ((p, x) :: l)) ∧
    ∀ r, qtyAt (Flat.takeFirst fill ((p, x) :: l)) r = if r = p then x - fill else qtyAt ((p, x) :: l) r := by
  obtain ⟨hx, hxs⟩ := h.pos (p, x) mem_cons_self
  have hp := h.keys (p, x) mem_cons_self
  have hi : i32 (x - fill) = x - fill := i32_eq ⟨by unfold int32Min; omega, by omega⟩
  have heq : Flat.takeFirst fill ((p, x) :: l) = if i32 (x - fill) = 0 then l else (p, i32 (x - fill)) :: l := rfl
  rw [heq, hi]
  by_cases hz : x - fill = 0
  · rw [if_pos hz]
    refine ⟨h.tail, fun r => ?_⟩
    by_cases e : r = p
    · rw [if_pos e, hz, e]
      exact qtyAt_before_all ord h.rest_before
    · rw [if_neg e, qtyAt_cons, if_neg (Ne.symm e)]
  · rw [if_neg hz]
    refine ⟨h.tail.cons h.rest_before hp (by omega) (by omega), fun r => ?_⟩
    rw [qtyAt_cons, qtyAt_cons]
    by_cases e : r = p
    · rw [if_pos e, if_pos e.symm]
    · rw [if_neg e, if_neg (Ne.symm e), if_neg (Ne.symm e)]

/-! ## The reference book -/

structure MapRep (m : MapBook) : Prop where
  bids : Ordered greater m.bids
  asks : Ordered less m.asks

theorem MapRep.head_bid (h : MapRep m) (hm : m.bids = (p, x) :: l) :
    0 ≤ p ∧ Highest m.depth.bid p.toNat ∧ m.depth.bid p.toNat = x := by
  have ho := h.bids
  rw [hm] at ho
  have hp : 0 ≤ p := ho.keys _ mem_cons_self
  have hx : m.depth.bid p.toNat = x := by
    show qtyAt m.bids p.toNat = x
    rw [hm, Int.toNat_of_nonneg hp, qtyAt_cons, if_pos rfl]
  refine ⟨hp, ⟨?_, fun q hq => ?_⟩, hx⟩
  · rw [hx]
    exact (ho.pos _ mem_cons_self).1
  · show qtyAt m.bids q = 0
    rw [hm]
    exact ho.qtyAt_before (decide_eq_true (by omega))

theorem MapRep.head_ask (h : MapRep m) (hm : m.asks = (p, x) :: l) :
    0 ≤ p ∧ Lowest m.depth.ask p.toNat ∧ m.depth.ask p.toNat = x := by
  have ho := h.asks
  rw [hm] at ho
  have hp : 0 ≤ p := ho.keys _ mem_cons_self
  have hx : m.depth.ask p.toNat = x := by
    show qtyAt m.asks p.toNat = x
    rw [hm, Int.toNat_of_nonneg hp, qtyAt_cons, if_pos rfl]
  refine ⟨hp, ⟨?_, fun q hq => ?_⟩, hx⟩
  · rw [hx]
    exact (ho.pos _ mem_cons_self).1
  · show qtyAt m.asks q = 0
    rw [hm]
    exact ho.qtyAt_before (decide_eq_true (by omega))

theorem MapRep.uncrossed (h : MapRep m) (hc : m.crosses = false) : m.depth.Uncrossed := by
  intro p q hp hq
  cases hb : m.bids with
  | nil =>
    have : m.depth.bid p = 0 := by
      show qtyAt m.bids p = 0
      rw [hb]
      rfl
    omega
  | cons e l =>
    obtain ⟨pb, x⟩ := e
    cases ha : m.asks with
    | nil =>
      have : m.depth.ask q = 0 := by
        show qtyAt m.asks q = 0
        rw [ha]
        rfl
      omega
    | cons e' l' =>
      obtain ⟨pa, y⟩ := e'
      obtain ⟨hb0, hb1, -⟩ := h.head_bid hb
      obtain ⟨ha0, ha1, -⟩ := h.head_ask ha
      have hlt : pb < pa := by
        unfold MapBook.crosses at hc
        rw [hb, ha] at hc
        simpa using hc
      have h1 : p ≤ pb.toNat := by
        by_contra hgt
        have := hb1.2 p (by omega)
        omega
      have h2 : pa.toNat ≤ q := by
        by_contra hgt
        have := ha1.2 q (by omega)
        omega
      omega

/-- One round: it keeps the maps in order, exchanges the two first levels and erases an entry. -/
theorem MapRep.matchBest (h : MapRep m) {p q x y : Int} {l l' : List (Int × Int)} (hb : m.bids = (p, x) :: l)
    (ha : m.asks = (q, y) :: l') :
    MapRep m.matchBest ∧ m.matchBest.depth = m.depth.cross p.toNat q.toNat ∧
    m.matchBest.trades = m.trades + 1 ∧
    m.matchBest.bids.length + m.matchBest.asks.length < m.bids.length + m.asks.length := by
  obtain ⟨hp0, -, hpx⟩ := h.head_bid hb
  obtain ⟨hq0, -, hqy⟩ := h.head_ask ha
  have hob := h.bids
  have hoa := h.asks
  rw [hb] at hob
  rw [ha] at hoa
  obtain ⟨hx, hxs⟩ := hob.pos (p, x) mem_cons_self
  obtain ⟨hy, hys⟩ := hoa.pos (q, y) mem_cons_self
  have heq : m.matchBest = { bids := takeFirst (min x y) ((p, x) :: l), asks := takeFirst (min x y) ((q, y) :: l'),
                             trades := m.trades + 1 } := by
    unfold MapBook.matchBest
    rw [hb, ha]
  obtain ⟨hb1, hb2⟩ := hob.takeFirst (by omega : 0 ≤ min x y) (by omega)
  obtain ⟨ha1, ha2⟩ := hoa.takeFirst (by omega : 0 ≤ min x y) (by omega)
  rw [heq]
  refine ⟨⟨hb1, ha1⟩, Depth.ext (funext fun r => ?_) (funext fun r => ?_), rfl, ?_⟩
  · show qtyAt (takeFirst (min x y) ((p, x) :: l)) r = update m.depth.bid p.toNat
      (m.depth.bid p.toNat - min (m.depth.bid p.toNat) (m.depth.ask q.toNat)) r
    rw [hb2, hpx, hqy]
    by_cases e : (r : Int) = p
    · rw [if_pos e, (by omega : r = p.toNat), update_self]
    · rw [if_neg e, update_of_ne (by omega), ← hb]
      rfl
  · show qtyAt (takeFirst (min x y) ((q, y) :: l')) r = update m.depth.ask q.toNat
      (m.depth.ask q.toNat - min (m.depth.bid p.toNat) (m.depth.ask q.toNat)) r
    rw [ha2, hpx, hqy]
    by_cases e : (r : Int) = q
    · rw [if_pos e, (by omega : r = q.toNat), update_self]
    · rw [if_neg e, update_of_ne (by omega), ← ha]
      rfl
  · have hi1 : i32 (x - min x y) = x - min x y := i32_eq ⟨by unfold int32Min; omega, by omega⟩
    have hi2 : i32 (y - min x y) = y - min x y := i32_eq ⟨by unfold int32Min; omega, by omega⟩
    show (if i32 (x - min x y) = 0 then l else (p, i32 (x - min x y)) :: l).length +
      (if i32 (y - min x y) = 0 then l' else (q, i32 (y - min x y)) :: l').length < _
    rw [hi1, hi2, hb, ha]
    by_cases hxy : x ≤ y
    · rw [if_pos (by omega)]
      split <;> simp only [length_cons] <;> omega
    · rw [if_pos (by omega : y - min x y = 0)]
      split <;> simp only [length_cons] <;> omega

/-- The rounds end, and refine the uncrossing. -/
theorem MapRep.tryMatchUpTo (n : Nat) (h : MapRep m) (hn : m.bids.length + m.asks.length ≤ n) :
    ∃ k v, MapRep (m.tryMatchUpTo n) ∧ (m.tryMatchUpTo n).crosses = false ∧
      Uncrosses m.depth k v (m.tryMatchUpTo n).depth ∧
      (m.tryMatchUpTo n).trades = m.trades + UInt64.ofNat k := by
  induction n generalizing m with
  | zero =>
    have hb : m.bids = [] := eq_nil_of_length_eq_zero (by omega)
    have hc : m.crosses = false := by
      unfold MapBook.crosses
      rw [hb]
    exact ⟨0, 0, h, hc, .done (h.uncrossed hc), (UInt64.add_zero _).symm⟩
  | succ n ih =>
    unfold MapBook.tryMatchUpTo
    cases hc : m.crosses with
    | false => exact ⟨0, 0, h, hc, .done (h.uncrossed hc), (UInt64.add_zero _).symm⟩
    | true =>
      cases hb : m.bids with
      | nil =>
        unfold MapBook.crosses at hc
        rw [hb] at hc
        cases hc
      | cons e l =>
        obtain ⟨p, x⟩ := e
        cases ha : m.asks with
        | nil =>
          unfold MapBook.crosses at hc
          rw [hb, ha] at hc
          cases hc
        | cons e' l' =>
          obtain ⟨q, y⟩ := e'
          have hle : q ≤ p := by
            unfold MapBook.crosses at hc
            rw [hb, ha] at hc
            simpa using hc
          obtain ⟨hrep, hdepth, htrades, hlen⟩ := h.matchBest hb ha
          obtain ⟨k, v, h1, h2, h3, h4⟩ := ih hrep (by omega)
          obtain ⟨hp0, hp, -⟩ := h.head_bid hb
          obtain ⟨hq0, hq, -⟩ := h.head_ask ha
          rw [hdepth] at h3
          refine ⟨k + 1, _, h1, h2, .step hp hq (by omega) h3, ?_⟩
          rw [if_pos rfl, h4, htrades, Nat.add_comm, UInt64.ofNat_add, UInt64.add_assoc]
          rfl

/-- `m[price] += quantity` on the side of the order, which the depth follows. -/
theorem MapRep.addOrder (h : MapRep m) {o : Order} (hp : 0 ≤ o.price) (hq : 0 < o.quantity)
    (hfit : (if o.isBuy then m.depth.bid o.price.toNat else m.depth.ask o.price.toNat) + o.quantity ≤ int32Max) :
    ∃ k v, MapRep (m.addOrder o) ∧ Uncrosses (m.depth.add o.isBuy o.price.toNat o.quantity) k v (m.addOrder o).depth ∧
      (m.addOrder o).trades = m.trades + UInt64.ofNat k := by
  have hto : ((o.price.toNat : Nat) : Int) = o.price := Int.toNat_of_nonneg hp
  unfold MapBook.addOrder MapBook.tryMatch Depth.add
  cases hs : o.isBuy with
  | true =>
    have hfit : qtyAt m.bids o.price + o.quantity ≤ int32Max := by
      rw [hs] at hfit
      have : m.depth.bid o.price.toNat = qtyAt m.bids o.price := by rw [← hto]; rfl
      rw [← this]
      exact hfit
    obtain ⟨h1, h2⟩ := h.bids.addAt hp hq hfit
    obtain ⟨k, v, hr, -, hu, ht⟩ := MapRep.tryMatchUpTo (m := { m with bids := addAt greater o.price o.quantity m.bids })
      _ ⟨h1, h.asks⟩ le_rfl
    refine ⟨k, v, hr, ?_, ht⟩
    have hd : MapBook.depth { m with bids := addAt greater o.price o.quantity m.bids } =
        { m.depth with bid := update m.depth.bid o.price.toNat (m.depth.bid o.price.toNat + o.quantity) } := by
      refine Depth.ext (funext fun r => ?_) rfl
      show qtyAt (addAt greater o.price o.quantity m.bids) r = update m.depth.bid o.price.toNat
        (qtyAt m.bids o.price.toNat + o.quantity) r
      rw [h2]
      by_cases e : (r : Int) = o.price
      · rw [if_pos e, (by omega : r = o.price.toNat), update_self, hto]
      · rw [if_neg e, update_of_ne (by omega)]
        rfl
    rw [hd] at hu
    exact hu
  | false =>
    have hfit : qtyAt m.asks o.price + o.quantity ≤ int32Max := by
      rw [hs] at hfit
      have : m.depth.ask o.price.toNat = qtyAt m.asks o.price := by rw [← hto]; rfl
      rw [← this]
      exact hfit
    obtain ⟨h1, h2⟩ := h.asks.addAt hp hq hfit
    obtain ⟨k, v, hr, -, hu, ht⟩ := MapRep.tryMatchUpTo (m := { m with asks := addAt less o.price o.quantity m.asks })
      _ ⟨h.bids, h1⟩ le_rfl
    refine ⟨k, v, hr, ?_, ht⟩
    have hd : MapBook.depth { m with asks := addAt less o.price o.quantity m.asks } =
        { m.depth with ask := update m.depth.ask o.price.toNat (m.depth.ask o.price.toNat + o.quantity) } := by
      refine Depth.ext rfl (funext fun r => ?_)
      show qtyAt (addAt less o.price o.quantity m.asks) r = update m.depth.ask o.price.toNat
        (qtyAt m.asks o.price.toNat + o.quantity) r
      rw [h2]
      by_cases e : (r : Int) = o.price
      · rw [if_pos e, (by omega : r = o.price.toNat), update_self, hto]
      · rw [if_neg e, update_of_ne (by omega)]
        rfl
    rw [hd] at hu
    exact hu

/-! ## The two books agree -/

/-- The order, by the function of its side. -/
def FlatBook.addOrder (g : Grid) (b : FlatBook) (o : Order) : FlatBook :=
  if o.isBuy then (b.addBuy g o.price o.quantity).2 else (b.addSell g o.price o.quantity).2

/-- Every order of the list is valid, and no level overflows when it is added. -/
def FlatBook.accepts (g : Grid) (b : FlatBook) : List Order → Bool
  | [] => true
  | o :: os => g.valid o.price o.quantity && b.fits g o.isBuy o.price o.quantity && FlatBook.accepts g (b.addOrder g o) os

/-- An order refines the uncrossing of the depth it is added to. -/
theorem addOrder_matched {o : Order} (h : Rep g b) (hv : g.valid o.price o.quantity)
    (hfit : b.fits g o.isBuy o.price o.quantity) :
    ∃ k v, Rep g (b.addOrder g o) ∧ Uncrosses (b.depth.add o.isBuy o.price.toNat o.quantity) k v (b.addOrder g o).depth ∧
      (b.addOrder g o).trades = b.trades + UInt64.ofNat k ∧ (b.addOrder g o).traded = b.traded + v := by
  unfold FlatBook.addOrder
  cases hs : o.isBuy with
  | true =>
    rw [hs] at hfit
    obtain ⟨hr, hd⟩ := placeBuy_rep h hv hfit
    obtain ⟨k, v, hm⟩ := tryMatch_matched hr
    have heq : (b.addBuy g o.price o.quantity).2 = (b.placeBuy o.price o.quantity).tryMatch g := by
      unfold FlatBook.addBuy
      rw [hv]
      rfl
    rw [if_pos rfl, heq, ← hd]
    exact ⟨k, v, hm.rep, hm.refines, hm.trades, hm.traded⟩
  | false =>
    rw [hs] at hfit
    obtain ⟨hr, hd⟩ := placeSell_rep h hv hfit
    obtain ⟨k, v, hm⟩ := tryMatch_matched hr
    have heq : (b.addSell g o.price o.quantity).2 = (b.placeSell o.price o.quantity).tryMatch g := by
      unfold FlatBook.addSell
      rw [hv]
      rfl
    rw [if_neg Bool.false_ne_true, heq, ← hd]
    exact ⟨k, v, hm.rep, hm.refines, hm.trades, hm.traded⟩

/-- The same book: quantities at every price, best prices, number of trades. -/
structure Same (g : Grid) (b : FlatBook) (m : MapBook) : Prop where
  bids : ∀ p : Nat, b.bidQty p = qtyAt m.bids p
  asks : ∀ p : Nat, b.askQty p = qtyAt m.asks p
  bestBid : b.bestBid = m.bestBid
  bestAsk : b.bestAsk = m.bestAsk g
  trades : b.trades = m.trades

/-- The simulation: two books of one depth. -/
structure Agree (g : Grid) (b : FlatBook) (m : MapBook) : Prop where
  flat : Rep g b
  map : MapRep m
  depth : b.depth = m.depth
  trades : b.trades = m.trades

theorem Agree.same (h : Agree g b m) : Same g b m := by
  have hbid : b.bidQty = m.depth.bid := congrArg Depth.bid h.depth
  have hask : b.askQty = m.depth.ask := congrArg Depth.ask h.depth
  refine ⟨fun p => congrFun hbid p, fun p => congrFun hask p, ?_, ?_, h.trades⟩
  · have hbest := h.flat.bestBid
    rw [hbid] at hbest
    unfold MapBook.bestBid
    cases hm : m.bids with
    | nil =>
      rcases hbest with ⟨he, -⟩ | ⟨p, -, hp, -⟩
      · exact he
      · have hz : m.depth.bid p = 0 := by
          show qtyAt m.bids p = 0
          rw [hm]
          rfl
        omega
    | cons e l =>
      obtain ⟨r, x⟩ := e
      obtain ⟨hr, hhigh, -⟩ := h.map.head_bid hm
      rcases hbest with ⟨-, hz⟩ | ⟨p, he, hp⟩
      · have := hz r.toNat
        have := hhigh.1
        omega
      · show b.bestBid = r
        have := hp.unique hhigh
        omega
  · have hbest := h.flat.bestAsk
    rw [hask] at hbest
    unfold MapBook.bestAsk
    cases hm : m.asks with
    | nil =>
      rcases hbest with ⟨he, -⟩ | ⟨p, -, hp, -⟩
      · exact he
      · have hz : m.depth.ask p = 0 := by
          show qtyAt m.asks p = 0
          rw [hm]
          rfl
        omega
    | cons e l =>
      obtain ⟨r, x⟩ := e
      obtain ⟨hr, hlow, -⟩ := h.map.head_ask hm
      rcases hbest with ⟨-, hz⟩ | ⟨p, he, hp⟩
      · have := hz r.toNat
        have := hlow.1
        omega
      · show b.bestAsk = r
        have := hp.unique hlow
        omega

/-- One order: both books uncross the same depth. -/
theorem Agree.addOrder (h : Agree g b m) {o : Order} (hv : g.valid o.price o.quantity)
    (hfit : b.fits g o.isBuy o.price o.quantity) : Agree g (b.addOrder g o) (m.addOrder o) := by
  obtain ⟨hp, -, hq⟩ := valid_iff.mp hv
  have hbid : b.bidQty = m.depth.bid := congrArg Depth.bid h.depth
  have hask : b.askQty = m.depth.ask := congrArg Depth.ask h.depth
  have hroom := fits_of hv hfit
  rw [hbid, hask] at hroom
  obtain ⟨k1, v1, hr1, hu1, ht1, -⟩ := addOrder_matched h.flat hv hfit
  obtain ⟨k2, v2, hr2, hu2, ht2⟩ := h.map.addOrder hp hq hroom
  rw [h.depth] at hu1
  obtain ⟨hk, -, hd⟩ := hu1.unique hu2
  refine ⟨hr1, hr2, hd, ?_⟩
  rw [ht1, ht2, h.trades, hk]

theorem Agree.run (h : Agree g b m) (os : List Order) (hacc : b.accepts g os) :
    Agree g (os.foldl (FlatBook.addOrder g) b) (os.foldl MapBook.addOrder m) := by
  induction os generalizing b m with
  | nil => exact h
  | cons o os ih =>
    unfold FlatBook.accepts at hacc
    simp only [Bool.and_eq_true] at hacc
    obtain ⟨⟨hv, hfit⟩, hrest⟩ := hacc
    exact ih (h.addOrder hv hfit) hrest

end

/-- Fed the same orders, the flat book and the map book show the same quantities, best prices and trades. -/
theorem flat_refines_map (g : Grid) (os : List Order) (h : (fresh g).accepts g os = true) :
    Same g (os.foldl (FlatBook.addOrder g) (fresh g)) (os.foldl MapBook.addOrder {}) := by
  refine Agree.same (Agree.run ⟨(fresh_sound g).toRep, ⟨?_, ?_⟩, rfl, rfl⟩ os h)
  · exact ⟨List.Pairwise.nil, fun e he => absurd he List.not_mem_nil, fun e he => absurd he List.not_mem_nil⟩
  · exact ⟨List.Pairwise.nil, fun e he => absurd he List.not_mem_nil, fun e he => absurd he List.not_mem_nil⟩

/-- Levels of both words, an order that takes two of them and rests, and one that takes it again. -/
theorem flat_refines_map_small :
    Same grid128 ([⟨63, 5, false⟩, ⟨64, 4, false⟩, ⟨64, 10, true⟩, ⟨0, 3, false⟩].foldl (FlatBook.addOrder grid128) (fresh grid128))
      ([⟨63, 5, false⟩, ⟨64, 4, false⟩, ⟨64, 10, true⟩, ⟨0, 3, false⟩].foldl MapBook.addOrder {}) :=
  flat_refines_map grid128 _ (by decide +kernel)

end HftLab.Flat
