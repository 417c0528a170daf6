/-
  HftLab.OrderBook.Repricing — when one pass of `reprice_pegs` is enough.

  A target is computed from the best prices at the moment the slot is visited, and a move can change them: a peg that is alone at
  the best price takes the quote along, and one whose target is better than the best price becomes the quote. While no move does
  either (`Book.quotesStay`), the best prices are the same at every visit, so that after the pass every peg of the list is where it
  should be and another pass changes nothing (`reprice_settles`).
-/

import HftLab.OrderBook.Pegs
import HftLab.OrderBook.BestPrice

namespace HftLab.OrderBook

open Lib Function List

namespace Book

variable (V : Env) (b : Book)

/-- Where `reprice_pegs` moves the order in slot `i`, if it does. -/
def pegMove (i : Nat) : Option Int :=
  if !(b.order i).isActive then none
  else match b.pegTarget (b.order i) with
    | none => none
    | some target => if ¬ inRange V target ∨ target = (b.order i).priceTicks then none else some target

/-- After the slots of `l` were visited, nobody but the order in slot `i` is at its price. -/
def lastThere (l : List Nat) (i : Nat) : Bool :=
  (b.core.queue V (b.order i).priceTicks).all (fun j => j = i || j ∈ l && (b.pegMove V j).isSome) &&
    l.all fun j => b.pegMove V j ≠ some (b.order i).priceTicks

/-- The move of the order in slot `i`, after those of the slots of `l`, would change a best price. -/
def movesQuote (l : List Nat) (i : Nat) : Bool :=
  i ∉ l && (b.pegMove V i).any fun target =>
    (b.order i).side.rank target < (b.order i).side.rank (b.core.best (b.order i).side) ||
      (b.order i).priceTicks = b.core.best (b.order i).side && b.lastThere V l i

def staysFrom : List Nat → List Nat → Bool
  | _, [] => true
  | l, i :: r => !b.movesQuote V l i && staysFrom (l ++ [i]) r

end Book

section

variable {V : Env} {b c : Book} {l r : List Nat} {i j : Nat} {t : Int}

theorem repricePeg_eq (V : Env) (b : Book) (i : Nat) : b.repricePeg V i =
    match b.pegMove V i with
    | none => b
    | some t => b.mapCore fun c => (c.reprice V i t).followPeg (b.order i).side t := by
  unfold Book.repricePeg Book.pegMove
  dsimp only
  cases (b.order i).isActive with
  | false => rfl
  | true =>
    cases b.pegTarget (b.order i) with
    | none => rfl
    | some t =>
      by_cases h : ¬ inRange V t ∨ t = (b.order i).priceTicks
      · simp [h]
      · simp [h]

/-- The target depends on the best prices and on what the peg was entered with. -/
theorem pegTarget_congr {o o' : Order} (hbid : c.core.bestBid = b.core.bestBid) (hask : c.core.bestAsk = b.core.bestAsk)
    (ho : o' = { o with priceTicks := o'.priceTicks }) : c.pegTarget o' = b.pegTarget o := by
  rw [ho]
  unfold Book.pegTarget Core.midTicks Core.hasBid Core.hasAsk
  rw [hbid, hask]

/-- The move of an order that stands at `x` now, the best prices being the same. -/
theorem pegMove_moved {x : Int} (hbid : c.core.bestBid = b.core.bestBid) (hask : c.core.bestAsk = b.core.bestAsk)
    (hbody : c.core.body i = { b.core.body i with priceTicks := x }) :
    c.pegMove V i = if !(b.order i).isActive then none
      else match b.pegTarget (b.order i) with
        | none => none
        | some target => if ¬ inRange V target ∨ target = x then none else some target := by
  have htarget : c.pegTarget (c.core.body i) = b.pegTarget (b.core.body i) := by
    rw [hbody]
    exact pegTarget_congr hbid hask rfl
  have hprice : (c.core.body i).priceTicks = x := by rw [hbody]
  have hact : (c.core.body i).isActive = (b.core.body i).isActive := by
    rw [hbody]
    rfl
  show (if !(c.core.body i).isActive then none
      else match c.pegTarget (c.core.body i) with
        | none => none
        | some target => if ¬ inRange V target ∨ target = (c.core.body i).priceTicks then none else some target) = _
  rw [hact, htarget, hprice]
  rfl

theorem pegMove_target (h : b.pegMove V i = some t) : (b.order i).isActive ∧ b.pegTarget (b.order i) = some t ∧ inRange V t ∧
    t ≠ (b.order i).priceTicks := by
  unfold Book.pegMove at h
  split at h
  · cases h
  · rename_i hact
    split at h
    · cases h
    · rename_i target ht
      split at h
      · cases h
      · rename_i hr
        cases h
        obtain ⟨h1, h2⟩ := not_or.mp hr
        exact ⟨by simpa using hact, ht, not_not.mp h1, h2⟩

/-! ## The pass -/

/-- The book `c` after the slots of `l` were visited: the orders in them are at their targets, the best prices as before. -/
structure Visited (V : Env) (b : Book) (l : List Nat) (c : Book) : Prop where
  wf : Wf V c
  bid : c.core.bestBid = b.core.bestBid
  ask : c.core.bestAsk = b.core.bestAsk
  pegs : c.core.pegOrders = b.core.pegOrders
  body : ∀ j, c.core.body j =
    { b.core.body j with priceTicks := if j ∈ l then (b.pegMove V j).getD (b.core.body j).priceTicks else (b.core.body j).priceTicks }
  queued : ∀ j, c.core.Queued V j ↔ b.core.Queued V j

theorem Visited.start (hw : Wf V b) : Visited V b [] b where
  wf := hw
  bid := rfl
  ask := rfl
  pegs := rfl
  body _ := rfl
  queued _ := Iff.rfl

/-- A slot that was not visited moves as it would have at first, one that was does not move again. -/
theorem Visited.pegMove (h : Visited V b l c) (i : Nat) : c.pegMove V i = if i ∈ l then none else b.pegMove V i := by
  rw [pegMove_moved h.bid h.ask (h.body i)]
  by_cases hl : i ∈ l
  · rw [if_pos hl, if_pos hl]
    cases hm : b.pegMove V i with
    | some t =>
      obtain ⟨hact, htarget, -, -⟩ := pegMove_target hm
      rw [hact, htarget]
      simp
    | none =>
      unfold Book.pegMove at hm
      exact hm
  · rw [if_neg hl, if_neg hl]
    rfl

theorem Visited.best (h : Visited V b l c) (s : Side) : c.core.best s = b.core.best s := by
  cases s with
  | buy => exact h.bid
  | sell => exact h.ask

theorem Wf.mem_queue_iff (hw : Wf V b) {p : Int} : j ∈ b.core.queue V p ↔ b.core.Queued V j ∧ (b.core.body j).priceTicks = p := by
  constructor
  · intro hj
    exact ⟨⟨p, hj⟩, hw.price hj⟩
  · rintro ⟨⟨q, hj⟩, hp⟩
    rw [hw.price hj] at hp
    exact hp ▸ hj

/-- While the quote stays, the level that the order leaves is not emptied, or it is not the best one. -/
theorem Visited.refreshes_nothing (h : Visited V b l c) (hw : Wf V b) (ht : ∀ j ∈ l, Tracked V b j) (hi : c.core.Queued V i) (hl : i ∉ l)
    (hm : b.pegMove V i = some t) (hq : b.movesQuote V l i = false) :
    (c.core.unlinkFromLevel i).refreshIfEmptied V (c.order i).side (c.order i).priceTicks = c.core.unlinkFromLevel i := by
  have hside : (c.order i).side = (b.order i).side := by
    show (c.core.body i).side = _
    rw [h.body i]
    rfl
  have hprice : (c.order i).priceTicks = (b.order i).priceTicks := by
    show (c.core.body i).priceTicks = _
    rw [h.body i, if_neg hl]
    rfl
  have hmem : i ∈ c.core.queue V (b.order i).priceTicks := h.wf.mem_queue_iff.mpr ⟨hi, hprice⟩
  rw [hside, hprice]
  unfold Core.refreshIfEmptied
  by_cases hempty : ((c.core.unlinkFromLevel i).levels (b.order i).priceTicks).empty
  · rw [if_pos hempty]
    have hlast : b.lastThere V l i := by
      have hnil := ((h.wf.links.unlink hmem).empty_iff _).mp hempty
      rw [update_self] at hnil
      have honly : ∀ j ∈ c.core.queue V (b.order i).priceTicks, j = i := by
        intro j hj
        by_contra hne
        have := (mem_erase_of_ne hne).mpr hj
        rw [hnil] at this
        cases this
      refine Bool.and_eq_true_iff.mpr ⟨all_eq_true.mpr fun j hj => ?_, all_eq_true.mpr fun j hj => ?_⟩
      · obtain ⟨hjq, hjp⟩ := hw.mem_queue_iff.mp hj
        by_contra hn
        simp only [Bool.or_eq_true, Bool.and_eq_true, decide_eq_true_eq, not_or, not_and] at hn
        refine hn.1 (honly j (h.wf.mem_queue_iff.mpr ⟨(h.queued j).mpr hjq, ?_⟩))
        rw [h.body j]
        split
        · rename_i hjl
          rw [Option.not_isSome_iff_eq_none.mp (hn.2 hjl)]
          exact hjp
        · exact hjp
      · rw [decide_eq_true_eq]
        intro hjm
        have hjq := ht j hj (pegMove_target hjm).1
        have hji := honly j (h.wf.mem_queue_iff.mpr ⟨(h.queued j).mpr hjq, by rw [h.body j, if_pos hj, hjm]; rfl⟩)
        exact hl (hji ▸ hj)
    have hne : (b.order i).priceTicks ≠ b.core.best (b.order i).side := by
      intro e
      unfold Book.movesQuote at hq
      rw [hm, hlast] at hq
      simp [hl, e] at hq
    cases hs : (b.order i).side with
    | buy =>
      rw [hs] at hne
      exact if_neg (h.bid.symm ▸ hne)
    | sell =>
      rw [hs] at hne
      exact if_neg (h.ask.symm ▸ hne)
  · rw [if_neg hempty]

/-- One more slot is visited. -/
theorem Visited.next (h : Visited V b l c) (hw : Wf V b) (ht : ∀ j ∈ l, Tracked V b j) (hi : Tracked V b i)
    (hq : b.movesQuote V l i = false) : Visited V b (l ++ [i]) (c.repricePeg V i) := by
  have hmove := h.pegMove i
  cases hm : c.pegMove V i with
  | none =>
    rw [repricePeg_eq, hm]
    refine ⟨h.wf, h.bid, h.ask, h.pegs, fun j => ?_, h.queued⟩
    rw [h.body j]
    by_cases hj : j ∈ l
    · simp [hj]
    · by_cases e : j = i
      · subst e
        rw [hm, if_neg hj] at hmove
        simp [hj, ← hmove]
      · simp [hj, e]
  | some t =>
    have hl : i ∉ l := by
      intro hl
      rw [hm, if_pos hl] at hmove
      cases hmove
    have hbm : b.pegMove V i = some t := by
      rw [hm, if_neg hl] at hmove
      exact hmove.symm
    obtain ⟨hact, -, hr, -⟩ := pegMove_target hbm
    have hqueued : c.core.Queued V i := (h.queued i).mpr (hi hact)
    have hquiet := h.refreshes_nothing hw ht hqueued hl hbm hq
    obtain ⟨p, hp⟩ := hqueued
    obtain ⟨x, y, hfollow⟩ := (c.core.reprice V i t).followPeg_eq (c.order i).side t
    have hside : (c.order i).side = (b.order i).side := by
      show (c.core.body i).side = _
      rw [h.body i]
      rfl
    have hbehind : ¬ (b.order i).side.rank t < (b.order i).side.rank (b.core.best (b.order i).side) := by
      intro hlt
      unfold Book.movesQuote at hq
      rw [hbm] at hq
      simp [hl, hlt] at hq
    have hbid : (c.core.reprice V i t).bestBid = c.core.bestBid := by
      show ((c.core.unlinkFromLevel i).refreshIfEmptied V (c.order i).side (c.order i).priceTicks).bestBid = _
      rw [hquiet]
      rfl
    have hask : (c.core.reprice V i t).bestAsk = c.core.bestAsk := by
      show ((c.core.unlinkFromLevel i).refreshIfEmptied V (c.order i).side (c.order i).priceTicks).bestAsk = _
      rw [hquiet]
      rfl
    have hbests : ((c.core.reprice V i t).followPeg (c.order i).side t).bestBid = c.core.bestBid ∧
        ((c.core.reprice V i t).followPeg (c.order i).side t).bestAsk = c.core.bestAsk := by
      rw [hside]
      cases hs : (b.order i).side with
      | buy =>
        rw [hs, ← h.best] at hbehind
        refine ⟨?_, hask⟩
        show (if (c.core.reprice V i t).bestBid < t then t else (c.core.reprice V i t).bestBid) = _
        rw [hbid, if_neg]
        intro hlt
        exact hbehind (Int.neg_lt_neg hlt)
      | sell =>
        rw [hs, ← h.best] at hbehind
        refine ⟨hbid, ?_⟩
        show (if t < (c.core.reprice V i t).bestAsk then t else (c.core.reprice V i t).bestAsk) = _
        rw [hask, if_neg]
        exact hbehind
    rw [repricePeg_eq, hm]
    have hcore : (c.mapCore fun d => (d.reprice V i t).followPeg (c.order i).side t).core =
        { c.core.reprice V i t with bestBid := x, bestAsk := y } := hfollow
    have hv := h.wf.reprice_view hp hr hcore rfl
    refine ⟨(h.wf.reprice hp hr hcore rfl).wf h.wf, hbests.1.trans h.bid, hbests.2.trans h.ask, ?_, fun j => ?_, fun j => ?_⟩
    · have hpegs : (c.core.reprice V i t).pegOrders = c.core.pegOrders := c.core.reprice_rest.2.2
      rw [hcore]
      exact hpegs.trans h.pegs
    · rw [moved_body]
      by_cases e : j = i
      · subst e
        rw [update_self, h.body j]
        simp [hbm]
      · rw [update_of_ne e, h.body j]
        simp [e]
    · rw [← h.queued j]
      by_cases e : j = i
      · subst e
        refine ⟨fun _ => ⟨p, hp⟩, fun _ => ⟨t, ?_⟩⟩
        rw [queue_of_view hv]
        show j ∈ requeued (c.core.queue V) p t j t
        unfold requeued
        rw [update_self]
        exact mem_append_right _ mem_cons_self
      · unfold Core.Queued
        rw [queue_of_view hv]
        exact exists_congr fun r => mem_requeued e

theorem Visited.rest (h : Visited V b l c) (hw : Wf V b) (ht : ∀ j ∈ l ++ r, Tracked V b j) (hs : b.staysFrom V l r) :
    Visited V b (l ++ r) (r.foldl (fun b i => b.repricePeg V i) c) := by
  induction r generalizing l c with
  | nil =>
    rw [append_nil]
    exact h
  | cons i r ih =>
    unfold Book.staysFrom at hs
    obtain ⟨hq, hs⟩ := Bool.and_eq_true_iff.mp hs
    have hsplit : l ++ i :: r = (l ++ [i]) ++ r := by simp
    have hi : Tracked V b i := ht i (mem_append_right _ mem_cons_self)
    have hnext := h.next hw (fun j hj => ht j (mem_append_left _ hj)) hi (by simpa using hq)
    rw [foldl_cons, hsplit]
    exact ih hnext (hsplit ▸ ht) hs

end

end HftLab.OrderBook
