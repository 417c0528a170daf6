/-
  HftLab.OrderBook.Cross — the call auction.

  `Filled V a b F b'`: the book `b` became `b'` by the executions `F`, each a slot and a quantity, at the price `a`. An execution
  loop hands the volume out to the orders of its side, best first (`auctionLevels_filled`): this is `allot`.

  `auction_clears`: the auction executes the largest volume, at the clearing price, the same on both sides, in order of price and
  arrival.
-/

import HftLab.OrderBook.Clearing

namespace HftLab.OrderBook

open Lib Function List

/-- What was executed of the order in slot `i`. -/
def taken (F : List (Nat × Int)) (i : Nat) : Int := ((F.filter fun x => x.1 = i).map Prod.snd).sum

/-- The order after `q` of it was executed, its status with it. -/
def Order.crossed (o : Order) (q : Int) : Order :=
  { o.auctioned q with status := if o.totalQty ≤ o.filledQty + q then .filled else .partiallyFilled }

/-- The event of an execution. -/
def BookEvent.Prints (b : Book) (a : Int) (e : BookEvent) (x : Nat × Int) : Prop :=
  e.type = .fill ∧ e.orderId = (b.core.body x.1).id ∧ e.priceTicks = a ∧ e.qty = x.2

structure Filled (V : Env) (a : Int) (b : Book) (F : List (Nat × Int)) (b' : Book) : Prop where
  wf : Wf V b'
  queue : ∀ p, b'.core.queue V p = (b.core.queue V p).filter fun i => taken F i < (b.core.body i).remainingQty
  body : ∀ i, b'.core.body i = if taken F i = 0 then b.core.body i else (b.core.body i).crossed (taken F i)
  prints : ∃ evs, b'.tape.events = b.tape.events ++ evs ∧ List.Forall₂ (BookEvent.Prints b a) evs F
  summed : b.Summed V → b'.Summed V
  simple : b.Simple → b'.Simple
  flight : b'.inFlight = b.inFlight

section

variable {V : Env} {b b' b'' : Book} {a p q rem : Int} {i ts : Nat} {s : Side} {F G : List (Nat × Int)}
    {l : List Nat} {j : Nat} {ps : List Int}

/-! ## Executions -/

theorem taken_append (F G : List (Nat × Int)) (i : Nat) : taken (F ++ G) i = taken F i + taken G i := by
  unfold taken
  rw [filter_append, map_append, sum_append]

theorem taken_singleton (i j : Nat) (q : Int) : taken [(i, q)] j = if i = j then q else 0 := by
  unfold taken
  by_cases e : i = j
  · rw [filter_cons_of_pos (by simpa using e), if_pos e]
    simp
  · rw [filter_cons_of_neg (by simpa using e), if_neg e]
    rfl

theorem taken_nonneg (h : ∀ x ∈ F, 0 < x.2) (i : Nat) : 0 ≤ taken F i := by
  refine sum_nonneg fun y hy => ?_
  obtain ⟨x, hx, rfl⟩ := mem_map.mp hy
  exact Int.le_of_lt (h x (mem_filter.mp hx).1)

theorem taken_eq_zero (h : ∀ q, (i, q) ∉ F) : taken F i = 0 := by
  unfold taken
  rw [filter_eq_nil_iff.mpr]
  · rfl
  · intro x hx e
    exact h x.2 (of_decide_eq_true e ▸ hx)

theorem Order.crossed_remaining (o : Order) (q : Int) : (o.crossed q).remainingQty = o.remainingQty - q := by
  show o.totalQty - (o.filledQty + q) = o.totalQty - o.filledQty - q
  omega

theorem Order.crossed_crossed (o : Order) {r : Int} (hr : 0 ≤ r) : (o.crossed q).crossed r = o.crossed (q + r) := by
  have hshown : o.displayedQty - min q o.displayedQty - min r (o.displayedQty - min q o.displayedQty) =
      o.displayedQty - min (q + r) o.displayedQty := by omega
  unfold Order.crossed Order.auctioned
  rw [hshown, Int.add_assoc]

theorem Filled.remaining (h : Filled V a b F b') (i : Nat) :
    (b'.core.body i).remainingQty = (b.core.body i).remainingQty - taken F i := by
  rw [h.body]
  split
  · rename_i e
    rw [e, Int.sub_zero]
  · exact Order.crossed_remaining ..

/-- What an execution never changes. -/
theorem Filled.same (h : Filled V a b F b') (i : Nat) : (b'.core.body i).id = (b.core.body i).id ∧
    (b'.core.body i).side = (b.core.body i).side ∧ (b'.core.body i).priceTicks = (b.core.body i).priceTicks ∧
    (b'.core.body i).tif = (b.core.body i).tif ∧ (b'.core.body i).totalQty = (b.core.body i).totalQty := by
  rw [h.body]
  split <;> exact ⟨rfl, rfl, rfl, rfl, rfl⟩

theorem Filled.refl (h : Wf V b) (a : Int) : Filled V a b [] b where
  wf := h
  queue p := by
    refine (filter_eq_self.mpr fun i hi => decide_eq_true ?_).symm
    have hleft := (h.resting hi).left
    show (0 : Int) < (b.core.body i).totalQty - (b.core.body i).filledQty
    omega
  body i := rfl
  prints := ⟨[], by simp, List.Forall₂.nil⟩
  summed := id
  simple := id
  flight := rfl

theorem Filled.trans (h : Filled V a b F b') (h' : Filled V a b' G b'') (hF : ∀ x ∈ F, 0 < x.2) (hG : ∀ x ∈ G, 0 < x.2) :
    Filled V a b (F ++ G) b'' where
  wf := h'.wf
  queue p := by
    rw [h'.queue, h.queue, filter_filter]
    refine filter_congr fun i _ => ?_
    have h1 := taken_nonneg hF i
    have h2 := taken_nonneg hG i
    rw [h.remaining, taken_append, ← Bool.decide_and]
    refine decide_eq_decide.mpr ?_
    omega
  body i := by
    have h1 := taken_nonneg hF i
    have h2 := taken_nonneg hG i
    rw [h'.body, h.body, taken_append]
    by_cases e1 : taken F i = 0
    · rw [if_pos e1, e1, Int.zero_add]
    · have e3 : ¬ taken F i + taken G i = 0 := by omega
      rw [if_neg e1, if_neg e3]
      by_cases e2 : taken G i = 0
      · rw [if_pos e2, e2, Int.add_zero]
      · rw [if_neg e2, Order.crossed_crossed _ h2]
  prints := by
    obtain ⟨evs, he, hp⟩ := h.prints
    obtain ⟨evs', he', hp'⟩ := h'.prints
    refine ⟨evs ++ evs', by rw [he', he, append_assoc], rel_append hp (hp'.imp ?_)⟩
    intro e x hx
    unfold BookEvent.Prints at hx ⊢
    rwa [(h.same x.1).1] at hx
  summed hs := h'.summed (h.summed hs)
  simple hs := h'.simple (h.simple hs)
  flight := h'.flight.trans h.flight

theorem auctionTake_oco (h : ∀ k, b.oco.partner k = none) : (b.auctionTake p a i q ts).oco = b.oco := by
  unfold Book.auctionTake
  dsimp only
  split
  · exact Oco.complete_none (h _)
  · rfl

theorem auctionTake_stops (hw : Wf V b) (hi : i ∈ b.core.queue V p) :
    (b.auctionTake p a i q ts).core.stopOrders = b.core.stopOrders := by
  cases hw.auctionTake_view hi a q ts with
  | complete _ hv => exact congrArg View.stops hv
  | partial_ _ hv => exact congrArg View.stops hv

theorem auctionTake_events (p a take : Int) (i ts : Nat) : ∃ e, (b.auctionTake p a i take ts).tape.events = b.tape.events ++ [e] ∧
    e.type = .fill ∧ e.orderId = (b.core.body i).id ∧ e.priceTicks = a ∧ e.qty = take := by
  have htape : ∀ t : Tape, t.events = b.tape.events → ∀ st : OrderStatus, ∃ e,
      t.events ++ [⟨.fill, (b.order i).id, 0, a, take, st, .none, t.nextEventSeq + 1, (b.order i).clientId⟩] = b.tape.events ++ [e] ∧
        e.type = .fill ∧ e.orderId = (b.core.body i).id ∧ e.priceTicks = a ∧ e.qty = take := by
    intro t ht st
    exact ⟨_, by rw [ht], rfl, rfl, rfl, rfl⟩
  have hside : (if (b.order i).side = Side.sell then (b.recordTrade (b.order i).id 0 a take .buy ts).tape else b.tape).events =
      b.tape.events := by
    split <;> rfl
  unfold Book.auctionTake
  dsimp only
  split
  · exact htape _ hside .filled
  · exact htape _ hside .partiallyFilled

/-- One execution. -/
theorem auctionTake_filled (hw : Wf V b) (hi : i ∈ b.core.queue V p) (hpos : 0 < q) (hle : q ≤ (b.core.body i).remainingQty) :
    Filled V a b [(i, q)] (b.auctionTake p a i q ts) := by
  have hact : Act V .auction b (b.auctionTake p a i q ts) := .auction p a i q ts hi hpos hle
  have hnodup := (hw.links.level p).nodup
  obtain ⟨e, he, h1, h2, h3, h4⟩ := auctionTake_events (b := b) p a q i ts
  have hmain : (∀ r, (b.auctionTake p a i q ts).core.queue V r =
        (b.core.queue V r).filter fun j => taken [(i, q)] j < (b.core.body j).remainingQty) ∧
      (∀ j, (b.auctionTake p a i q ts).core.body j =
        if taken [(i, q)] j = 0 then b.core.body j else (b.core.body j).crossed (taken [(i, q)] j)) := by
    have hother : ∀ r, ∀ j ∈ b.core.queue V r, j ≠ i → taken [(i, q)] j < (b.core.body j).remainingQty := by
      intro r j hj hne
      rw [taken_singleton, if_neg (Ne.symm hne)]
      have hleft := (hw.resting hj).left
      unfold Order.remainingQty
      omega
    cases hw.auctionTake_view hi a q ts with
    | complete hfull hv =>
      have hq : q = (b.core.body i).remainingQty := by
        unfold Order.remainingQty at hle ⊢
        omega
      constructor
      · intro r
        rw [queue_of_view hv]
        show update (b.core.queue V) p ((b.core.queue V p).erase i) r = _
        by_cases er : r = p
        · subst er
          rw [update_self, hnodup.erase_eq_filter]
          refine filter_congr fun j hj => ?_
          by_cases e : j = i
          · subst e
            rw [taken_singleton, if_pos rfl, ← hq]
            simp
          · rw [decide_eq_true (hother r j hj e)]
            simpa using e
        · rw [update_of_ne er]
          refine (filter_eq_self.mpr fun j hj => decide_eq_true (hother r j hj ?_)).symm
          rintro rfl
          exact er (hw.links.unique hj hi)
      · intro j
        rw [body_of_view hv]
        show update (update b.core.body i ((b.core.body i).auctioned q)) i _ j = _
        by_cases e : j = i
        · subst e
          rw [taken_singleton, if_pos rfl, if_neg (by omega), update_self]
          show { update b.core.body j ((b.core.body j).auctioned q) j with status := .filled } = _
          rw [update_self]
          unfold Order.crossed
          rw [if_pos hfull]
        · rw [taken_singleton, if_neg (Ne.symm e), if_pos rfl, update_of_ne e, update_of_ne e]
    | partial_ hpart hv =>
      constructor
      · intro r
        rw [queue_of_view hv]
        refine (filter_eq_self.mpr fun j hj => decide_eq_true ?_).symm
        by_cases e : j = i
        · subst e
          rw [taken_singleton, if_pos rfl]
          unfold Order.remainingQty
          omega
        · exact hother r j hj e
      · intro j
        rw [body_of_view hv]
        show update b.core.body i { (b.core.body i).auctioned q with status := .partiallyFilled } j = _
        by_cases e : j = i
        · subst e
          rw [taken_singleton, if_pos rfl, if_neg (by omega), update_self]
          unfold Order.crossed
          rw [if_neg (by omega)]
        · rw [taken_singleton, if_neg (Ne.symm e), if_pos rfl, update_of_ne e]
  exact ⟨hact.wf hw, hmain.1, hmain.2, ⟨[e], he, .cons ⟨h1, h2, h3, h4⟩ .nil⟩, fun hs => hact.summed trivial hw hs,
    fun hs => hs.congr (auctionTake_oco hs.partner) (fun hb => hb.congr (auctionTake_brackets hb))
      (auctionTake_stops hw hi),
    b.auctionTake_inFlight p a i q ts⟩

/-! ## The execution loops -/

/-- What is left of the order in slot `i`. -/
def Book.left (b : Book) (i : Nat) : Int := (b.core.body i).remainingQty

theorem Wf.left_pos (h : Wf V b) (hi : i ∈ b.core.queue V p) : 0 < b.left i := by
  have hleft := (h.resting hi).left
  unfold Book.left Order.remainingQty
  omega

/-- The orders of side `s` among the slots `l`. -/
def Book.ofSide (b : Book) (s : Side) (l : List Nat) : List Nat := l.filter fun i => (b.core.body i).side = s

theorem mem_ofSide (h : i ∈ b.ofSide s l) : i ∈ l := (mem_filter.mp h).1

theorem auctionVisits_done (h : rem ≤ 0) (p : Int) (l : List Nat) (b : Book) :
    l.foldl (Book.auctionVisit s p a ts) (rem, b) = (rem, b) := by
  induction l with
  | nil => rfl
  | cons i l ih =>
    rw [foldl_cons]
    have hskip : Book.auctionVisit s p a ts (rem, b) i = (rem, b) := by
      exact if_neg (by omega)
    rw [hskip, ih]

/-- What an execution leaves alone: every other order and its place. -/
theorem Filled.other (h : Filled V a b [(i, q)] b') (hj : j ≠ i) : b'.core.body j = b.core.body j := by
  rw [h.body, taken_singleton, if_neg (Ne.symm hj), if_pos rfl]

theorem Filled.mem_queue (h : Filled V a b F b') (hw : Wf V b) (hj : j ∈ b.core.queue V p) (ht : taken F j = 0) :
    j ∈ b'.core.queue V p := by
  rw [h.queue]
  refine mem_filter.mpr ⟨hj, decide_eq_true ?_⟩
  rw [ht]
  exact hw.left_pos hj

/-- One level: its orders of the side are served in turn. -/
theorem auctionVisits_filled (s : Side) (a : Int) (ts : Nat) (hw : Wf V b) (hn : l.Nodup) (hl : ∀ i ∈ l, i ∈ b.core.queue V p)
    (h0 : 0 ≤ rem) :
    ∃ b', l.foldl (Book.auctionVisit s p a ts) (rem, b) =
        (rem - ((allot b.left rem (b.ofSide s l)).map Prod.snd).sum, b') ∧
      Filled V a b (allot b.left rem (b.ofSide s l)) b' := by
  induction l generalizing b rem with
  | nil => exact ⟨b, by simp [Book.ofSide, allot], Filled.refl hw a⟩
  | cons i l ih =>
    obtain ⟨hil, hn⟩ := nodup_cons.mp hn
    have hi := hl i mem_cons_self
    have hl' : ∀ j ∈ l, j ∈ b.core.queue V p := fun j hj => hl j (mem_cons_of_mem _ hj)
    by_cases hr : 0 < rem
    · rw [foldl_cons]
      by_cases hs : (b.core.body i).side = s
      · have hpos := hw.left_pos hi
        have hact : (b.order i).isActive := (hw.resting hi).active
        have hvisit : Book.auctionVisit s p a ts (rem, b) i =
            (rem - min (b.left i) rem, b.auctionTake p a i (min (b.left i) rem) ts) := by
          exact if_pos ⟨hr, hs, hact⟩
        have hone : Filled V a b [(i, min (b.left i) rem)] (b.auctionTake p a i (min (b.left i) rem) ts) :=
          auctionTake_filled hw hi (by omega) (min_le_left ..)
        -- The orders behind it stand as before.
        have hne : ∀ j ∈ l, j ≠ i := by
          rintro j hj rfl
          exact hil hj
        have hsame : ∀ j ∈ l, (b.auctionTake p a i (min (b.left i) rem) ts).core.body j = b.core.body j :=
          fun j hj => hone.other (hne j hj)
        have hrem : 0 ≤ rem - min (b.left i) rem := by omega
        obtain ⟨b', hfold, hfilled⟩ := ih hone.wf hn
          (fun j hj => hone.mem_queue hw (hl' j hj) (by rw [taken_singleton, if_neg (hne j hj).symm])) hrem
        have hside : (b.auctionTake p a i (min (b.left i) rem) ts).ofSide s l = b.ofSide s l :=
          filter_congr fun j hj => by rw [hsame j hj]
        have hallot : allot (b.auctionTake p a i (min (b.left i) rem) ts).left (rem - min (b.left i) rem) (b.ofSide s l) =
            allot b.left (rem - min (b.left i) rem) (b.ofSide s l) :=
          allot_congr fun j hj => congrArg Order.remainingQty (hsame j (mem_ofSide hj))
        rw [hside, hallot] at hfold hfilled
        have hcons : b.ofSide s (i :: l) = i :: b.ofSide s l := filter_cons_of_pos (by simpa using hs)
        rw [hvisit, hcons, allot_cons hr]
        refine ⟨b', ?_, hone.trans hfilled ?_ ?_⟩
        · rw [hfold, map_cons, sum_cons, Int.sub_sub]
        · intro x hx
          rw [mem_singleton.mp hx]
          omega
        · intro x hx
          exact (mem_allot (fun j hj => hw.left_pos (hl' j (mem_ofSide hj))) hx).2.1
      · have hskip : Book.auctionVisit s p a ts (rem, b) i = (rem, b) := by
          exact if_neg fun hc => hs hc.2.1
        have hcons : b.ofSide s (i :: l) = b.ofSide s l := filter_cons_of_neg (by simpa using hs)
        rw [hskip, hcons]
        exact ih hw hn hl' h0
    · rw [auctionVisits_done (by omega), allot_nonpos (by omega)]
      exact ⟨b, by simp, Filled.refl hw a⟩

/-- The orders of side `s` at the prices `ps`, price by price. -/
def Book.lineUp (V : Env) (b : Book) (s : Side) (ps : List Int) : List Nat := ps.flatMap fun p => b.ofSide s (b.core.queue V p)

theorem mem_lineUp (h : i ∈ b.lineUp V s ps) : ∃ p ∈ ps, i ∈ b.core.queue V p ∧ (b.core.body i).side = s := by
  obtain ⟨p, hp, hi⟩ := mem_flatMap.mp h
  obtain ⟨hi, hs⟩ := mem_filter.mp hi
  exact ⟨p, hp, hi, of_decide_eq_true hs⟩

/-- An execution loop: the orders of the side are served in turn, price by price. -/
theorem auctionLevels_filled (s : Side) (a : Int) (ts : Nat) (hw : Wf V b) (hn : ps.Nodup) (h0 : 0 ≤ rem) :
    ∃ b', ps.foldl (Book.auctionLevel V s a ts) (rem, b) =
        (rem - ((allot b.left rem (b.lineUp V s ps)).map Prod.snd).sum, b') ∧
      Filled V a b (allot b.left rem (b.lineUp V s ps)) b' := by
  induction ps generalizing b rem with
  | nil => exact ⟨b, by simp [Book.lineUp, allot], Filled.refl hw a⟩
  | cons p ps ih =>
    obtain ⟨hps, hn⟩ := nodup_cons.mp hn
    have hlevel : Book.auctionLevel V s a ts (rem, b) p = (b.core.queue V p).foldl (Book.auctionVisit s p a ts) (rem, b) := by
      unfold Book.auctionLevel
      split
      · rfl
      · rw [auctionVisits_done (by omega)]
    obtain ⟨b1, hfold1, hfilled1⟩ := auctionVisits_filled s a ts hw (hw.links.level p).nodup (fun _ hi => hi) h0
    have hpos1 : ∀ j ∈ b.ofSide s (b.core.queue V p), 0 < b.left j := fun j hj => hw.left_pos (mem_ofSide hj)
    have hsum := allot_sum hpos1 h0
    -- The orders at the other prices stand as before.
    have hsame : ∀ r ∈ ps, ∀ j ∈ b.core.queue V r, taken (allot b.left rem (b.ofSide s (b.core.queue V p))) j = 0 := by
      intro r hr j hj
      refine taken_eq_zero fun q hq => hps ?_
      rw [hw.links.unique (mem_ofSide (mem_allot hpos1 hq).1) hj]
      exact hr
    have hbody : ∀ r ∈ ps, ∀ j ∈ b.core.queue V r, b1.core.body j = b.core.body j := by
      intro r hr j hj
      rw [hfilled1.body, if_pos (hsame r hr j hj)]
    have hqueue : ∀ r ∈ ps, b1.core.queue V r = b.core.queue V r := by
      intro r hr
      rw [hfilled1.queue]
      refine filter_eq_self.mpr fun j hj => decide_eq_true ?_
      rw [hsame r hr j hj]
      exact hw.left_pos hj
    have hline : b1.lineUp V s ps = b.lineUp V s ps := by
      refine flatMap_congr fun r hr => ?_
      rw [hqueue r hr]
      exact filter_congr fun j hj => by rw [hbody r hr j hj]
    have hrem : 0 ≤ rem - ((allot b.left rem (b.ofSide s (b.core.queue V p))).map Prod.snd).sum := by omega
    obtain ⟨b', hfold, hfilled⟩ := ih hfilled1.wf hn hrem
    have hallot : allot b1.left (rem - ((allot b.left rem (b.ofSide s (b.core.queue V p))).map Prod.snd).sum) (b.lineUp V s ps) =
        allot b.left (rem - ((allot b.left rem (b.ofSide s (b.core.queue V p))).map Prod.snd).sum) (b.lineUp V s ps) := by
      refine allot_congr fun j hj => ?_
      obtain ⟨r, hr, hj, -⟩ := mem_lineUp hj
      exact congrArg Order.remainingQty (hbody r hr j hj)
    rw [hline, hallot] at hfold hfilled
    have hsplit : b.lineUp V s (p :: ps) = b.ofSide s (b.core.queue V p) ++ b.lineUp V s ps := flatMap_cons ..
    rw [foldl_cons, hlevel, hfold1, hfold, hsplit, allot_append hpos1]
    refine ⟨b', ?_, hfilled1.trans hfilled ?_ ?_⟩
    · rw [map_append, sum_append, Int.sub_sub]
    · intro x hx
      exact (mem_allot hpos1 hx).2.1
    · intro x hx
      refine (mem_allot (fun j hj => ?_) hx).2.1
      obtain ⟨r, -, hj, -⟩ := mem_lineUp hj
      exact hw.left_pos hj

/-! ## Both sides -/

variable {arrived : Nat → Nat} {n : Nat} {lo hi : Int}

theorem mem_auctionPrices {x : Int} : x ∈ Book.auctionPrices s lo hi a ↔ match s with
    | .buy => a ≤ x ∧ x ≤ hi
    | .sell => lo ≤ x ∧ x ≤ a := by
  cases s with
  | buy =>
    refine mem_map.trans ⟨?_, fun hx => ⟨(hi - x).toNat, mem_range.mpr (by omega), by omega⟩⟩
    rintro ⟨k, hk, rfl⟩
    rw [mem_range] at hk
    omega
  | sell =>
    refine mem_map.trans ⟨?_, fun hx => ⟨(x - lo).toNat, mem_range.mpr (by omega), by omega⟩⟩
    rintro ⟨k, hk, rfl⟩
    rw [mem_range] at hk
    omega

/-- The loops run from the best price on. -/
theorem auctionPrices_sorted (s : Side) (lo hi a : Int) :
    (Book.auctionPrices s lo hi a).Pairwise fun x y => s.rank x < s.rank y := by
  cases s <;> refine pairwise_map.mpr (pairwise_lt_range.imp ?_) <;> intro j k hjk
  · show -(hi - (j : Int)) < -(hi - (k : Int))
    omega
  · show lo + (j : Int) < lo + (k : Int)
    omega

theorem auctionPrices_nodup (s : Side) (lo hi a : Int) : (Book.auctionPrices s lo hi a).Nodup := by
  refine (auctionPrices_sorted s lo hi a).imp ?_
  rintro x y h rfl
  omega

/-- The quantity that side `s` wants to trade at `a`. -/
def Book.wanted (V : Env) (b : Book) (s : Side) (a : Int) : Int :=
  match s with
  | .buy => b.demand V a
  | .sell => b.supply V a

theorem Spanned.lineUp_sum (hs : Spanned V b lo hi) (h : Gathered V arrived n b) (h1 : lo ≤ a) (h2 : a ≤ hi) (s : Side) :
    ((b.lineUp V s (Book.auctionPrices s lo hi a)).map b.left).sum = b.wanted V s a := by
  have h3 := hs.nonneg
  have h4 := hs.top
  have hlevel : ∀ x, ((b.ofSide s (b.core.queue V x)).map b.left).sum = b.levelQty V s x := fun _ => rfl
  unfold Book.lineUp
  rw [sum_map_flatMap]
  simp only [hlevel]
  rw [← sum_toFinset _ (auctionPrices_nodup s lo hi a)]
  cases s with
  | buy =>
    have hset : (Book.auctionPrices .buy lo hi a).toFinset = Finset.Icc a hi := by
      ext x
      rw [mem_toFinset, mem_auctionPrices, Finset.mem_Icc]
    rw [hset]
    refine (h.sideQty_between (by omega) h4 (fun x hx _ => decide_eq_true hx) fun x hx hr => ?_).symm
    exact ⟨of_decide_eq_true hx, hs.bids x hr⟩
  | sell =>
    have hset : (Book.auctionPrices .sell lo hi a).toFinset = Finset.Icc lo a := by
      ext x
      rw [mem_toFinset, mem_auctionPrices, Finset.mem_Icc]
    rw [hset]
    refine (h.sideQty_between h3 (by omega) (fun x _ hx => decide_eq_true hx) fun x hx hr => ?_).symm
    exact ⟨hs.asks x hr, of_decide_eq_true hx⟩

/-- The order in slot `i` goes before that in slot `j`: it has the better price, or the same and came earlier. -/
def Book.GoesBefore (b : Book) (arrived : Nat → Nat) (s : Side) (i j : Nat) : Prop :=
  s.rank (b.order i).priceTicks < s.rank (b.order j).priceTicks ∨
    ((b.order i).priceTicks = (b.order j).priceTicks ∧ arrived i < arrived j)

theorem goesBefore_asymm (b : Book) (arrived : Nat → Nat) (s : Side) (i j : Nat) (h : b.GoesBefore arrived s i j) :
    ¬ b.GoesBefore arrived s j i := by
  rintro (h' | ⟨e', h'⟩) <;> rcases h with h | ⟨e, h⟩
  · omega
  · rw [e] at h'
    omega
  · rw [e'] at h
    omega
  · omega

theorem Gathered.lineUp_sorted (h : Gathered V arrived n b) (s : Side) (lo hi a : Int) :
    (b.lineUp V s (Book.auctionPrices s lo hi a)).Pairwise (b.GoesBefore arrived s) := by
  have hprice : ∀ {p i}, i ∈ b.core.queue V p → (b.order i).priceTicks = p := fun hi => h.wf.price hi
  refine pairwise_flatMap.mpr ⟨fun p _ => ?_, (auctionPrices_sorted s lo hi a).imp ?_⟩
  · refine ((h.arrival p).sublist filter_sublist).imp_of_mem ?_
    intro i j hi hj hlt
    exact .inr ⟨(hprice (mem_ofSide hi)).trans (hprice (mem_ofSide hj)).symm, hlt⟩
  · intro p q hpq i hi j hj
    refine .inl ?_
    rw [hprice (mem_ofSide hi), hprice (mem_ofSide hj)]
    exact hpq

theorem Wf.lineUp_pos (h : Wf V b) : ∀ i ∈ b.lineUp V s ps, 0 < b.left i := by
  intro i hi
  obtain ⟨p, -, hi, -⟩ := mem_lineUp hi
  exact h.left_pos hi

/-- The executions of side `s`, at the price `a`. -/
def Book.sideFills (V : Env) (b : Book) (s : Side) (lo hi a : Int) : List (Nat × Int) :=
  allot b.left (b.volume V a) (b.lineUp V s (Book.auctionPrices s lo hi a))

theorem executeAuction_filled (h : Gathered V arrived n b) (lo hi : Int) :
    ∃ b2, Filled V a b (b.sideFills V .buy lo hi a ++ b.sideFills V .sell lo hi a) b2 ∧
      b.executeAuction V lo hi a (b.volume V a) =
        b2.mapCore fun c => (c.refreshBestBidFrom V (V.LEVELS - 1)).refreshBestAskFrom V 0 := by
  have hvol := h.volume_nonneg a
  have hw : Wf V (b.monoNsNow V).2 :=
    h.wf.of_core rfl rfl
  obtain ⟨b1, hfold1, hfilled1⟩ := auctionLevels_filled .buy a (b.monoNsNow V).1 hw
    (auctionPrices_nodup .buy lo hi a) hvol
  obtain ⟨b2, hfold2, hfilled2⟩ := auctionLevels_filled .sell a (b.monoNsNow V).1 hfilled1.wf
    (auctionPrices_nodup .sell lo hi a) hvol
  have hbuy : Filled V a b (b.sideFills V .buy lo hi a) b1 :=
    ⟨hfilled1.wf, hfilled1.queue, hfilled1.body, hfilled1.prints, hfilled1.summed,
      fun hs => hfilled1.simple ⟨hs.partner, hs.pending, hs.bracket, hs.stops⟩, hfilled1.flight⟩
  have hpos : ∀ s, ∀ x ∈ b.sideFills V s lo hi a, 0 < x.2 := fun s x hx => (mem_allot h.wf.lineUp_pos hx).2.1
  -- The BUY executions leave the SELL orders alone.
  have hsell : ∀ p, ∀ i ∈ b.core.queue V p, (b.core.body i).side = .sell → taken (b.sideFills V .buy lo hi a) i = 0 := by
    intro p i _ hs
    refine taken_eq_zero fun q hq => ?_
    obtain ⟨r, -, -, hb⟩ := mem_lineUp (mem_allot h.wf.lineUp_pos hq).1
    rw [hs] at hb
    cases hb
  have hofSide : ∀ p, b1.ofSide .sell (b1.core.queue V p) = b.ofSide .sell (b.core.queue V p) := by
    intro p
    unfold Book.ofSide
    rw [hbuy.queue, filter_filter]
    refine filter_congr fun i hi => ?_
    rw [(hbuy.same i).2.1]
    by_cases hs : (b.core.body i).side = .sell
    · rw [hsell p i hi hs, decide_eq_true (show (0 : Int) < (b.core.body i).remainingQty from h.wf.left_pos hi), Bool.and_true]
    · rw [decide_eq_false hs, Bool.false_and]
  have hline : b1.lineUp V .sell (Book.auctionPrices .sell lo hi a) = b.lineUp V .sell (Book.auctionPrices .sell lo hi a) :=
    flatMap_congr fun p _ => hofSide p
  have hallot : allot b1.left (b.volume V a) (b.lineUp V .sell (Book.auctionPrices .sell lo hi a)) = b.sideFills V .sell lo hi a := by
    refine allot_congr fun i hi => ?_
    obtain ⟨p, -, hi, hs⟩ := mem_lineUp hi
    have hbody : b1.core.body i = b.core.body i := by rw [hbuy.body, if_pos (hsell p i hi hs)]
    exact congrArg Order.remainingQty hbody
  rw [hline, hallot] at hfold2 hfilled2
  refine ⟨b2, hbuy.trans hfilled2 (hpos .buy) (hpos .sell), ?_⟩
  unfold Book.executeAuction
  dsimp only
  rw [hfold1]
  rw [hfold2]

/-! ## The auction -/

/-- Without GTX orders there is nothing to sweep. -/
theorem sweepGtx_idle (hw : Wf V b) (hst : b.core.stopOrders = []) (ht : ∀ p, ∀ i ∈ b.core.queue V p, (b.core.body i).tif ≠ .gtx) :
    b.sweepGtx V = { b with asked := b.asked + 1 } := by
  have hnil : ((V.iter b.asked b.core.idIndex.entries).map (·.2) : List Nat).filter
      (fun i => (b.order i).tif = .gtx && (b.order i).isActive) = [] := by
    refine filter_eq_nil_iff.mpr fun i hi hg => ?_
    obtain ⟨k, hk⟩ := mem_entries hi
    rw [Bool.and_eq_true] at hg
    rcases (hw.found hk).2 with h | ⟨p, h⟩
    · rw [hst] at h
      cases h
    · exact ht p i h (of_decide_eq_true hg.1)
  unfold Book.sweepGtx Book.indexEntries
  have hsame : ∀ j, ({ b with asked := b.asked + 1 } : Book).order j = b.order j := fun _ => rfl
  simp only [hsame]
  rw [hnil]
  rfl

/-- The book after the executions `F`: the best prices are scanned for from the ends of the grid. -/
def Book.rescanned (V : Env) (b : Book) : Book :=
  { b.mapCore (fun c => (c.refreshBestBidFrom V (V.LEVELS - 1)).refreshBestAskFrom V 0) with asked := b.asked + 1 }

/-- What the auction does: it finds the clearing price, executes both sides and rescans; or it does nothing. -/
theorem Gathered.runAuction (h : Gathered V arrived n b) (hf : b.AuctionFits V) :
    (∃ res, res.executed = false ∧ res.matchedQty = 0 ∧ (∀ p, b.volume V p = 0) ∧ ∀ m, b.runAuction V (m + 1) = some (res, b)) ∨
    ∃ a b2, Clears V b a ∧ 0 < b.volume V a ∧ b.core.hasBid ∧ b.core.hasAsk ∧
      Filled V a b (b.sideFills V .buy (min b.core.bestBid b.core.bestAsk) (max b.core.bestBid b.core.bestAsk) a ++
        b.sideFills V .sell (min b.core.bestBid b.core.bestAsk) (max b.core.bestBid b.core.bestAsk) a) b2 ∧
      ∀ m, b.runAuction V (m + 1) =
        some (⟨a, b.volume V a, b.demand V a - b.volume V a, b.supply V a - b.volume V a, true⟩, b2.rescanned V) := by
  rcases h.indicative hf with ⟨hex, hvol⟩ | ⟨hb, ha, a, hc, hpos, hres⟩
  · left
    refine ⟨b.core.indicativeAuctionInfo V, hex, ?_, hvol, fun m => ?_⟩
    · unfold Core.indicativeAuctionInfo at hex ⊢
      dsimp only at hex ⊢
      split
      · rw [if_pos (by assumption)] at hex
        split
        · rfl
        · rw [if_neg (by assumption)] at hex
          cases hex
      · rfl
    · unfold Book.runAuction
      dsimp only
      rw [hex]
      rfl
  · right
    obtain ⟨b2, hfilled, hexec⟩ := executeAuction_filled h (min b.core.bestBid b.core.bestAsk) (max b.core.bestBid b.core.bestAsk)
    refine ⟨a, b2, hc, hpos, hb, ha, hfilled, fun m => ?_⟩
    have hsimple := hfilled.simple h.simple
    have hsame : SameSlots b2 (b2.mapCore fun c => (c.refreshBestBidFrom V (V.LEVELS - 1)).refreshBestAskFrom V 0) :=
      ⟨rfl, rfl, rfl, rfl, rfl, rfl, rfl, rfl, le_rfl⟩
    have hsweep : (b2.mapCore fun c => (c.refreshBestBidFrom V (V.LEVELS - 1)).refreshBestAskFrom V 0).sweepGtx V = b2.rescanned V := by
      refine sweepGtx_idle (hfilled.wf.aside hsame) hsimple.stops fun p i hi => ?_
      rw [hsame.queue] at hi
      rw [hsame.body, (hfilled.same i).2.2.2.1]
      rw [hfilled.queue] at hi
      rw [(h.untouched p i (mem_filter.mp hi).1).tif]
      decide
    unfold Book.runAuction
    rw [hres]
    dsimp only
    rw [if_pos rfl, hexec, hsweep, processOcoPending_idle (show (b2.rescanned V).oco.pendingCancel = [] from hsimple.pending),
      processBracketPending_idle (show (b2.rescanned V).brackets.pending = [] from hsimple.bracket.1)]

theorem Spanned.sideFills_sum (hs : Spanned V b lo hi) (h : Gathered V arrived n b) (h1 : lo ≤ a) (h2 : a ≤ hi) (s : Side) :
    ((b.sideFills V s lo hi a).map Prod.snd).sum = b.volume V a := by
  unfold Book.sideFills
  rw [allot_sum h.wf.lineUp_pos (h.volume_nonneg a), hs.lineUp_sum h h1 h2]
  cases s with
  | buy => exact min_eq_left (min_le_left ..)
  | sell => exact min_eq_left (min_le_right ..)

/-- Within the limit of an order of side `s` at `p`. -/
def Side.accepts (s : Side) (p a : Int) : Prop :=
  match s with
  | .buy => a ≤ p
  | .sell => p ≤ a

/-- The executions of an auction at the price `a`: what each order gets, who goes first, what is left. -/
structure Crossed (V : Env) (arrived : Nat → Nat) (b : Book) (a : Int) (F : List (Nat × Int)) (b' : Book) : Prop where
  /-- Each execution is published, and nothing else. -/
  prints : ∃ evs, b'.tape.events = b.tape.events ++ evs ∧ List.Forall₂ (BookEvent.Prints b a) evs F
  balanced : ∀ s, ((F.filter fun x => (b.order x.1).side = s).map Prod.snd).sum = b.volume V a
  once : (F.map Prod.fst).Nodup
  within : ∀ x ∈ F, ∃ p, x.1 ∈ b.core.queue V p ∧ 0 < x.2 ∧ x.2 ≤ (b.order x.1).remainingQty ∧ (b.order x.1).side.accepts p a
  priority : ∀ x ∈ F, ∀ p, ∀ j ∈ b.core.queue V p, (b.order j).side = (b.order x.1).side →
    b.GoesBefore arrived (b.order x.1).side j x.1 → (j, (b.order j).remainingQty) ∈ F
  /-- Who was served in full has left; the others keep their places, with the rest. -/
  queue : ∀ p, b'.core.queue V p = (b.core.queue V p).filter fun i => taken F i < (b.order i).remainingQty
  rest : ∀ p, ∀ i ∈ b'.core.queue V p, (b'.order i).remainingQty = (b.order i).remainingQty - taken F i ∧
    (b'.order i).id = (b.order i).id ∧ (b'.order i).side = (b.order i).side ∧ (b'.order i).priceTicks = (b.order i).priceTicks

theorem Spanned.crossed (hs : Spanned V b lo hi) (h : Gathered V arrived n b) (h1 : lo ≤ a) (h2 : a ≤ hi)
    (hfilled : Filled V a b (b.sideFills V .buy lo hi a ++ b.sideFills V .sell lo hi a) b') :
    Crossed V arrived b a (b.sideFills V .buy lo hi a ++ b.sideFills V .sell lo hi a) (b'.rescanned V) := by
  have hmem : ∀ {s} {x : Nat × Int}, x ∈ b.sideFills V s lo hi a → x.1 ∈ b.lineUp V s (Book.auctionPrices s lo hi a) ∧ 0 < x.2 ∧
      x.2 ≤ (b.order x.1).remainingQty := fun hx => mem_allot h.wf.lineUp_pos hx
  have hside : ∀ {s} {x : Nat × Int}, x ∈ b.sideFills V s lo hi a → (b.order x.1).side = s := by
    intro s x hx
    obtain ⟨p, -, -, hs⟩ := mem_lineUp (hmem hx).1
    exact hs
  have hnodup : ∀ s, ((b.sideFills V s lo hi a).map Prod.fst).Nodup := by
    intro s
    refine ((h.lineUp_sorted s lo hi a).imp ?_).sublist (allot_sublist ..)
    intro i j hij
    rintro rfl
    exact goesBefore_asymm _ _ _ _ _ hij hij
  have hfilter : ∀ s, (b.sideFills V .buy lo hi a ++ b.sideFills V .sell lo hi a).filter (fun x => (b.order x.1).side = s) =
      b.sideFills V s lo hi a := by
    intro s
    have hall : ∀ u, u = s → (b.sideFills V u lo hi a).filter (fun x => (b.order x.1).side = s) = b.sideFills V u lo hi a :=
      fun u e => filter_eq_self.mpr fun x hx => decide_eq_true ((hside hx).trans e)
    have hnone : ∀ u, u ≠ s → (b.sideFills V u lo hi a).filter (fun x => (b.order x.1).side = s) = [] :=
      fun u e => filter_eq_nil_iff.mpr fun x hx hd => e ((hside hx).symm.trans (of_decide_eq_true hd))
    rw [filter_append]
    cases s with
    | buy => rw [hall .buy rfl, hnone .sell (by decide), append_nil]
    | sell => rw [hnone .buy (by decide), hall .sell rfl, nil_append]
  -- An execution, of its own side.
  have hown : ∀ x ∈ b.sideFills V .buy lo hi a ++ b.sideFills V .sell lo hi a, x ∈ b.sideFills V (b.order x.1).side lo hi a := by
    intro x hx
    rw [← hfilter (b.order x.1).side]
    exact mem_filter.mpr ⟨hx, decide_eq_true rfl⟩
  have hback : ∀ {s} {x : Nat × Int}, x ∈ b.sideFills V s lo hi a → x ∈ b.sideFills V .buy lo hi a ++ b.sideFills V .sell lo hi a := by
    intro s x hx
    rw [← hfilter s] at hx
    exact (mem_filter.mp hx).1
  refine ⟨hfilled.prints, fun s => ?_, ?_, fun x hx => ?_, fun x hx p j hj hjs hbefore => ?_, hfilled.queue, fun p i _ => ?_⟩
  · rw [hfilter s]
    exact hs.sideFills_sum h h1 h2 s
  · rw [map_append]
    refine nodup_append.mpr ⟨hnodup .buy, hnodup .sell, ?_⟩
    rintro i hi j hj rfl
    obtain ⟨x, hx, rfl⟩ := mem_map.mp hi
    obtain ⟨y, hy, e⟩ := mem_map.mp hj
    have h1 := hside hx
    have h2 := hside hy
    rw [e, h1] at h2
    cases h2
  · obtain ⟨hline, hpos, hle⟩ := hmem (hown x hx)
    obtain ⟨p, hp, hq, hxs⟩ := mem_lineUp hline
    refine ⟨p, hq, hpos, hle, ?_⟩
    have hp := mem_auctionPrices.mp hp
    revert hp
    cases (b.order x.1).side with
    | buy => exact fun hp => hp.1
    | sell => exact fun hp => hp.2
  · have hx := hown x hx
    have hline := (hmem hx).1
    refine hback (allot_prior (goesBefore_asymm b arrived _) (h.lineUp_sorted _ lo hi a) ?_ hbefore h.wf.lineUp_pos hx)
    obtain ⟨r, hr, hxq, hxs⟩ := mem_lineUp hline
    refine mem_flatMap.mpr ⟨p, ?_, mem_filter.mpr ⟨hj, decide_eq_true hjs⟩⟩
    -- A better price than one in the range is in the range.
    have hrank : (b.order x.1).side.rank p ≤ (b.order x.1).side.rank r := by
      have e1 : (b.order j).priceTicks = p := h.wf.price hj
      have e2 : (b.order x.1).priceTicks = r := h.wf.price hxq
      rcases hbefore with hlt | ⟨e, -⟩
      · rw [e1, e2] at hlt
        exact Int.le_of_lt hlt
      · rw [← e1, e, e2]
    rw [mem_auctionPrices] at hr ⊢
    revert hr hrank hjs
    cases (b.order x.1).side with
    | buy =>
      intro hjs hr hrank
      have hle : -p ≤ -r := hrank
      have htop := hs.bids p ⟨j, hj, hjs⟩
      exact ⟨by omega, htop⟩
    | sell =>
      intro hjs hr hrank
      have hle : p ≤ r := hrank
      have hbot := hs.asks p ⟨j, hj, hjs⟩
      exact ⟨hbot, by omega⟩
  · have hsame := hfilled.same i
    exact ⟨hfilled.remaining i, hsame.1, hsame.2.1, hsame.2.2.1⟩

end

/-- The auction over a gathered book always returns. It executes the largest volume that any price of the grid allows, at the price
where the surplus is least, of those the lowest; the same on both sides, no order beyond its quantity or its limit, none before
one of a better price, or of the same price that came earlier, is served in full. If nothing can trade, nothing changes. -/
theorem auction_clears {V : Env} {arrived : Nat → Nat} {n : Nat} {b : Book} (h : Gathers V arrived n b) :
    ∃ res b', (∀ m, b.runAuction V (m + 1) = some (res, b')) ∧ (∀ p, inRange V p → b.volume V p ≤ res.matchedQty) ∧
      ((res.executed = false ∧ res.matchedQty = 0 ∧ b' = b) ∨
        (res.executed = true ∧ 0 < res.matchedQty ∧ res.matchedQty = b.volume V res.clearingPriceTicks ∧
          Clears V b res.clearingPriceTicks ∧ ∃ F, Crossed V arrived b res.clearingPriceTicks F b')) := by
  have hg := h.gathered
  rcases hg.runAuction h.fits with ⟨res, hex, hz, hvol, hrun⟩ | ⟨a, b₂, hc, hpos, hb, ha, hfilled, hrun⟩
  · refine ⟨res, b, hrun, fun p _ => ?_, Or.inl ⟨hex, hz, rfl⟩⟩
    rw [hvol p, hz]
  · have hs := hg.spanned hb ha
    have hin : min b.core.bestBid b.core.bestAsk ≤ a ∧ a ≤ max b.core.bestBid b.core.bestAsk := by
      by_contra hn
      rw [hs.volume_outside hg hn] at hpos
      omega
    exact ⟨_, _, hrun, hc.most, Or.inr ⟨rfl, hpos, rfl, hc, _, hs.crossed hg hin.1 hin.2 hfilled⟩⟩

/-- The calls `ops` with fuel `m` each, as long as they collect orders whose sums fit. -/
def Book.gather (V : Env) (m : Nat) (ops : List Op) : Option Book :=
  Book.runIf V m (fun b op b' => b.collects op && decide (b'.AuctionFits V)) ops (fresh V)

theorem Gathers.ofRun {V : Env} {m : Nat} {ops : List Op} {b : Book} (h : Book.gather V m ops = some b) :
    ∃ arrived n, Gathers V arrived n b := by
  have hrun : ∀ (ops : List Op) (b0 b : Book) (arrived : Nat → Nat) (n : Nat), Gathers V arrived n b0 →
      Book.runIf V m (fun b op b' => b.collects op && decide (b'.AuctionFits V)) ops b0 = some b →
      ∃ arrived n, Gathers V arrived n b := by
    intro ops
    induction ops with
    | nil =>
      intro b0 b arrived n hg hr
      cases hr
      exact ⟨arrived, n, hg⟩
    | cons op ops ih =>
      intro b0 b arrived n hg hr
      unfold Book.runIf at hr
      split at hr
      · cases hr
      · rename_i x b1 he
        split at hr
        · rename_i hc
          rw [Bool.and_eq_true, decide_eq_true_eq] at hc
          exact ih _ _ _ _ (.call hg hc.1 ⟨m, he⟩ hc.2) hr
        · cases hr
  exact hrun ops _ b _ _ .init h

/-- Two BUY orders against two SELL orders: 6 trade at 4, the later BUY order is left with 2 of 5. -/
def sampleCross : List Op :=
  [.setAuctionMode true,
   .submit { side := .buy, priceTicks := 5, qty := 3, clientId := 1 },
   .submit { side := .sell, priceTicks := 4, qty := 4, clientId := 1 },
   .submit { side := .buy, priceTicks := 5, qty := 5 },
   .submit { side := .sell, priceTicks := 3, qty := 2 },
   .setAuctionMode false]

theorem auction_clears_sample : ∃ b res b', Book.gather smallEnv 20 sampleCross = some b ∧ b.runAuction smallEnv 1 = some (res, b') ∧
    res.matchedQty = 6 ∧ res.clearingPriceTicks = 4 ∧ Clears smallEnv b 4 := by
  obtain ⟨b, hb⟩ : ∃ b, Book.gather smallEnv 20 sampleCross = some b := Option.isSome_iff_exists.mp (by decide +kernel)
  obtain ⟨arrived, n, hg⟩ := Gathers.ofRun hb
  obtain ⟨res, b', hrun, -, hcase⟩ := auction_clears hg
  have hval : ((Book.gather smallEnv 20 sampleCross).bind fun b => b.runAuction smallEnv 1).map
      (fun x => (x.1.executed, x.1.matchedQty, x.1.clearingPriceTicks)) = some (true, 6, 4) := by decide +kernel
  rw [hb, Option.bind_some, hrun 0, Option.map_some, Option.some.injEq, Prod.mk.injEq, Prod.mk.injEq] at hval
  rcases hcase with ⟨hex, -⟩ | ⟨-, -, -, hc, -⟩
  · rw [hex] at hval
    cases hval.1
  · exact ⟨b, res, b', hb, hrun 0, hval.2.1, hval.2.2, hval.2.2 ▸ hc⟩

end HftLab.OrderBook
