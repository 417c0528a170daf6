/-
  HftLab.OrderBook.Decompose — submit, the deferred work and the auctions are sequences of acts.

  For each function of the source: from a well-formed book, when it returns, the book it leaves is
  reached by acts of the kinds the function can perform, and the slots in flight are the same again
  (`Does`). `submit_does` is by induction on the fuel, since `submit` calls itself through the
  brackets it arms; `submit_cases` tells a rejected call from an order's course through the book.
-/

import HftLab.OrderBook.Loops

namespace HftLab.OrderBook

open Lib List

/-- Acts of the kinds `K` that leave no order in flight they did not find there. -/
structure Does (V : Env) (K : Kind → Prop) (b b' : Book) : Prop where
  acts : Acts V K b b'
  inFlight : b'.inFlight = b.inFlight

section

variable {V : Env} {K L : Kind → Prop} {b b' b'' : Book} {i n : Nat} {k : Kind} {r : Request} {N : Prop} {sub : Book.Submitter}
    {x : Nat × RejectReason} {res : AuctionResult}

theorem Does.refl (b : Book) : Does V K b b := ⟨Acts.refl b, rfl⟩

theorem Does.trans (h : Does V K b b') (h' : Does V K b' b'') : Does V K b b'' :=
  ⟨h.acts.trans h'.acts, h'.inFlight.trans h.inFlight⟩

theorem Does.one (h : Act V k b b') (hk : K k) (hx : b'.inFlight = b.inFlight) : Does V K b b' := ⟨Acts.one h hk, hx⟩

theorem Does.mono (hKL : ∀ k, K k → L k) (h : Does V K b b') : Does V L b b' := ⟨h.acts.mono hKL, h.inFlight⟩

theorem Does.wf (h : Does V K b b') (hw : Wf V b) : Wf V b' := h.acts.wf hw

/-- What comes after starts from a well-formed book again. -/
theorem Does.next (h : Does V K b b') (hw : Wf V b) (h' : Wf V b' → Does V K b' b'') : Does V K b b'' :=
  h.trans (h' (h.wf hw))

/-- A step that only changes what no act is about. -/
theorem Does.aux (hs : SameSlots b b') (hf : Frozen b b') (hb : b.NoBracket → b'.NoBracket) (hk : K .aux)
    (hn : b'.core.nextOrderId = b.core.nextOrderId) : Does V K b b' := Does.one (.aux hs hf hb hn) hk hs.inFlight

/-! ## Cancels and the deferred work -/

/-- What the deferred work of `submit` and `mass_cancel` can do. -/
def tidyKinds : Kind → Prop
  | .aux | .cancel | .unwait | .oco => True
  | _ => False

theorem Book.cancelPendingStop_inFlight : (b.cancelPendingStop i).2.inFlight = b.inFlight := by
  unfold Book.cancelPendingStop
  split <;> rfl

theorem cancelPendingStop_does (hw : Wf V b) : Does V tidyKinds b (b.cancelPendingStop i).2 := by
  rcases hw.cancelPendingStop with ⟨_, h⟩ | ⟨hi, _, _⟩
  · rw [h]
    exact Does.refl b
  · exact Does.one (.unwait i hi) trivial Book.cancelPendingStop_inFlight

/-- An order that is active only in a queue is cancelled, or left alone when it is not active. -/
theorem cancelInternal_does (ht : Tracked V b i) : Does V tidyKinds b (b.cancelInternal V i true) := by
  by_cases ha : (b.order i).isActive
  · obtain ⟨p, hp⟩ := ht ha
    exact Does.one (.cancel p i hp) trivial Book.cancelInternal_inFlight
  · rw [Book.cancelInternal_of_inactive (by simpa using ha)]
    exact Does.refl b

theorem cancelAny_does (hw : Wf V b) {id : Nat} (hf : b.core.find id = some i) : Does V tidyKinds b (b.cancelAny V i) := by
  unfold Book.cancelAny
  split
  · exact cancelPendingStop_does hw
  · exact cancelInternal_does (hw.tracked_of_found hf)

theorem ocoRound_does (hw : Wf V b) : Does V tidyKinds b (b.ocoRound V) := by
  unfold Book.ocoRound
  split
  · exact Does.refl b
  · rename_i pid _
    have h1 : Does V tidyKinds b { b with oco := { b.oco with pendingCancel := b.oco.pendingCancel.dropLast } } :=
      Does.one (.oco _ .pop) trivial rfl
    dsimp only
    split
    · exact h1
    · rename_i i hf
      exact h1.next hw fun hw1 => cancelAny_does hw1 hf

theorem ocoRounds_does (n : Nat) (hw : Wf V b) : Does V tidyKinds b (Book.ocoRounds V n b) := by
  induction n generalizing b with
  | zero => exact Does.refl b
  | succ n ih =>
    unfold Book.ocoRounds
    split
    · exact Does.refl b
    · exact (ocoRound_does hw).next hw ih

theorem processOcoPending_does (hw : Wf V b) : Does V tidyKinds b (b.processOcoPending V) := ocoRounds_does _ hw

theorem Does.tracked (h : Does V tidyKinds b b') (hw : Wf V b) (ht : Tracked V b i) : Tracked V b' i :=
  h.acts.tracked (fun hk => hk) hw ht

theorem cancelAll_does (l : List Nat) (hw : Wf V b) (ht : ∀ i ∈ l, Tracked V b i) :
    Does V tidyKinds b (l.foldl (fun b i => b.cancelInternal V i true) b) := by
  induction l generalizing b with
  | nil => exact Does.refl b
  | cons i l ih =>
    have h1 := cancelInternal_does (ht i mem_cons_self)
    exact h1.trans (ih (h1.wf hw) fun j hj => h1.tracked hw (ht j (mem_cons_of_mem _ hj)))

theorem cancelStops_does (l : List Nat) (n : Nat) (hw : Wf V b) :
    Does V tidyKinds b (l.foldl (fun ((n, b) : Nat × Book) i =>
      let (ok, b) := b.cancelPendingStop i; (if ok then n + 1 else n, b)) (n, b)).2 := by
  induction l generalizing b n with
  | nil => exact Does.refl b
  | cons i l ih =>
    exact (cancelPendingStop_does hw).next hw (ih _)

/-- The slots a traversal of the index meets hold live orders. -/
theorem mem_entries (hi : i ∈ ((V.iter n b.core.idIndex.entries).map (·.2) : List Nat)) : ∃ k, b.core.find k = some i := by
  obtain ⟨e, he, rfl⟩ := mem_map.mp hi
  have := (V.iter_perm n _).mem_iff.mp he
  exact ⟨e.1, AList.mem_lookup_iff.mpr this⟩

/-- A question to the environment. -/
theorem ask_does (hk : K .aux) : Does V K b { b with asked := b.asked + 1 } :=
  Does.aux (.of_core rfl rfl) ⟨rfl, rfl, rfl, rfl, rfl, rfl⟩ id hk rfl

theorem massCancel_does (cid : Nat) (hw : Wf V b) : Does V tidyKinds b (b.massCancel V cid).2 := by
  have h0 : Does V tidyKinds b { b with asked := b.asked + 1 } := ask_does trivial
  have h1 := h0.trans (cancelAll_does
    ((((V.iter b.asked b.core.idIndex.entries).map (·.2)).filter fun i => (b.order i).clientId = cid).filter
      fun i => (b.order i).isActive) (h0.wf hw) (by
        intro i hi
        obtain ⟨k, hk⟩ := mem_entries (mem_of_mem_filter (mem_of_mem_filter hi))
        exact (h0.wf hw).tracked_of_found hk))
  exact h1.next hw fun hw1 => (cancelStops_does _ _ hw1).next hw1 processOcoPending_does

theorem mmpRounds_does (n : Nat) (hw : Wf V b) : Does V tidyKinds b (Book.mmpRounds V n b) := by
  induction n generalizing b with
  | zero => exact Does.refl b
  | succ n ih =>
    unfold Book.mmpRounds
    split
    · exact Does.refl b
    · rename_i cid _
      have h0 : Does V tidyKinds b { b with mmpPendingTrips := b.mmpPendingTrips.dropLast } :=
        Does.aux (.of_core rfl rfl) ⟨rfl, rfl, rfl, rfl, rfl, rfl⟩ id trivial rfl
      exact h0.next hw fun hw0 => (massCancel_does cid hw0).next hw0 ih

theorem processMmpPending_does (hw : Wf V b) : Does V tidyKinds b (b.processMmpPending V) := mmpRounds_does _ hw

theorem linkOco_does (x y : Nat) (hk : K .oco) : Does V K b (b.linkOco x y).2 := by
  unfold Book.linkOco
  split
  · exact Does.refl b
  · rename_i h1
    split
    · exact Does.refl b
    · rename_i h2
      split
      · exact Does.refl b
      · rename_i h3
        simp only [not_or, Option.isNone_iff_eq_none, ← Option.isSome_iff_ne_none, Option.not_isSome_iff_eq_none] at h1 h2 h3
        exact Does.one (.oco _ (.link x y h1.2.2 h2.1 h2.2 h3.1 h3.2)) hk rfl

theorem unlinkOco_does (x : Nat) (hk : K .oco) : Does V K b (b.unlinkOco x) := by
  unfold Book.unlinkOco
  split
  · exact Does.refl b
  · rename_i y hy
    exact Does.one (.oco _ (.unlink x y hy)) hk rfl

theorem unlinkOco_core {x : Nat} : (b.unlinkOco x).core = b.core := by
  unfold Book.unlinkOco
  split <;> rfl

/-! ## Entry -/

theorem submitStop_cases (side : Side) (trigger limit qty : Int) (oid cid : Nat) :
    (b.submitStop V side trigger limit qty oid cid).2 = b ∨
      ∃ i f c, Waits oid i f c b (b.submitStop V side trigger limit qty oid cid).2 := by
  unfold Book.submitStop
  split
  · exact .inl rfl
  · split
    · exact .inl rfl
    · rename_i hq
      split
      · exact .inl rfl
      · dsimp only
        split
        · exact .inl rfl
        · rename_i x i c ha
          refine .inr ⟨i, _, c, ha, rfl, ?_, rfl, rfl, rfl, ⟨rfl, rfl, rfl, rfl, rfl, rfl⟩, fun h => h⟩
          exact ⟨rfl, rfl, rfl, by show 0 < qty; omega, rfl⟩

theorem submitStop_does (side : Side) (trigger limit qty : Int) (oid cid : Nat) (hk : K .wait) :
    Does V K b (b.submitStop V side trigger limit qty oid cid).2 := by
  rcases submitStop_cases side trigger limit qty oid cid with h | ⟨i, f, c, h⟩
  · rw [h]
    exact Does.refl b
  · exact Does.one (.wait oid i f c h) hk h.inFlight

theorem enterPeg_cases (side : Side) (offset qty : Int) (oid cid : Nat) (cap price marker : Int) (hq : 0 < qty) :
    (b.enterPeg V side offset qty oid cid cap price marker).2 = b ∨
      ∃ i f c, Pegs V oid i f c b (b.enterPeg V side offset qty oid cid cap price marker).2 := by
  unfold Book.enterPeg
  split
  · exact .inl rfl
  · rename_i hr
    dsimp only
    split
    · exact .inl rfl
    · rename_i x i c ha
      have hset : c.setOrder i (c.pool i) = c := by
        unfold Core.setOrder
        rw [Function.update_eq_self]
      obtain ⟨x, y, hbest⟩ := Core.raiseBest_eq
        { c.settle i (c.pool i) with pegOrders := c.pegOrders ++ [i] } price side
      refine .inr ⟨i, _, c, ha, rfl, ?_, by simpa using hr, ⟨x, y, ?_⟩, rfl, ⟨rfl, rfl, rfl, rfl, rfl, rfl⟩, fun h => h⟩
      · refine ⟨rfl, Int.le_refl _, hq, Int.le_of_lt hq, ?_⟩
        show 0 ≤ qty - 0 - qty
        omega
      · unfold Core.settle at hbest ⊢
        rw [hset] at hbest ⊢
        exact hbest

/-! ## submit -/

/-- What `submit` can do after the order was accepted; `N` is whether brackets may be armed. -/
def afterKinds (N : Prop) : Kind → Prop
  | .aux | .note | .exec | .cancel | .unwait | .oco => True
  | .accept | .wait | .finish => N
  | _ => False

/-- What `submit` can do. -/
def submitKinds (N : Prop) : Kind → Prop
  | .accept | .finish => True
  | k => afterKinds N k

theorem afterKinds_le (k : Kind) (h : afterKinds N k) : submitKinds N k := by
  cases k <;> first | exact h | trivial

/-- The book differs from `b` in the gates, and there not in the self-trade rules. -/
def Regated (b b' : Book) : Prop := ∃ g a, b' = { b with gates := g, asked := a } ∧
  g.stpPolicy = b.gates.stpPolicy ∧ g.clientToFirm = b.gates.clientToFirm

theorem Regated.refl (b : Book) : Regated b b := ⟨b.gates, b.asked, rfl, rfl, rfl⟩

theorem consumeRateToken_regated (cid : Nat) : Regated b (b.consumeRateToken V cid).2 := by
  unfold Book.consumeRateToken
  split
  · exact Regated.refl b
  · exact ⟨_, _, rfl, rfl, rfl⟩

theorem luldBreach_regated : Regated b b.luldBreach := by
  refine ⟨_, b.asked, rfl, ?_, ?_⟩
  · split <;> rfl
  · split <;> rfl

theorem Regated.trans {b'' : Book} (h : Regated b b') (h' : Regated b' b'') : Regated b b'' := by
  obtain ⟨g, a, rfl, h1, h2⟩ := h
  obtain ⟨g', a', rfl, h3, h4⟩ := h'
  exact ⟨g', a', rfl, h3.trans h1, h4.trans h2⟩

/-- What `limitReject` does to the book: it may take a token, and a breach of the bands is acted on. -/
theorem limitReject_cases (V : Env) (b : Book) (r : Request) : ∃ b1, (b1 = b ∨ b1 = (b.consumeRateToken V r.clientId).2) ∧
    ((b.limitReject V r).2 = b1 ∧ ((b.limitReject V r).1 = none → b1.previewReject V r = none ∧
        (b1.gates.mmpEnabled && (!b.gates.inInternalSubmit && decide (r.clientId ≠ 0)) &&
          (b1.gates.mmp r.clientId).any (·.tripped)) = false) ∨
      (b.limitReject V r).1 ≠ none ∧ (b.limitReject V r).2 = b1.luldBreach) := by
  have hx : (if (b.gates.rateLimitingEnabled && (!b.gates.inInternalSubmit && decide (r.clientId ≠ 0))) = true
      then b.consumeRateToken V r.clientId else (true, b)).2 = b ∨
      (if (b.gates.rateLimitingEnabled && (!b.gates.inInternalSubmit && decide (r.clientId ≠ 0))) = true
      then b.consumeRateToken V r.clientId else (true, b)).2 = (b.consumeRateToken V r.clientId).2 := by
    split
    · exact .inr rfl
    · exact .inl rfl
  unfold Book.limitReject
  dsimp only
  generalize (if (b.gates.rateLimitingEnabled && (!b.gates.inInternalSubmit && decide (r.clientId ≠ 0))) = true
      then b.consumeRateToken V r.clientId else (true, b)) = x at hx ⊢
  obtain ⟨token, b1⟩ := x
  refine ⟨b1, hx, ?_⟩
  split
  · exact .inl ⟨rfl, by simp⟩
  · split
    · exact .inl ⟨rfl, by simp⟩
    · rename_i hmmp
      split
      · exact .inr ⟨by simp, rfl⟩
      · exact .inl ⟨rfl, fun h => ⟨h, Bool.eq_false_iff.mpr hmmp⟩⟩

/-- An order is refused before the book is touched, or it is left to `limitReject`. -/
theorem admission_cases (V : Env) (b : Book) (r : Request) : ((b.admission V r).1 ≠ none ∧ (b.admission V r).2 = b) ∨
    b.admission V r = b.limitReject V r ∧ b.gates.halted = false ∧ 0 < r.qty ∧ (r.type ≠ .market → inRange V r.priceTicks) ∧
      (r.orderId ≠ 0 → b.core.find r.orderId = none) := by
  unfold Book.admission
  split
  · exact .inl ⟨by simp, rfl⟩
  · split
    · exact .inl ⟨by simp, rfl⟩
    · rename_i hhalt
      split
      · exact .inl ⟨by simp, rfl⟩
      · split
        · exact .inl ⟨by simp, rfl⟩
        · rename_i hr
          split
          · exact .inl ⟨by simp, rfl⟩
          · rename_i hdup
            refine .inr ⟨rfl, Bool.eq_false_iff.mpr hhalt, by omega, fun hm => ?_, fun h0 => ?_⟩
            · by_contra hn
              exact hr ⟨hn, hm⟩
            · by_contra hn
              exact hdup ⟨h0, Option.isSome_iff_ne_none.mpr hn⟩

theorem limitReject_regated : Regated b (b.limitReject V r).2 := by
  obtain ⟨b1, hb1, hcase⟩ := limitReject_cases V b r
  have hreg : Regated b b1 := by
    rcases hb1 with rfl | rfl
    · exact Regated.refl _
    · exact consumeRateToken_regated _
  rcases hcase with ⟨h, -⟩ | ⟨-, h⟩
  · rw [h]
    exact hreg
  · rw [h]
    exact hreg.trans luldBreach_regated

/-- The admission checks write to the gates only; an order they let pass has a positive quantity and
    no live namesake. -/
theorem admission_spec : Regated b (b.admission V r).2 ∧
    ((b.admission V r).1 = none → 0 < r.qty ∧ (r.orderId ≠ 0 → b.core.find r.orderId = none)) := by
  rcases admission_cases V b r with ⟨hne, hb⟩ | ⟨he, -, hq, -, hdup⟩
  · rw [hb]
    exact ⟨Regated.refl b, fun h => absurd h hne⟩
  · rw [he]
    exact ⟨limitReject_regated, fun _ => ⟨hq, hdup⟩⟩

/-- What comes in after the checks is an order under an id that no live one has. -/
theorem admitted_act {b1 : Book} (hp : (b.admission V r).1 = none) (ha : (b.admission V r).2.accept V r = some (i, b1)) :
    Act V .accept (b.admission V r).2 b1 := by
  obtain ⟨⟨g, a, he, -⟩, hspec⟩ := admission_spec
  obtain ⟨hq, hid⟩ := hspec hp
  have hcore : (b.admission V r).2.core = b.core := by rw [he]
  exact .accept r i hq (fun h0 => by rw [hcore]; exact hid h0) ha

/-- An order they let pass has a price on the grid, unless it is a MARKET order. -/
theorem admission_grid (h : (b.admission V r).1 = none) (hm : r.type ≠ .market) : inRange V r.priceTicks := by
  rcases admission_cases V b r with ⟨hne, -⟩ | ⟨-, -, -, hgrid, -⟩
  · exact absurd h hne
  · exact hgrid hm

/-- Only a LULD breach changes the trading mode: to an auction, and it refuses the order. -/
theorem limitReject_mode : (b.limitReject V r).2.gates.inAuctionMode = b.gates.inAuctionMode ∨
    ((b.limitReject V r).1 ≠ none ∧ (b.limitReject V r).2.gates.inAuctionMode) := by
  obtain ⟨b1, hb1, hcase⟩ := limitReject_cases V b r
  have hmode : b1.gates.inAuctionMode = b.gates.inAuctionMode := by
    rcases hb1 with rfl | rfl
    · rfl
    · unfold Book.consumeRateToken
      split <;> rfl
  rcases hcase with ⟨h, -⟩ | ⟨hne, h⟩
  · rw [h]
    exact .inl hmode
  · rw [h]
    unfold Book.luldBreach
    split
    · exact .inr ⟨hne, rfl⟩
    · exact .inl hmode

theorem admission_mode : (b.admission V r).2.gates.inAuctionMode = b.gates.inAuctionMode ∨
    ((b.admission V r).1 ≠ none ∧ (b.admission V r).2.gates.inAuctionMode) := by
  rcases admission_cases V b r with ⟨-, hb⟩ | ⟨he, -⟩
  · rw [hb]
    exact .inl rfl
  · rw [he]
    exact limitReject_mode

theorem admission_auction (h : b.gates.inAuctionMode) : (b.admission V r).2.gates.inAuctionMode := by
  rcases admission_mode with hsame | ⟨-, hon⟩
  · exact hsame.trans h
  · exact hon

/-- An order that is admitted has passed the checks against the other side of the book as it was. -/
theorem limitReject_preview (h : (b.limitReject V r).1 = none) : b.previewReject V r = none := by
  obtain ⟨b1, hb1, ⟨-, hpass⟩ | ⟨hne, -⟩⟩ := limitReject_cases V b r
  · rw [← (hpass h).1]
    rcases hb1 with rfl | rfl
    · rfl
    · unfold Book.consumeRateToken
      split <;> rfl
  · exact absurd h hne

theorem admission_preview (h : (b.admission V r).1 = none) : b.previewReject V r = none := by
  rcases admission_cases V b r with ⟨hne, -⟩ | ⟨he, -⟩
  · exact absurd h hne
  · rw [he] at h
    exact limitReject_preview h

/-- What the checks against the other side of the book let pass. -/
theorem previewReject_none (h : b.previewReject V r = none) :
    (r.type = .postOnly → b.core.wouldCross r.side r.priceTicks = false) ∧
    (r.type = .fok ∨ r.tif = .fok → b.core.fokFillable V r.side r.priceTicks r.qty) ∧
    (0 < r.minQty → r.type ≠ .postOnly → r.type ≠ .hidden → b.gates.inAuctionMode = false →
      r.minQty ≤ (b.core.walkTheBook V r.side r.qty r.priceTicks).fillableQty) := by
  unfold Book.previewReject at h
  split at h
  · cases h
  · rename_i hpost
    split at h
    · cases h
    · rename_i hfok
      split at h
      · cases h
      · rename_i hmin
        refine ⟨fun ht => ?_, fun ht => ?_, fun h1 h2 h3 h4 => ?_⟩
        · simpa using fun hc => hpost ⟨ht, hc⟩
        · simpa using fun hc => hfok ⟨ht, hc⟩
        · by_contra hlt
          exact hmin ⟨h1, h2, h3, h4, not_le.mp hlt⟩

theorem admission_does (hk : K .aux) : Does V K b (b.admission V r).2 := by
  obtain ⟨⟨g, a, h, h1, h2⟩, -⟩ := admission_spec
  rw [h]
  exact Does.aux (.of_core rfl rfl) ⟨rfl, rfl, rfl, rfl, h1, h2⟩ id hk rfl

theorem accept_inFlight (h : b.accept V r = some (i, b')) : b'.inFlight = i :: b.inFlight := by
  unfold Book.accept at h
  dsimp only at h
  split at h
  · cases h
  · cases h
    rfl

/-- An order with a level to join can be finished. -/
theorem finish_returns (hr : inRange V (b.order i).priceTicks) : ∃ b', b.finish V i = some b' := by
  unfold Book.finish
  dsimp only
  rw [if_pos hr]
  split
  · exact ⟨_, rfl⟩
  · split
    · exact ⟨_, rfl⟩
    · exact ⟨_, rfl⟩

/-- The order leaves flight in one of three ways. -/
theorem finish_acts (hi : i ∈ b.inFlight) (hk : K .finish) (h : b.finish V i = some b') :
    Acts V K b b' ∧ b'.inFlight = b.inFlight.erase i := by
  unfold Book.finish at h
  dsimp only at h
  split at h
  · rename_i hf
    cases h
    exact ⟨Acts.one (.finishFilled i hi hf) hk, rfl⟩
  · rename_i hf
    have hlt : (b.core.body i).filledQty < (b.core.body i).totalQty := by
      have : ¬ (b.core.body i).totalQty ≤ (b.core.body i).filledQty := hf
      omega
    split at h
    · cases h
      exact ⟨Acts.one (.finishIoc i hi hlt) hk, rfl⟩
    · split at h
      · rename_i hr
        cases h
        exact ⟨Acts.one (.rest i hi hlt hr) hk, Book.restOrder_inFlight⟩
      · cases h

/-- What a submitter may do: `N` says whether brackets may be armed on the way. -/
def SubDoes (V : Env) (N : Prop) (sub : Book.Submitter) : Prop :=
  ∀ r b x b', Wf V b → N ∨ b.NoBracket → sub r b = some (x, b') → Does V (submitKinds N) b b'

theorem setInternal_does (on : Bool) (hk : K .aux) : Does V K b (b.setInternal on) :=
  Does.aux (.of_core rfl rfl) ⟨rfl, rfl, rfl, rfl, rfl, rfl⟩ id hk rfl

theorem submitKinds_le (hbr : N) (k : Kind) (h : submitKinds N k) : afterKinds N k := by
  cases k <;> first | exact h | exact hbr

theorem armBracketExits_does (hsub : SubDoes V N sub) (hbr : N) (hw : Wf V b) {s : BracketSpec}
    (h : b.armBracketExits V sub s = some b') : Does V (afterKinds N) b b' := by
  unfold Book.armBracketExits at h
  split at h
  · cases h
  · rename_i tp _ b1 hs
    have h0 : Does V (afterKinds N) b (b.setInternal true) := setInternal_does true trivial
    have h1 := h0.next hw fun hw0 => (hsub _ _ _ _ hw0 (.inl hbr) hs).mono (submitKinds_le hbr)
    have h2 := h1.trans (submitStop_does s.exitSide s.slTriggerTicks 0 s.qty 0 s.clientId hbr)
    have h3 := h2.trans (setInternal_does false trivial)
    dsimp only at h
    split at h
    · cases h
      exact h3.trans (linkOco_does _ _ trivial)
    · cases h
      exact h3

theorem popBracket_does (hk : K .aux) :
    Does V K b { b with brackets := { b.brackets with pending := b.brackets.pending.dropLast } } := by
  refine Does.aux (.of_core rfl rfl) ⟨rfl, rfl, rfl, rfl, rfl, rfl⟩ ?_ hk rfl
  intro hb
  exact ⟨by show b.brackets.pending.dropLast = []; rw [hb.1]; rfl, hb.2⟩

theorem processBracketPending_does (hsub : SubDoes V N sub) (n : Nat) (hw : Wf V b) (hbr : N ∨ b.NoBracket)
    (h : Book.processBracketPending V sub n b = some b') : Does V (afterKinds N) b b' := by
  induction n generalizing b with
  | zero => cases h
  | succ n ih =>
    unfold Book.processBracketPending at h
    split at h
    · cases h
      exact Does.refl _
    · rename_i s hlast
      have hbr' : N := by
        rcases hbr with hbr | hb
        · exact hbr
        · rw [hb.1] at hlast
          cases hlast
      split at h
      · cases h
      · rename_i b1 harm
        have h0 : Does V (afterKinds N) b _ := popBracket_does trivial
        have h1 := h0.next hw fun hw0 => armBracketExits_does hsub hbr' hw0 harm
        exact h1.next hw fun hw1 => ih hw1 (.inl hbr') h

theorem afterKinds_of_match (k : Kind) (h : matchKinds k) : afterKinds N k := by
  cases k <;> first | exact h | trivial

theorem afterKinds_of_tidy (k : Kind) (h : tidyKinds k) : afterKinds N k := by
  cases k <;> first | exact h | trivial

theorem not_bracket_after : ¬ afterKinds N .bracket := fun h => h

theorem not_bracket_submit : ¬ submitKinds N .bracket := fun h => h

theorem matchAgainst_does (hw : Wf V b) (hi : i ∈ b.inFlight) (h : b.matchAgainst V n i = some b') : Does V matchKinds b b' := by
  have h0 : Does V matchKinds b (b.monoNsNow V).2 := ask_does trivial
  have ht : Taking V (b.monoNsNow V).2 i ((b.monoNsNow V).2.order i).remainingQty := ⟨h0.wf hw, hi, Int.le_refl _⟩
  obtain ⟨ha, hx⟩ := priceLoop_acts ht h
  exact h0.trans ⟨ha, hx⟩

theorem matchAndProcess_does (hsub : SubDoes V N sub) (hw : Wf V b) (hi : i ∈ b.inFlight) (hbr : N ∨ b.NoBracket)
    (h : b.matchAndProcess V sub n i = some b') : Does V (afterKinds N) b b' := by
  unfold Book.matchAndProcess at h
  split at h
  · cases h
  · rename_i b1 hm
    split at h
    · cases h
    · rename_i b2 hp
      cases h
      have h1 := (matchAgainst_does hw hi hm).mono (afterKinds_of_match (N := N))
      have h2 := h1.next hw fun hw1 => (processOcoPending_does hw1).mono (afterKinds_of_tidy (N := N))
      have hbr2 : N ∨ (b1.processOcoPending V).NoBracket := by
        rcases hbr with hbr | hb
        · exact .inl hbr
        · exact .inr (h2.acts.noBracket not_bracket_after hb)
      have h3 := h2.next hw fun hw2 => processBracketPending_does hsub n hw2 hbr2 hp
      exact h3.next hw fun hw3 => (processMmpPending_does hw3).mono (afterKinds_of_tidy (N := N))

/-- The course of an accepted order: it enters flight, is matched, and leaves flight. -/
structure Course (V : Env) (N : Prop) (r : Request) (b b' : Book) (i : Nat) (b1 b2 : Book) : Prop where
  passed : (b.admission V r).1 = none
  accepted : (b.admission V r).2.accept V r = some (i, b1)
  matched : Does V (afterKinds N) b1 b2
  finished : b2.finish V i = some b'

/-- `submit` rejects, or runs an order's course. -/
theorem submitWith_cases (hsub : SubDoes V N sub) (hw : Wf V b) (hbr : N ∨ b.NoBracket)
    (h : Book.submitWith V sub n r b = some (x, b')) :
    (∃ reason, x = (0, reason) ∧ b' = (b.admission V r).2.reject r reason ∧
      ((b.admission V r).1 = some reason ∨
        (b.admission V r).1 = none ∧ (b.admission V r).2.accept V r = none ∧ reason = .poolExhausted)) ∨
    ∃ i b1 b2, x = ((b1.order i).id, .none) ∧ Course V N r b b' i b1 b2 ∧
      ((if b1.matchesOnEntry r then b1.matchAndProcess V sub n i else some b1) = some b2) := by
  unfold Book.submitWith at h
  have hd : Does V (submitKinds N) b (b.admission V r).2 := admission_does trivial
  have hspec := (admission_spec (V := V) (b := b) (r := r)).2
  split at h
  · rename_i reason b0 ha
    rw [ha]
    cases h
    exact .inl ⟨reason, rfl, rfl, .inl rfl⟩
  · rename_i b0 ha
    rw [ha] at hd hspec ⊢
    split at h
    · rename_i hacc
      cases h
      exact .inl ⟨.poolExhausted, rfl, rfl, .inr ⟨rfl, hacc, rfl⟩⟩
    · rename_i i b1 hacc
      split at h
      · cases h
      · rename_i b2 hmatch
        split at h
        · cases h
        · rename_i b3 hfin
          cases h
          obtain ⟨hq, hid⟩ := hspec rfl
          have hw0 : Wf V b0 := hd.wf hw
          have hc0 : b0.core = b.core := by
            obtain ⟨g, a, he, -⟩ := (admission_spec).1
            rw [ha] at he
            rw [show b0 = _ from he]
          have hbr0 : N ∨ b0.NoBracket := by
            rcases hbr with hbr | hb
            · exact .inl hbr
            · exact .inr (hd.acts.noBracket not_bracket_submit hb)
          have hact : Act V .accept b0 b1 := .accept r i hq (fun h0 => by rw [hc0]; exact hid h0) hacc
          have hw1 := hact.wf hw0
          have hi : i ∈ b1.inFlight := by
            rw [accept_inFlight hacc]
            exact mem_cons_self
          have hbr1 : N ∨ b1.NoBracket := hbr0.imp id (hact.noBracket (by simp))
          refine .inr ⟨i, b1, b2, rfl, ⟨by rw [ha], by rw [ha]; exact hacc, ?_, hfin⟩, hmatch⟩
          split at hmatch
          · exact matchAndProcess_does hsub hw1 hi hbr1 hmatch
          · cases hmatch
            exact Does.refl b1

theorem reject_does (reason : RejectReason) (hk : K .aux) : Does V K b (b.reject r reason) :=
  Does.aux (.of_core rfl rfl) ⟨rfl, rfl, rfl, rfl, rfl, rfl⟩ id hk rfl

/-- The acts of an accepted order's course. -/
theorem Course.does {b1 b2 : Book} (h : Course V N r b b' i b1 b2) : Does V (submitKinds N) b b' := by
  have hd : Does V (submitKinds N) b (b.admission V r).2 := admission_does trivial
  have hx1 := accept_inFlight h.accepted
  have ha1 : Acts V (submitKinds N) b b1 := hd.acts.trans (Acts.one (admitted_act h.passed h.accepted) trivial)
  have ha2 := ha1.trans (h.matched.mono afterKinds_le).acts
  have hx2 : b2.inFlight = i :: b.inFlight := by
    rw [h.matched.inFlight, hx1, hd.inFlight]
  obtain ⟨ha3, hx3⟩ := finish_acts (K := submitKinds N) (by rw [hx2]; exact mem_cons_self) trivial
    h.finished
  refine ⟨ha2.trans ha3, ?_⟩
  rw [hx3, hx2, erase_cons_head]

theorem submit_does (n : Nat) : SubDoes V N (Book.submit V n) := by
  induction n with
  | zero => intro r b x b' _ _ h; cases h
  | succ n ih =>
    intro r b x b' hw hbr h
    rcases submitWith_cases ih hw hbr h with ⟨reason, -, rfl, -⟩ | ⟨i, b1, b2, -, hc, -⟩
    · exact (admission_does trivial).trans (reject_does reason trivial)
    · exact hc.does

/-- `submit` rejects, or runs an order's course. -/
theorem submit_cases (hw : Wf V b) (hbr : N ∨ b.NoBracket) (h : Book.submit V n r b = some (x, b')) :
    (∃ reason, x = (0, reason) ∧ b' = (b.admission V r).2.reject r reason ∧
      ((b.admission V r).1 = some reason ∨
        (b.admission V r).1 = none ∧ (b.admission V r).2.accept V r = none ∧ reason = .poolExhausted)) ∨
    ∃ i b1 b2 n', x = ((b1.order i).id, .none) ∧ Course V N r b b' i b1 b2 ∧
      ((if b1.matchesOnEntry r then b1.matchAndProcess V (Book.submit V n') n' i else some b1) = some b2) := by
  cases n with
  | zero => cases h
  | succ n =>
    rcases submitWith_cases (submit_does n) hw hbr h with h | ⟨i, b1, b2, h1, h2, h3⟩
    · exact .inl h
    · exact .inr ⟨i, b1, b2, n, h1, h2, h3⟩

/-! ## Auctions -/

/-- What the calls that know nothing of stops and pegs can do; `N` is whether there are brackets. -/
def plainKinds (N : Prop) : Kind → Prop
  | .peg | .reprice | .release | .reduceStop | .clear => False
  | .wait | .bracket => N
  | _ => True

/-- The same without the writes to the fields that no place constrains. -/
def calmKinds (N : Prop) : Kind → Prop
  | .touch => False
  | k => plainKinds N k

theorem plainKinds_of_calm (k : Kind) (h : calmKinds N k) : plainKinds N k := by
  cases k <;> first | exact h | trivial

theorem calmKinds_of_submit (k : Kind) (h : submitKinds N k) : calmKinds N k := by
  cases k <;> first | exact h | trivial

theorem calmKinds_of_after (k : Kind) (h : afterKinds N k) : calmKinds N k := calmKinds_of_submit k (afterKinds_le k h)

theorem calmKinds_of_tidy (k : Kind) (h : tidyKinds k) : calmKinds N k := calmKinds_of_after k (afterKinds_of_tidy k h)

/-- What auctions and expiry do. -/
def dealKinds (N : Prop) : Kind → Prop
  | .auction | .expire => True
  | k => afterKinds N k

theorem dealKinds_of_after (k : Kind) (h : afterKinds N k) : dealKinds N k := by
  cases k <;> first | exact h | trivial

theorem dealKinds_of_tidy (k : Kind) (h : tidyKinds k) : dealKinds N k := dealKinds_of_after k (afterKinds_of_tidy k h)

theorem calmKinds_of_deal (k : Kind) (h : dealKinds N k) : calmKinds N k := by
  cases k <;> first | exact h | trivial

/-- The walk over a queue as it was: each order is still there when it is its turn. -/
theorem auctionFold_does (hk : K .auction) {side : Side} {p clearing : Int} {ts : Nat} (l : List Nat) (rem : Int) (hw : Wf V b)
    (hn : l.Nodup) (hl : ∀ i ∈ l, i ∈ b.core.queue V p) :
    Does V K b (l.foldl (Book.auctionVisit side p clearing ts) (rem, b)).2 := by
  induction l generalizing b rem with
  | nil => exact Does.refl b
  | cons i l ih =>
    obtain ⟨hil, hn⟩ := nodup_cons.mp hn
    have hi := hl i mem_cons_self
    rw [foldl_cons]
    unfold Book.auctionVisit
    dsimp only
    split
    · rename_i hc
      have hlt := (hw.resting hi).left
      have hpos : 0 < min (b.order i).remainingQty rem := by
        have : (b.order i).remainingQty = (b.core.body i).totalQty - (b.core.body i).filledQty := rfl
        omega
      have hle : min (b.order i).remainingQty rem ≤ (b.core.body i).totalQty - (b.core.body i).filledQty :=
        Int.min_le_left _ _
      have h1 : Does V K b (b.auctionTake p clearing i (min (b.order i).remainingQty rem) ts) :=
        Does.one (.auction p clearing i _ ts hi hpos hle) hk (b.auctionTake_inFlight ..)
      refine h1.next hw fun hw1 => ih _ hw1 hn ?_
      intro j hj
      refine ((hw.auctionTake hi (Int.le_of_lt hpos) hle).moves.queue j ?_ p).mpr (hl j (mem_cons_of_mem _ hj))
      rw [mem_singleton]
      rintro rfl
      exact hil hj
    · exact ih _ hw hn fun j hj => hl j (mem_cons_of_mem _ hj)

theorem auctionLevels_does (hk : K .auction) (side : Side) (clearing : Int) (ts : Nat) (ps : List Int) (rem : Int) (hw : Wf V b) :
    Does V K b (ps.foldl (Book.auctionLevel V side clearing ts) (rem, b)).2 := by
  induction ps generalizing b rem with
  | nil => exact Does.refl b
  | cons p ps ih =>
    rw [foldl_cons]
    have h1 : Does V K b (Book.auctionLevel V side clearing ts (rem, b) p).2 := by
      unfold Book.auctionLevel
      split
      · exact auctionFold_does hk _ _ hw (hw.links.level p).nodup fun _ hi => hi
      · exact Does.refl b
    exact h1.next hw fun hw1 => ih _ hw1

theorem executeAuction_does (hk : K .auction) (ha : K .aux) (lo hi clearing matched : Int) (hw : Wf V b) :
    Does V K b (b.executeAuction V lo hi clearing matched) := by
  have h0 : Does V K b (b.monoNsNow V).2 := ask_does ha
  have h1 := h0.next hw fun hw0 => auctionLevels_does hk .buy clearing (b.monoNsNow V).1
    (Book.auctionPrices .buy lo hi clearing) matched hw0
  have h2 := h1.next hw fun hw1 => auctionLevels_does hk .sell clearing (b.monoNsNow V).1
    (Book.auctionPrices .sell lo hi clearing) matched hw1
  exact h2.trans (Does.one (best_act _ _) ha rfl)

theorem sweepGtx_does (hw : Wf V b) : Does V tidyKinds b (b.sweepGtx V) := by
  have h0 : Does V tidyKinds b { b with asked := b.asked + 1 } := ask_does trivial
  refine h0.next hw fun hw0 => ?_
  refine cancelAll_does _ hw0 ?_
  intro i hi
  obtain ⟨k, hk⟩ := mem_entries (mem_of_mem_filter hi)
  exact hw0.tracked_of_found hk

theorem Does.noBracket (h : Does V (calmKinds N) b b') (hbr : N ∨ b.NoBracket) : N ∨ b'.NoBracket := by
  by_cases hb : N
  · exact .inl hb
  · exact .inr (h.acts.noBracket hb (hbr.resolve_left hb))

theorem runAuction_does (hw : Wf V b) (hbr : N ∨ b.NoBracket) (h : b.runAuction V n = some (res, b')) :
    Does V (dealKinds N) b b' := by
  unfold Book.runAuction at h
  dsimp only at h
  split at h
  · split at h
    · cases h
    · rename_i b1 hp
      cases h
      have h1 := executeAuction_does (K := dealKinds N) trivial trivial (min b.core.bestBid b.core.bestAsk) (max b.core.bestBid b.core.bestAsk)
        (b.core.indicativeAuctionInfo V).clearingPriceTicks (b.core.indicativeAuctionInfo V).matchedQty hw
      have h2 := h1.next hw fun hw1 => (sweepGtx_does hw1).mono (dealKinds_of_tidy (N := N))
      have h3 := h2.next hw fun hw2 => (processOcoPending_does hw2).mono (dealKinds_of_tidy (N := N))
      exact h3.next hw fun hw3 =>
        (processBracketPending_does (submit_does n) n hw3 ((h3.mono calmKinds_of_deal).noBracket hbr) hp).mono dealKinds_of_after
  · cases h
    exact Does.refl _

/-! ## On-close orders -/

theorem inject_does (hsub : SubDoes V N sub) (rs : List Request) {ids : List Nat} (hw : Wf V b) (hbr : N ∨ b.NoBracket)
    (h : Book.inject sub rs b = some (ids, b')) : Does V (calmKinds N) b b' := by
  induction rs generalizing b ids with
  | nil =>
    cases h
    exact Does.refl _
  | cons r rs ih =>
    unfold Book.inject at h
    split at h
    · cases h
    · rename_i id _ b1 hs
      split at h
      · cases h
      · rename_i ids' b2 hrest
        cases h
        have h1 := (hsub _ _ _ _ hw hbr hs).mono (calmKinds_of_submit (N := N))
        exact h1.next hw fun hw1 => ih hw1 (h1.noBracket hbr) hrest

/-- One id of `cancelInjected`: the order found under it is cancelled and counted. -/
def Book.cancelFound (V : Env) (s : Nat × Book) (id : Nat) : Nat × Book :=
  match s.2.core.find id with
  | none => s
  | some i => (s.1 + 1, s.2.cancelInternal V i true)

theorem cancelInjected_eq (b : Book) (ids : List Nat) : b.cancelInjected V ids = ids.foldl (Book.cancelFound V) (0, b) := rfl

/-- What holds of the book and is kept by the cancel of an order found holds of the book swept. -/
theorem cancelInjected_keeps {I : Book → Prop} (hI : ∀ b id i, I b → b.core.find id = some i → I (b.cancelInternal V i true))
    (ids : List Nat) (hb : I b) : I (b.cancelInjected V ids).2 := by
  have key : ∀ s : Nat × Book, I s.2 → I (ids.foldl (Book.cancelFound V) s).2 := by
    induction ids with
    | nil => exact fun _ hs => hs
    | cons id ids ih =>
      intro s hs
      rw [foldl_cons]
      apply ih
      unfold Book.cancelFound
      split
      · exact hs
      · rename_i i hf
        exact hI s.2 id i hs hf
  exact key (0, b) hb

theorem cancelInjected_does (ids : List Nat) (hw : Wf V b) : Does V tidyKinds b (b.cancelInjected V ids).2 := by
  refine (cancelInjected_keeps (I := fun c => Wf V c ∧ Does V tidyKinds b c) (fun c id i hc hf => ?_) ids ⟨hw, Does.refl b⟩).2
  have hcancel := cancelInternal_does (hc.1.tracked_of_found hf)
  exact ⟨hcancel.wf hc.1, hc.2.trans hcancel⟩

theorem aux_does (hs : SameSlots b b') (hf : Frozen b b') (hb : b'.brackets = b.brackets) (hk : K .aux)
    (hn : b'.core.nextOrderId = b.core.nextOrderId) : Does V K b b' := Does.aux hs hf (fun h => h.congr hb) hk hn

theorem cancelMocUnfilled_does (ids : List Nat) (hw : Wf V b) : Does V tidyKinds b (b.cancelMocUnfilled V ids) :=
  (cancelInjected_does ids hw).trans
    (aux_does (.of_core rfl rfl) ⟨rfl, rfl, rfl, rfl, rfl, rfl⟩ rfl trivial rfl)

theorem cancelLocUnfilled_does (ids : List Nat) (hw : Wf V b) : Does V tidyKinds b (b.cancelLocUnfilled V ids) :=
  (cancelInjected_does ids hw).trans
    (aux_does (.of_core rfl rfl) ⟨rfl, rfl, rfl, rfl, rfl, rfl⟩ rfl trivial rfl)

theorem runClosingAuction_does (hw : Wf V b) (hbr : N ∨ b.NoBracket) (h : b.runClosingAuction V n = some (res, b')) :
    Does V (calmKinds N) b b' := by
  have h0 : Does V (calmKinds N) b ((b.setAuction true).setInternal true) :=
    aux_does (.of_core rfl rfl) ⟨rfl, rfl, rfl, rfl, rfl, rfl⟩ rfl trivial rfl
  unfold Book.runClosingAuction at h
  dsimp only at h
  split at h
  · cases h
  · rename_i locIds b1 hloc
    have h1 := h0.next hw fun hw0 => inject_does (submit_does n) _ hw0 (h0.noBracket hbr) hloc
    have h2 : Does V (calmKinds N) b { b1 with closing := { b1.closing with locQueue := [] } } :=
      h1.trans (aux_does (.of_core rfl rfl) ⟨rfl, rfl, rfl, rfl, rfl, rfl⟩ rfl trivial rfl)
    split at h
    · cases h
      exact h2.trans (aux_does (.of_core rfl rfl) ⟨rfl, rfl, rfl, rfl, rfl, rfl⟩ rfl trivial rfl)
    · split at h
      · cases h
      · rename_i mocIds b3 hmoc
        have h3 := h2.next hw fun hw2 => inject_does (submit_does n) _ hw2 (h2.noBracket hbr) hmoc
        have h4 : Does V (calmKinds N) b
            (({ b3 with closing := { b3.closing with mocQueue := [] } }.setAuction false).setInternal false) :=
          h3.trans (aux_does (.of_core rfl rfl) ⟨rfl, rfl, rfl, rfl, rfl, rfl⟩ rfl trivial rfl)
        split at h
        · cases h
        · rename_i res' b5 hrun
          cases h
          have h5 := h4.next hw fun hw4 => (runAuction_does hw4 (h4.noBracket hbr) hrun).mono calmKinds_of_deal
          have h6 := h5.next hw fun hw5 => (cancelMocUnfilled_does mocIds hw5).mono (calmKinds_of_tidy (N := N))
          have h7 := h6.next hw fun hw6 => (cancelLocUnfilled_does locIds hw6).mono (calmKinds_of_tidy (N := N))
          exact h7.next hw fun hw7 => (processOcoPending_does hw7).mono calmKinds_of_tidy

end

end HftLab.OrderBook
