/-
  HftLab.OrderBook.Continuous — continuous trading with no feature switched on.

  `Book.Continuous`: the market is open, no auction, no halt, no bands, limits or protection, no OCO
  pair, no bracket and no stop. Submitting, cancelling and modifying keep it so, and are simple there:
  - `submit_eq`: the checks of `screen`, then accept, match and finish;
  - `cancel_eq`, `modify_eq`: nothing is deferred, relinked or armed.
-/

import HftLab.OrderBook.Reachable

namespace HftLab.OrderBook

open Lib

/-- No gate but those of `screen` can refuse an order. -/
structure Gates.Open (g : Gates) : Prop where
  phase : g.sessionPhase = .continuous
  halted : g.halted = false
  auction : g.inAuctionMode = false
  rate : g.rateLimitingEnabled = false
  mmp : g.mmpEnabled = false
  luld : g.luldEnabled = false

structure Book.Continuous (b : Book) : Prop where
  gates : b.gates.Open
  partner : ∀ k, b.oco.partner k = none
  pending : b.oco.pendingCancel = []
  bracket : b.NoBracket
  trips : b.mmpPendingTrips = []
  stops : b.core.stopOrders = []

/-- The checks of `submit` that are left. -/
def Book.screen (V : Env) (b : Book) (r : Request) : Option RejectReason :=
  if r.qty ≤ 0 then some .qtyZeroOrNegative
  else if ¬ inRange V r.priceTicks ∧ r.type ≠ .market then some .priceOutOfRange
  else if r.orderId ≠ 0 ∧ (b.core.find r.orderId).isSome then some .duplicateId
  else b.previewReject V r

/-- Matching of the accepted order in slot `t`, if its type matches on entry. -/
def Book.matchEntry (V : Env) (n : Nat) (r : Request) (t : Nat) (b : Book) : Option Book :=
  if r.type ≠ .postOnly ∧ r.type ≠ .hidden then b.matchAgainst V n t else some b

section

variable {V : Env} {b b' : Book} {p q : Int} {t ts i : Nat} {r : Request}
    {n : Nat} {sub : Book.Submitter} {x : Nat × RejectReason} {b₁ b₂ : Book}

/-! ## What keeps a book continuous -/

theorem Oco.complete_none {o : Oco} {id : Nat} (h : o.partner id = none) : o.complete id = o := by
  unfold Oco.complete
  rw [h]

/-- Only the fields of the mode matter. -/
theorem Book.Continuous.congr (h : b.Continuous) (hg : b'.gates.Open) (ho : b'.oco = b.oco) (hb : b.NoBracket → b'.NoBracket)
    (hm : b'.mmpPendingTrips = b.mmpPendingTrips) (hs : b'.core.stopOrders = b.core.stopOrders) : b'.Continuous where
  gates := hg
  partner := by
    rw [ho]
    exact h.partner
  pending := by
    rw [ho]
    exact h.pending
  bracket := hb h.bracket
  trips := hm.trans h.trips
  stops := hs.trans h.stops

theorem mmpCount_none (h : b.gates.mmpEnabled = false) (cid : Nat) : b.mmpCount V cid = none := by
  unfold Book.mmpCount
  rw [h]
  rfl

theorem mmpOnMakerFill_off (h : b.gates.mmpEnabled = false) (cid : Nat) : b.mmpOnMakerFill V cid = b := by
  unfold Book.mmpOnMakerFill
  rw [mmpCount_none h]
  rfl

theorem fillMaker_open (h : b.gates.mmpEnabled = false) (p q : Int) (t ts i : Nat) : (b.fillMaker V p t i q ts).gates = b.gates ∧
    (b.fillMaker V p t i q ts).mmpPendingTrips = b.mmpPendingTrips := by
  unfold Book.fillMaker
  dsimp only
  rw [mmpOnMakerFill_off]
  · exact ⟨rfl, rfl⟩
  · exact h

theorem settleMaker_stops : (b.settleMaker p t i q).core.stopOrders = b.core.stopOrders := by
  unfold Book.settleMaker
  dsimp only
  split
  · exact (Core.refresh_rest _).2.1
  · split <;> rfl

theorem settleMaker_oco (h : ∀ k, b.oco.partner k = none) : (b.settleMaker p t i q).oco = b.oco := by
  unfold Book.settleMaker
  dsimp only
  split
  · rfl
  · split
    · exact Oco.complete_none (h _)
    · rfl

theorem settleMaker_open (h : b.gates.Open) : (b.settleMaker p t i q).gates.Open ∧
    (b.settleMaker p t i q).mmpPendingTrips = b.mmpPendingTrips := by
  unfold Book.settleMaker
  dsimp only
  split
  · exact ⟨⟨h.phase, h.halted, h.auction, h.rate, h.mmp, h.luld⟩, rfl⟩
  · split
    · exact ⟨h, rfl⟩
    · exact ⟨h, rfl⟩

theorem executed_continuous (h : b.Continuous) : (b.executed V p t ts i q).Continuous := by
  obtain ⟨hg, hm⟩ := fillMaker_open h.gates.mmp p q t ts i
  have hs := settleMaker_open (p := p) (t := t) (i := i) (q := q) (hg ▸ h.gates)
  refine h.congr hs.1 (settleMaker_oco h.partner) (fun hb => hb.congr (executed_brackets hb)) (hs.2.trans hm) ?_
  exact settleMaker_stops

theorem note_continuous (h : b.Continuous) (e : Report) : (b.note e).Continuous :=
  h.congr h.gates rfl id rfl rfl

theorem cancelInternal_continuous (h : b.Continuous) (e : Bool) : (b.cancelInternal V i e).Continuous := by
  by_cases ha : (b.order i).isActive
  · have hst : (b.cancelInternal V i e).core.stopOrders = b.core.stopOrders := by
      rw [Book.cancelInternal_core ha]
      exact (Core.leave_rest _).2.1
    have hrest : (b.cancelInternal V i e).gates = b.gates ∧ (b.cancelInternal V i e).oco = b.oco.complete (b.order i).id ∧
        (b.cancelInternal V i e).mmpPendingTrips = b.mmpPendingTrips := by
      unfold Book.cancelInternal
      dsimp only
      rw [ha]
      cases e <;> exact ⟨rfl, rfl, rfl⟩
    refine h.congr (hrest.1 ▸ h.gates) (hrest.2.1.trans (Oco.complete_none (h.partner _))) ?_ hrest.2.2 hst
    rcases cancelInternal_brackets with hb | hb
    · exact fun hn => hn.congr hb
    · exact fun hn => hn.eraseSpec hb
  · rw [Book.cancelInternal_of_inactive (by simpa using ha)]
    exact h

theorem visitMaker_continuous (h : b.Continuous) :
    (∀ q' b', b.visitMaker V p t ts i q = .stop q' b' → b'.Continuous) ∧
    (∀ m q' b', b.visitMaker V p t ts i q = .next m q' b' → b'.Continuous) := by
  have hexec : (∀ q' b', b.execMaker V p t ts i q = .stop q' b' → b'.Continuous) ∧
      (∀ m q' b', b.execMaker V p t ts i q = .next m q' b' → b'.Continuous) := by
    refine ⟨fun q' b' he => (by cases he), fun m q' b' he => ?_⟩
    cases he
    exact executed_continuous h
  unfold Book.visitMaker
  dsimp only
  split
  · split
    · refine ⟨fun q' b' he => ?_, fun m q' b' he => (by cases he)⟩
      cases he
      exact note_continuous h _
    · refine ⟨fun q' b' he => (by cases he), fun m q' b' he => ?_⟩
      cases he
      exact cancelInternal_continuous (note_continuous h _) true
    · refine ⟨fun q' b' he => ?_, fun m q' b' he => (by cases he)⟩
      cases he
      exact cancelInternal_continuous (note_continuous (note_continuous h _) _) true
    · exact hexec
  · exact hexec

theorem priceLoop_continuous (h : b.Continuous) (hm : Book.priceLoop V t ts n q b = some b') : b'.Continuous := by
  refine priceLoop_rule (J := fun b => b.Continuous) ?_ (fun _ _ h _ => h) n q b b' h hm
  intro k q b p q' b' h _ _ hl
  have h1 : b'.Continuous := by
    refine matchAtLevel_rule (J := fun _ b => b.Continuous) ?_ ?_ (fun _ _ _ h _ => h)
      k _ q b q' b' h hl
    · exact fun i q b m q' b' h _ hv => (visitMaker_continuous h).2 m q' b' hv
    · exact fun i q b q' b' h _ hv => (visitMaker_continuous h).1 q' b' hv
  obtain ⟨x, y, hb⟩ := advanceBest_eq (b'.order t).side
  rw [hb]
  exact h1.congr h1.gates rfl id rfl rfl

theorem matchAgainst_continuous (h : b.Continuous) (hm : b.matchAgainst V n t = some b') : b'.Continuous :=
  priceLoop_continuous (b := (b.monoNsNow V).2) (h.congr h.gates rfl id rfl rfl) hm

theorem matchEntry_continuous (h : b.Continuous) (hm : b.matchEntry V n r t = some b') : b'.Continuous := by
  unfold Book.matchEntry at hm
  split at hm
  · exact matchAgainst_continuous h hm
  · cases hm
    exact h

theorem accept_continuous (h : b.Continuous) (ha : b.accept V r = some (i, b')) : b'.Continuous := by
  have hst : b'.core.stopOrders = b.core.stopOrders ∧ b'.mmpPendingTrips = b.mmpPendingTrips := by
    unfold Book.accept Core.allocAs Core.allocOrder at ha
    dsimp only at ha
    cases hf : (b.monoNsNow V).2.core.freeHead with
    | none =>
      rw [hf] at ha
      cases ha
    | some k =>
      rw [hf] at ha
      cases ha
      exact ⟨rfl, rfl⟩
  obtain ⟨-, -, ho, hg, -⟩ := Book.accept_rest ha
  exact h.congr (hg ▸ h.gates) ho (fun hb => hb.congr (accept_brackets ha)) hst.2 hst.1

theorem finish_continuous (h : b.Continuous) (hf : b.finish V i = some b') : b'.Continuous := by
  unfold Book.finish at hf
  dsimp only at hf
  split at hf
  · cases hf
    exact h.congr h.gates rfl id rfl rfl
  · split at hf
    · cases hf
      exact h.congr h.gates rfl id rfl rfl
    · split at hf
      · cases hf
        unfold Book.restOrder
        dsimp only
        split
        · exact h.congr h.gates rfl id rfl rfl
        · exact h.congr h.gates rfl id rfl (by
            obtain ⟨x, y, hc⟩ := Core.raiseBest_eq (b.core.settle i (b.order i).atRest) (b.order i).atRest.priceTicks
              (b.order i).atRest.side
            exact (congrArg Core.stopOrders hc).trans rfl)
      · cases hf

theorem reject_continuous (h : b.Continuous) (reason : RejectReason) : (b.reject r reason).Continuous :=
  h.congr h.gates rfl id rfl rfl

/-! ## The operations in continuous trading -/

/-- What the checks that are left ask of an order they let pass. -/
theorem screen_none (h : b.screen V r = none) : 0 < r.qty ∧ (r.orderId ≠ 0 → b.core.find r.orderId = none) ∧
    b.previewReject V r = none := by
  unfold Book.screen at h
  split at h
  · cases h
  · rename_i h1
    split at h
    · cases h
    · split at h
      · cases h
      · rename_i h2
        refine ⟨by omega, fun ho => ?_, h⟩
        by_contra hne
        exact h2 ⟨ho, Option.isSome_iff_ne_none.mpr hne⟩

theorem processOcoPending_idle (h : b.oco.pendingCancel = []) : b.processOcoPending V = b := by
  have hr : ∀ n, Book.ocoRounds V n b = b := by
    intro n
    cases n with
    | zero => rfl
    | succ n => exact if_pos h
  exact hr _

theorem processBracketPending_idle (h : b.brackets.pending = []) : Book.processBracketPending V sub (n + 1) b = some b := by
  unfold Book.processBracketPending
  rw [h]
  rfl

theorem processMmpPending_idle (h : b.mmpPendingTrips = []) : b.processMmpPending V = b := by
  unfold Book.processMmpPending
  rw [h]
  rfl

theorem matchAndProcess_eq (h : b.Continuous) : b.matchAndProcess V sub n t = b.matchAgainst V n t := by
  unfold Book.matchAndProcess
  cases hm : b.matchAgainst V n t with
  | none => rfl
  | some b1 =>
    have h1 := matchAgainst_continuous h hm
    cases n with
    | zero => cases hm
    | succ n =>
      dsimp only
      rw [processOcoPending_idle h1.pending, processBracketPending_idle h1.bracket.1]
      dsimp only
      rw [processMmpPending_idle h1.trips]

theorem admission_eq (h : b.Continuous) : b.admission V r = (b.screen V r, b) := by
  have hl : b.limitReject V r = (b.previewReject V r, b) := by
    unfold Book.limitReject
    simp [h.gates.rate, h.gates.mmp, h.gates.luld]
  unfold Book.admission Book.screen
  rw [hl, h.gates.phase, h.gates.halted]
  simp only [reduceCtorEq, if_false, Bool.false_eq_true]
  repeat' split
  all_goals rfl

/-- `submit` in continuous trading: screen, accept, match, finish. -/
theorem submit_eq (h : b.Continuous) (n : Nat) : Book.submit V (n + 1) r b =
    match b.screen V r with
    | some reason => some ((0, reason), b.reject r reason)
    | none =>
      match b.accept V r with
      | none => some ((0, .poolExhausted), b.reject r .poolExhausted)
      | some (i, b1) => ((b1.matchEntry V n r i).bind fun b2 => b2.finish V i).map fun b3 => (((b1.order i).id, .none), b3) := by
  show Book.submitWith V (Book.submit V n) n r b = _
  unfold Book.submitWith
  rw [admission_eq h]
  cases hs : b.screen V r with
  | some reason => rfl
  | none =>
    dsimp only
    cases ha : b.accept V r with
    | none => rfl
    | some x =>
      obtain ⟨i, b1⟩ := x
      have h1 := accept_continuous h ha
      have hm : (if b1.matchesOnEntry r = true then b1.matchAndProcess V (Book.submit V n) n i else some b1) =
          b1.matchEntry V n r i := by
        unfold Book.matchesOnEntry Book.matchEntry
        rw [h1.gates.auction, matchAndProcess_eq h1]
        simp
      dsimp only
      rw [hm]
      cases b1.matchEntry V n r i with
      | none => rfl
      | some b2 =>
        dsimp only [Option.bind]
        cases b2.finish V i <;> rfl

theorem Book.Continuous.queued (h : b.Continuous) (hw : Wf V b) {k : Nat} (hf : b.core.find k = some i) :
    b.core.Queued V i := by
  rcases (hw.found hf).2 with hs | hq
  · rw [h.stops] at hs
    cases hs
  · exact hq

theorem cancel_eq (h : b.Continuous) (hw : Wf V b) (id : Nat) : b.cancel V id =
    match b.core.find id with
    | none => (false, b)
    | some i => (true, b.cancelInternal V i true) := by
  unfold Book.cancel
  cases hf : b.core.find id with
  | none => rfl
  | some i =>
    obtain ⟨p, hi⟩ := h.queued hw hf
    have hp : (b.order i).isPendingStop = false := (hw.resting hi).not_pendingStop
    dsimp only
    rw [hp, processOcoPending_idle (cancelInternal_continuous h true).pending]
    rfl

/-- The request with which `modify` submits the order again. -/
def Order.resubmit (o : Order) (id : Nat) (newPrice newQty : Int) : Request :=
  { side := o.side, priceTicks := newPrice, qty := i32 (newQty - o.filledQty), type := o.type, tif := o.tif,
    orderId := id, clientId := o.clientId }

theorem modify_eq (h : b.Continuous) (hw : Wf V b) (n id : Nat) (newPrice newQty : Int) : b.modify V n id newPrice newQty =
    match b.core.find id with
    | none => some ((0, .none), b)
    | some i =>
      if newPrice = (b.order i).priceTicks ∧ newQty < (b.order i).totalQty ∧ (b.order i).filledQty < newQty then
        some (((b.order i).id, .none), b.reduceInPlace id i newQty)
      else Book.submit V n ((b.order i).resubmit id newPrice newQty) (b.cancelInternal V i false) := by
  unfold Book.modify
  cases hf : b.core.find id with
  | none => rfl
  | some i =>
    obtain ⟨p, hi⟩ := h.queued hw hf
    have hp : (b.order i).priceTicks = p := hw.price hi
    have hr : inRange V (b.order i).priceTicks := hp ▸ hw.links.grid p i hi
    dsimp only
    rw [if_pos hr]
    split
    · rfl
    · have hu : b.unlinkOco id = b := by
        unfold Book.unlinkOco
        rw [h.partner]
      unfold Book.cancelReplace
      dsimp only
      rw [hu, h.partner, h.bracket.2]
      split
      · rename_i hs
        exact hs.symm
      · rename_i hs
        exact hs.symm

/-- The course of an order that passed the checks: accepted to slot `i`, matched, finished. -/
structure Entered (V : Env) (n : Nat) (r : Request) (b b' : Book) (i : Nat) (b₁ b₂ : Book) : Prop where
  passed : b.screen V r = none
  accepted : b.accept V r = some (i, b₁)
  matched : b₁.matchEntry V n r i = some b₂
  finished : b₂.finish V i = some b'

theorem accept_full (ha : b.accept V r = none) : b.core.freeHead = none := by
  unfold Book.accept Core.allocAs Core.allocOrder at ha
  dsimp only at ha
  cases hfh : (b.monoNsNow V).2.core.freeHead with
  | none => exact hfh
  | some k =>
    rw [hfh] at ha
    cases ha

theorem accept_slot (ha : b.accept V r = some (i, b')) : b.core.freeHead.isNone = false := by
  unfold Book.accept Core.allocAs Core.allocOrder at ha
  dsimp only at ha
  cases hf : b.core.freeHead with
  | none =>
    rw [show (b.monoNsNow V).2.core.freeHead = none from hf] at ha
    cases ha
  | some k => rfl

/-- `submit` rejects, and only says so, or runs an order's course. -/
theorem submit_entered (h : b.Continuous) (hs : Book.submit V n r b = some (x, b')) :
    (∃ reason, x = (0, reason) ∧ b' = b.reject r reason ∧
      (b.screen V r = some reason ∨ b.screen V r = none ∧ b.accept V r = none)) ∨
    ∃ m i b₁ b₂, x = ((b₁.order i).id, .none) ∧ Entered V m r b b' i b₁ b₂ := by
  cases n with
  | zero => cases hs
  | succ n =>
    rw [submit_eq h] at hs
    split at hs
    · rename_i hsc
      cases hs
      exact .inl ⟨_, rfl, rfl, .inl hsc⟩
    · rename_i hsc
      split at hs
      · rename_i ha
        cases hs
        exact .inl ⟨_, rfl, rfl, .inr ⟨hsc, ha⟩⟩
      · rename_i i b₁ ha
        obtain ⟨b3, hb, he⟩ := Option.map_eq_some_iff.mp hs
        cases he
        obtain ⟨b₂, hm, hf⟩ := Option.bind_eq_some_iff.mp hb
        exact .inr ⟨n, i, b₁, b₂, rfl, hsc, ha, hm, hf⟩

theorem Entered.act (h : Entered V n r b b' i b₁ b₂) : Act V .accept b b₁ := by
  obtain ⟨hq, hid, -⟩ := screen_none h.passed
  exact .accept r i hq hid h.accepted

theorem Entered.flying (h : Entered V n r b b' i b₁ b₂) : i ∈ b₁.inFlight := by
  rw [accept_inFlight h.accepted]
  exact List.mem_cons_self

theorem submit_continuous (h : b.Continuous) (hs : Book.submit V n r b = some (x, b')) : b'.Continuous := by
  rcases submit_entered h hs with ⟨reason, -, rfl, -⟩ | ⟨m, i, b₁, b₂, -, he⟩
  · exact reject_continuous h reason
  · exact finish_continuous (matchEntry_continuous (accept_continuous h he.accepted) he.matched) he.finished

end

/-! ## Runs -/

/-- Order entry, and the settings of self-trade prevention. -/
def Op.entry : Op → Bool
  | .submit _ | .cancel _ | .modify _ _ _ | .setStpPolicy _ | .setClientFirm _ _ => true
  | _ => false

theorem exec_continuous {V : Env} {b b' : Book} {n : Nat} {op : Op} {x : Outcome} (h : b.Continuous) (hw : Wf V b)
    (hop : op.entry) (he : Book.exec V n op b = some (x, b')) : b'.Continuous := by
  cases op with
  | submit r =>
    obtain ⟨y, hs⟩ := Book.returned he fun _ => rfl
    exact submit_continuous h hs
  | cancel id =>
    cases he
    rw [cancel_eq h hw]
    split
    · exact h
    · exact cancelInternal_continuous h true
  | modify id p q =>
    obtain ⟨y, hs⟩ := Book.returned he fun _ => rfl
    rw [modify_eq h hw] at hs
    split at hs
    · cases hs
      exact h
    · split at hs
      · cases hs
        exact h.congr h.gates rfl (fun hb => hb.congr (reduceInPlace_brackets hb)) rfl rfl
      · exact submit_continuous (cancelInternal_continuous h false) hs
  | setStpPolicy p =>
    cases he
    exact h.congr ⟨h.gates.phase, h.gates.halted, h.gates.auction, h.gates.rate, h.gates.mmp, h.gates.luld⟩ rfl id rfl rfl
  | setClientFirm c f =>
    cases he
    unfold Book.setClientFirm
    split
    · exact h
    · exact h.congr ⟨h.gates.phase, h.gates.halted, h.gates.auction, h.gates.rate, h.gates.mmp, h.gates.luld⟩ rfl id rfl rfl
  | _ => cases hop

theorem fresh_continuous (V : Env) : (fresh V).Continuous :=
  ⟨⟨rfl, rfl, rfl, rfl, rfl, rfl⟩, fun _ => rfl, rfl, ⟨rfl, fun _ => rfl⟩, rfl, rfl⟩

theorem Reach.mono {V : Env} {P P' : Book → Op → Book → Prop} {b : Book} (hP : ∀ b op b', P b op b' → P' b op b')
    (h : Book.Reach V P b) : Book.Reach V P' b := by
  induction h with
  | init => exact .init
  | step _ hs hp ih => exact .step ih hs (hP _ _ _ hp)

theorem Reach.continuous {V : Env} {b : Book} (h : Book.Reach V (fun _ op _ => op.entry = true) b) : b.Continuous := by
  induction h with
  | init => exact fresh_continuous V
  | step hr hs hop ih =>
    obtain ⟨n, hn⟩ := hs
    exact exec_continuous ih (Reach.wf hr).1 hop hn

end HftLab.OrderBook
