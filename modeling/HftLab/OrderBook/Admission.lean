/-
  HftLab.OrderBook.Admission — the admission gates: a hard halt and a tripped market-maker protection.

  The gates are checked in `submit`. `Guards`: what any function can do to them; no call but `resume`,
  `mmp_reset` and `set_mmp` lifts a block (`Blocks.step`). While an account is blocked no order of it
  enters through `submit`, `submit_bracket` or `mass_quote`; `submit_peg` and `submit_peg_mid` enter
  orders on their own and ask for neither gate (`gates_hold_iff`).
-/

import HftLab.OrderBook.Views
import HftLab.OrderBook.Walk

namespace HftLab.OrderBook

open Lib Function List

/-- From gates `g` to `g'` no block was lifted, no protection was added or dropped, and no internal
    submission is left open. -/
structure Guards (g g' : Gates) : Prop where
  halted : g.halted = true → g'.halted = true
  enabled : g'.mmpEnabled = g.mmpEnabled
  known : ∀ c, (g'.mmp c).isSome = (g.mmp c).isSome
  tripped : ∀ c, (g.mmp c).any (·.tripped) = true → (g'.mmp c).any (·.tripped) = true
  internal : g'.inInternalSubmit = true → g.inInternalSubmit = true

namespace Guards

variable {g g' g'' : Gates}

theorem refl (g : Gates) : Guards g g := ⟨id, rfl, fun _ => rfl, fun _ => id, id⟩

theorem of_eq (h : g' = g) : Guards g g' := h ▸ refl g

theorem trans (h : Guards g g') (h' : Guards g' g'') : Guards g g'' where
  halted := fun hh => h'.halted (h.halted hh)
  enabled := h'.enabled.trans h.enabled
  known := fun c => (h'.known c).trans (h.known c)
  tripped := fun c ht => h'.tripped c (h.tripped c ht)
  internal := fun hi => h.internal (h'.internal hi)

/-- An internal submission is closed again. -/
theorem closed {x : Bool} (h : Guards { g with inInternalSubmit := x } g') : Guards g { g' with inInternalSubmit := false } :=
  ⟨h.halted, h.enabled, h.known, h.tripped, fun hc => (Bool.false_ne_true hc).elim⟩

end Guards

section

variable {V : Env} {b b' : Book} {i t ts n c : Nat} {p qty q : Int} {r : Request} {m : Option Nat} {x : Outcome}

/-! ## What the functions do to the gates -/

theorem cancelInternal_gates (i : Nat) (e : Bool) : (b.cancelInternal V i e).gates = b.gates := by
  by_cases ha : (b.order i).isActive
  · exact (Book.cancelInternal_rest e ha).2.2.2.1
  · rw [Book.cancelInternal_of_inactive (by simpa using ha)]

theorem cancelPendingStop_gates (i : Nat) : (b.cancelPendingStop i).2.gates = b.gates := by
  unfold Book.cancelPendingStop
  split <;> rfl

theorem submitStop_gates (side : Side) (trigger limit qty : Int) (oid cid : Nat) :
    (b.submitStop V side trigger limit qty oid cid).2.gates = b.gates := by
  unfold Book.submitStop
  split
  · rfl
  · split
    · rfl
    · split
      · rfl
      · dsimp only
        split <;> rfl

theorem enterPeg_gates (side : Side) (offset qty : Int) (oid cid : Nat) (cap price marker : Int) :
    (b.enterPeg V side offset qty oid cid cap price marker).2.gates = b.gates := by
  unfold Book.enterPeg
  split
  · rfl
  · dsimp only
    split <;> rfl

theorem auctionTake_gates (p clearing : Int) (i : Nat) (take : Int) (ts : Nat) :
    (b.auctionTake p clearing i take ts).gates = b.gates := by
  unfold Book.auctionTake
  dsimp only
  split <;> rfl

/-- A fill counts towards a protection that is there, and can trip it. -/
theorem mmpOnMakerFill_guards (cid : Nat) : Guards b.gates (b.mmpOnMakerFill V cid).gates := by
  unfold Book.mmpOnMakerFill
  cases hc : b.mmpCount V cid with
  | none => exact Guards.refl _
  | some m =>
    have hold : ∃ m0, b.gates.mmp cid = some m0 ∧ m0.tripped = false := by
      unfold Book.mmpCount at hc
      split at hc
      · cases hc
      · split at hc
        · cases hc
        · rename_i m0 hm0
          split at hc
          · cases hc
          · rename_i ht
            exact ⟨m0, hm0, by simpa using ht⟩
    obtain ⟨m0, hm0, ht0⟩ := hold
    refine ⟨id, rfl, fun c => ?_, fun c ht => ?_, id⟩
    · by_cases e : c = cid
      · subst e
        show (update b.gates.mmp c (some m) c).isSome = _
        rw [update_self, hm0]
        rfl
      · show (update b.gates.mmp cid (some m) c).isSome = _
        rw [update_of_ne e]
    · by_cases e : c = cid
      · subst e
        rw [hm0] at ht
        simp [ht0] at ht
      · show (update b.gates.mmp cid (some m) c).any _
        rw [update_of_ne e]
        exact ht

theorem settleMaker_guards (q : Int) : Guards b.gates (b.settleMaker p t i q).gates := by
  unfold Book.settleMaker
  dsimp only
  split
  · exact ⟨id, rfl, fun _ => rfl, fun _ => id, id⟩
  · split
    · exact Guards.refl _
    · exact Guards.refl _

theorem execMaker_guards (p : Int) (t ts i : Nat) (q : Int) :
    Guards b.gates ((b.fillMaker V p t i q ts).settleMaker p t i q).gates := by
  refine Guards.trans ?_ (settleMaker_guards _)
  exact mmpOnMakerFill_guards _

theorem consumeRateToken_guards (cid : Nat) : Guards b.gates (b.consumeRateToken V cid).2.gates := by
  unfold Book.consumeRateToken
  split
  · exact Guards.refl _
  · exact ⟨id, rfl, fun _ => rfl, fun _ => id, id⟩

theorem luldBreach_guards : Guards b.gates b.luldBreach.gates := by
  unfold Book.luldBreach
  split
  · exact ⟨id, rfl, fun _ => rfl, fun _ => id, id⟩
  · exact ⟨fun h => by rw [h]; rfl, rfl, fun _ => rfl, fun _ => id, id⟩

theorem limitReject_guards : Guards b.gates (b.limitReject V r).2.gates := by
  obtain ⟨b1, hb1, hcase⟩ := limitReject_cases V b r
  have hg : Guards b.gates b1.gates := by
    rcases hb1 with rfl | rfl
    · exact Guards.refl _
    · exact consumeRateToken_guards _
  rcases hcase with ⟨h, -⟩ | ⟨-, h⟩
  · rw [h]
    exact hg
  · rw [h]
    exact hg.trans luldBreach_guards

theorem admission_guards : Guards b.gates (b.admission V r).2.gates := by
  rcases admission_cases V b r with ⟨-, hb⟩ | ⟨he, -⟩
  · rw [hb]
    exact Guards.refl _
  · rw [he]
    exact limitReject_guards

theorem accept_gates (h : b.accept V r = some (i, b')) : b'.gates = b.gates := by
  unfold Book.accept at h
  dsimp only at h
  split at h
  · cases h
  · cases h
    rfl

theorem finish_gates (h : b.finish V i = some b') : b'.gates = b.gates := by
  unfold Book.finish at h
  dsimp only at h
  split at h
  · cases h
    rfl
  · split at h
    · cases h
      rfl
    · split at h
      · cases h
        unfold Book.restOrder
        dsimp only
        split <;> rfl
      · cases h

theorem Guards.walk (V : Env) : Walk V fun b b' => Guards b.gates b'.gates where
  refl b := .refl b.gates
  trans := .trans
  silent hg _ _ _ _ := .of_eq hg
  note b _ := .refl b.gates
  execute _ p t ts i q := execMaker_guards p t ts i q
  internal h := h.closed
  admission _ _ := admission_guards
  reject b _ _ := .refl b.gates
  accept h := .of_eq (accept_gates h)
  finish h := .of_eq (finish_gates h)
  cancelInternal _ i e := .of_eq (cancelInternal_gates i e)
  cancelPendingStop _ i := .of_eq (cancelPendingStop_gates i)
  submitStop _ side trigger limit qty oid cid := .of_eq (submitStop_gates side trigger limit qty oid cid)
  enterPeg _ side offset qty oid cid cap price marker := .of_eq (enterPeg_gates side offset qty oid cid cap price marker)
  auctionTake _ p clearing i take ts := .of_eq (auctionTake_gates p clearing i take ts)
  reduceInPlace b _ _ _ := .refl b.gates
  releaseStop b _ _ := .refl b.gates
  expireOrder b _ := .refl b.gates

theorem runClosingAuction_guards {res : AuctionResult} (h : b.runClosingAuction V n = some (res, b')) :
    Guards b.gates b'.gates := by
  have w := Guards.walk V
  unfold Book.runClosingAuction at h
  dsimp only at h
  split at h
  · cases h
  · rename_i locIds b1 h1
    have g1 : Guards { b.gates with inAuctionMode := true, inInternalSubmit := true } b1.gates := w.inject _ h1
    split at h
    · cases h
      exact ⟨g1.halted, g1.enabled, g1.known, g1.tripped, fun hc => (Bool.false_ne_true hc).elim⟩
    · split at h
      · cases h
      · rename_i mocIds b2 h2
        have g2 := w.inject _ h2
        split at h
        · cases h
        · rename_i res3 b3 h3
          cases h
          have g3 : Guards { b2.gates with inAuctionMode := false, inInternalSubmit := false } b3.gates := w.runAuction h3
          have g12 := Guards.trans g1 g2
          have g123 : Guards b.gates { b2.gates with inAuctionMode := false, inInternalSubmit := false } :=
            ⟨g12.halted, g12.enabled, g12.known, g12.tripped, fun hc => (Bool.false_ne_true hc).elim⟩
          have hmoc := w.cancelInjected b3 mocIds
          have hloc := w.cancelInjected (b3.cancelMocUnfilled V mocIds) locIds
          have hoco := w.processOcoPending ((b3.cancelMocUnfilled V mocIds).cancelLocUnfilled V locIds)
          exact ((g123.trans g3).trans (hmoc.trans hloc)).trans hoco

/-! ## Blocked accounts -/

/-- Trading is halted, or the protection of account `c` has tripped. -/
def Book.blocks (b : Book) (c : Nat) : Bool := b.gates.halted || (b.gates.mmp c).any (·.tripped)

/-- The calls that lift a block of account `c`. -/
def Op.lifts (c : Nat) : Op → Bool
  | .resume => true
  | .mmpReset d => d = c
  | .setMmp d _ _ => d = c
  | _ => false

/-- The calls that enter orders for account `c`. -/
def Op.enters (c : Nat) : Op → Bool
  | .submit r => r.clientId = c
  | .submitPeg _ _ _ _ cid _ => cid = c
  | .submitPegMid _ _ _ _ cid _ => cid = c
  | .submitBracket _ _ _ _ _ cid => cid = c
  | .massQuote _ cid => cid = c
  | _ => false

/-- Where `submit_peg` enters its order. -/
def Book.pegPrice (V : Env) (b : Book) (side : Side) (offset cap : Int) : Int :=
  Book.capPeg side cap (match side with
    | .buy => if b.core.hasBid then i32 (b.core.bestBid + offset) else 0
    | .sell => if b.core.hasAsk then i32 (b.core.bestAsk + offset) else V.LEVELS - 1)

/-- The call is a peg that passes the checks of `submit_peg` or `submit_peg_mid`: the session, the
    quantity, a price on the grid and a free slot. -/
def Book.pegPasses (V : Env) (b : Book) : Op → Bool
  | .submitPeg side offset qty _ _ cap =>
    b.gates.sessionPhase ≠ .closed && 0 < qty && inRange V (b.pegPrice V side offset cap) && b.core.freeHead.isSome
  | .submitPegMid side offset qty _ _ cap =>
    b.gates.sessionPhase ≠ .closed && 0 < qty && 0 ≤ b.core.midTicks &&
      inRange V (Book.capPeg side cap (i32 (b.core.midTicks + offset))) && b.core.freeHead.isSome
  | _ => false

/-- No order rests in a level that did not before. -/
def AddsNone (V : Env) (b b' : Book) : Prop := ∀ p i, i ∈ b'.core.queue V p → i ∈ b.core.queue V p

/-- Protections are only set for accounts, and switch the check on; between calls no internal
    submission is open. -/
structure GatesOk (g : Gates) : Prop where
  known : ∀ c, (g.mmp c).isSome = true → g.mmpEnabled = true ∧ c ≠ 0
  internal : g.inInternalSubmit = false

theorem Guards.ok {g g' : Gates} (h : Guards g g') (hg : GatesOk g) : GatesOk g' := by
  refine ⟨fun c hc => ?_, ?_⟩
  · rw [h.known] at hc
    rw [h.enabled]
    exact hg.known c hc
  · by_contra hn
    have := h.internal (by simpa using hn)
    rw [hg.internal] at this
    cases this

theorem Guards.blocks (h : Guards b.gates b'.gates) (hb : b.blocks c) : b'.blocks c := by
  rcases Bool.or_eq_true_iff.mp hb with h1 | h1
  · exact Bool.or_eq_true_iff.mpr (.inl (h.halted h1))
  · exact Bool.or_eq_true_iff.mpr (.inr (h.tripped c h1))

/-- The calls that are not about the gates keep all of them. -/
theorem exec_guards {op : Op} (h : Book.exec V n op b = some (x, b')) (hr : op ≠ .resume) (hm : ∀ d, op ≠ .mmpReset d)
    (hs : ∀ d k w, op ≠ .setMmp d k w) : Guards b.gates b'.gates := by
  by_cases hop : op.walked
  · exact (Guards.walk V).exec hop h
  cases op with
  | setClientFirm d f =>
    cases h
    unfold Book.setClientFirm
    split
    · exact Guards.refl _
    · exact ⟨id, rfl, fun _ => rfl, fun _ => id, id⟩
  | setMmp d k w => exact absurd rfl (hs d k w)
  | mmpReset d => exact absurd rfl (hm d)
  | setAccountRateLimit d k w =>
    cases h
    unfold Book.setAccountRateLimit
    split
    · exact Guards.refl _
    · exact ⟨id, rfl, fun _ => rfl, fun _ => id, id⟩
  | setIcebergRefreshJitterBps bps =>
    cases h
    show Guards b.gates (if 0 ≤ bps ∧ bps ≤ 9000 then { b with gates := { b.gates with iceJitterBps := bps } } else b).gates
    split
    · exact ⟨id, rfl, fun _ => rfl, fun _ => id, id⟩
    · exact Guards.refl _
  | resume => exact absurd rfl hr
  | halt =>
    cases h
    exact ⟨fun _ => rfl, rfl, fun _ => rfl, fun _ => id, id⟩
  | resumeWithAuction =>
    obtain ⟨y, hc⟩ := Book.returned h fun _ => rfl
    have h1 := (Guards.walk V).runAuction hc
    exact ⟨h1.halted, h1.enabled, h1.known, h1.tripped, h1.internal⟩
  | openMarket =>
    obtain ⟨y, hc⟩ := Book.returned h fun _ => rfl
    have h1 := (Guards.walk V).runAuction hc
    exact ⟨h1.halted, h1.enabled, h1.known, h1.tripped, h1.internal⟩
  | closeMarket =>
    obtain ⟨y, hc⟩ := Book.returned h fun _ => rfl
    obtain ⟨⟨y2, b2⟩, hc2, he2⟩ := Option.map_eq_some_iff.mp hc
    cases he2
    have h1 := runClosingAuction_guards hc2
    exact ⟨h1.halted, h1.enabled, h1.known, h1.tripped, h1.internal⟩
  | submitMoc s q cid =>
    cases h
    unfold Book.submitMoc
    split
    · exact Guards.refl _
    · split <;> exact Guards.refl _
  | submitLoc s p q cid =>
    cases h
    unfold Book.submitLoc
    split
    · exact Guards.refl _
    · split
      · exact Guards.refl _
      · split <;> exact Guards.refl _
  | runClosingAuction =>
    obtain ⟨y, hc⟩ := Book.returned h fun _ => rfl
    exact runClosingAuction_guards hc
  | clear | cancelMoc | cancelLoc | setStpPolicy | setLuldBands | disableLuld | setLuldHaltToAuction | setTrailingRatchetOnMid
  | enableDeltaQueue | popDeltaQueue | haltForAuction | setAuctionMode | beginPreOpen | beginClosing =>
    cases h
    exact ⟨id, rfl, fun _ => rfl, fun _ => id, id⟩
  | _ => exact absurd rfl hop

theorem exec_gatesOk {op : Op} (h : Book.exec V n op b = some (x, b')) (hg : GatesOk b.gates) : GatesOk b'.gates := by
  by_cases hr : op = .resume
  · subst hr
    cases h
    exact ⟨hg.known, hg.internal⟩
  · cases op with
    | setMmp d k w =>
      cases h
      unfold Book.setMmp
      split
      · exact hg
      · rename_i hd
        refine ⟨fun c hc => ⟨rfl, ?_⟩, hg.internal⟩
        by_cases e : c = d
        · rw [e]
          exact fun h0 => hd (.inl h0)
        · have hc : (update b.gates.mmp d (some ⟨w, k, 0, _, false⟩) c).isSome := hc
          rw [update_of_ne e] at hc
          exact (hg.known c hc).2
    | mmpReset d =>
      cases h
      unfold Book.mmpReset
      split
      · exact hg
      · rename_i m hm
        refine ⟨fun c hc => ?_, hg.internal⟩
        by_cases e : c = d
        · exact e ▸ hg.known d (by rw [hm]; rfl)
        · have hc : (update b.gates.mmp d (some ⟨m.windowNs, m.maxFills, 0, V.clock b.asked, false⟩) c).isSome := hc
          rw [update_of_ne e] at hc
          exact hg.known c hc
    | _ => exact (exec_guards h hr (fun _ hc => by cases hc) (fun _ _ _ hc => by cases hc)).ok hg

theorem Reach.gatesOk {P : Book → Op → Book → Prop} (h : Book.Reach V P b) : GatesOk b.gates := by
  induction h with
  | init => exact ⟨fun c hc => (by cases hc), rfl⟩
  | step _ hs _ ih =>
    obtain ⟨n, hn⟩ := hs
    exact exec_gatesOk hn ih

/-- No other call lifts a block. -/
theorem exec_blocks {op : Op} (h : Book.exec V n op b = some (x, b')) (hop : op.lifts c = false) (hb : b.blocks c) :
    b'.blocks c = true := by
  cases op with
  | resume => cases hop
  | mmpReset d =>
    have hne : c ≠ d := fun e => by simp [Op.lifts, e] at hop
    cases h
    unfold Book.mmpReset
    split
    · exact hb
    · show (b.gates.halted || (update b.gates.mmp d _ c).any (·.tripped))
      rw [update_of_ne hne]
      exact hb
  | setMmp d k w =>
    have hne : c ≠ d := fun e => by simp [Op.lifts, e] at hop
    cases h
    unfold Book.setMmp
    split
    · exact hb
    · show (b.gates.halted || (update b.gates.mmp d _ c).any (·.tripped))
      rw [update_of_ne hne]
      exact hb
  | _ => exact (exec_guards h (fun hc => by cases hc) (fun _ hc => by cases hc) (fun _ _ _ hc => by cases hc)).blocks hb

/-! ## The entry points -/

theorem consumeRateToken_mmp (cid : Nat) : (b.consumeRateToken V cid).2.gates.mmp = b.gates.mmp ∧
    (b.consumeRateToken V cid).2.gates.mmpEnabled = b.gates.mmpEnabled := by
  unfold Book.consumeRateToken
  split <;> exact ⟨rfl, rfl⟩

/-- `submit` turns a blocked account away. -/
theorem admission_blocked (hg : GatesOk b.gates) (hb : b.blocks r.clientId) : (b.admission V r).1 ≠ none := by
  rcases admission_cases V b r with ⟨hne, -⟩ | ⟨he, hh, -⟩
  · exact hne
  · have ht : (b.gates.mmp r.clientId).any (·.tripped) := by
      rcases Bool.or_eq_true_iff.mp hb with h | h
      · rw [hh] at h
        cases h
      · exact h
    have hsome : (b.gates.mmp r.clientId).isSome := by
      cases hm : b.gates.mmp r.clientId with
      | none =>
        rw [hm] at ht
        cases ht
      | some m => rfl
    obtain ⟨hen, hne⟩ := hg.known _ hsome
    rw [he]
    obtain ⟨b1, hb1, ⟨-, hpass⟩ | ⟨hne', -⟩⟩ := limitReject_cases V b r
    · intro hnone
      have hgates : b1.gates.mmp = b.gates.mmp ∧ b1.gates.mmpEnabled = b.gates.mmpEnabled := by
        rcases hb1 with rfl | rfl
        · exact ⟨rfl, rfl⟩
        · exact consumeRateToken_mmp _
      have hoff := (hpass hnone).2
      rw [hgates.1, hgates.2, hen, hg.internal, decide_eq_true hne, ht] at hoff
      cases hoff
    · exact hne'

theorem submit_blocked {x : Nat × RejectReason} (hg : GatesOk b.gates) (hb : b.blocks r.clientId)
    (h : Book.submit V n r b = some (x, b')) : x.1 = 0 ∧ b'.core = b.core := by
  cases n with
  | zero => cases h
  | succ n =>
    have h : Book.submitWith V (Book.submit V n) n r b = some (x, b') := h
    have hadm := admission_blocked (V := V) hg hb
    obtain ⟨⟨g, a, hreg, -, -⟩, -⟩ := admission_spec
    unfold Book.submitWith at h
    generalize b.admission V r = y at hadm hreg h
    obtain ⟨reason, b1⟩ := y
    cases reason with
    | none => exact absurd rfl hadm
    | some reason =>
      cases h
      refine ⟨rfl, ?_⟩
      show b1.core = b.core
      have hreg : b1 = { b with gates := g, asked := a } := hreg
      rw [hreg]

theorem submitBracket_blocked {side : Side} {entryPrice tpPrice slTrigger : Int} {id : Nat} (hg : GatesOk b.gates)
    (hb : b.blocks c) (h : b.submitBracket V n side entryPrice qty tpPrice slTrigger c = some (id, b')) :
    b'.core = b.core := by
  unfold Book.submitBracket at h
  dsimp only at h
  split at h
  · cases h
  · rename_i y reason b1 hs
    obtain ⟨h0, hcore⟩ := submit_blocked hg hb hs
    have h0 : y = 0 := h0
    rw [if_pos h0] at h
    cases h
    exact hcore

theorem submitAll_blocked (rs : List Request) {ids : List Nat} (hg : GatesOk b.gates) (hb : b.blocks c)
    (hrs : ∀ r ∈ rs, r.clientId = c) (h : Book.submitAll (Book.submit V n) rs b = some (ids, b')) : b'.core = b.core := by
  induction rs generalizing b ids with
  | nil =>
    cases h
    rfl
  | cons r rs ih =>
    unfold Book.submitAll at h
    split at h
    · cases h
    · rename_i x reason b1 hs
      obtain ⟨y, hi, he⟩ := Option.map_eq_some_iff.mp h
      cases he
      have hguard := (Guards.walk V).submit n _ _ _ _ hs
      have hcore := (submit_blocked hg (by rw [hrs r mem_cons_self]; exact hb) hs).2
      rw [← hcore]
      exact ih (hguard.ok hg) (hguard.blocks hb) (fun r' hr' => hrs r' (mem_cons_of_mem _ hr')) hi

theorem massQuote_blocked {quotes : List Quote} {x : Nat × List Nat} (hg : GatesOk b.gates) (hb : b.blocks c)
    (h : b.massQuote V n quotes c = some (x, b')) : b'.core = b.core := by
  unfold Book.massQuote at h
  split at h
  · cases h
    rfl
  · split at h
    · obtain ⟨y, hi, he⟩ := Option.map_eq_some_iff.mp h
      cases he
      refine submitAll_blocked _ hg hb (fun r hr => ?_) hi
      obtain ⟨q, -, rfl⟩ := mem_map.mp hr
      rfl
    · cases h
      rfl

theorem AddsNone.of_core (h : b'.core = b.core) : AddsNone V b b' := by
  intro p i hi
  rw [h] at hi
  exact hi

/-- A peg that is entered takes a free slot to the queue of its price. -/
theorem Pegs.adds {oid : Nat} {f : Order → Order} {d : Core} (h : Pegs V oid i f d b b') (hw : Wf V b) : ¬ AddsNone V b b' := by
  obtain ⟨x, y, hcore⟩ := h.core
  have hq := queue_of_view (hw.peg_view h.alloc h.grid hcore h.inFlight)
  obtain ⟨⟨G, hF, -⟩, -, -⟩ := hw.links.allocAs h.alloc
  have hfree : ∀ p, i ∉ b.core.queue V p := by
    intro p
    refine hw.links.not_queued ?_ p
    rw [hF, append_assoc]
    exact mem_append_left _ mem_cons_self
  intro hnone
  refine hfree _ (hnone (f { id := b.core.newId oid }).strip.priceTicks i ?_)
  rw [hq]
  show i ∈ update (b.core.queue V) _ _ _
  rw [update_self]
  exact mem_append_right _ mem_cons_self

/-- The part the two functions share enters the order exactly if the price is on the grid and a slot is free. -/
theorem enterPeg_adds_iff (hw : Wf V b) (side : Side) (offset qty : Int) (oid cid : Nat) (cap price marker : Int)
    (hq : 0 < qty) : AddsNone V b (b.enterPeg V side offset qty oid cid cap price marker).2 ↔
      ¬ (inRange V price ∧ b.core.freeHead.isSome) := by
  constructor
  · rintro hnone ⟨hr, hfree⟩
    rcases enterPeg_cases side offset qty oid cid cap price marker hq with h | ⟨i, f, d, h⟩
    · -- the clock was read
      have hask : (b.enterPeg V side offset qty oid cid cap price marker).2.asked = b.asked + 1 := by
        unfold Book.enterPeg
        rw [if_neg (by simpa using hr)]
        dsimp only
        split
        · rename_i ha
          obtain ⟨k, hk⟩ := Option.isSome_iff_exists.mp hfree
          have hfh : (b.monoNsNow V).2.core.freeHead = some k := hk
          unfold Core.allocAs Core.allocOrder at ha
          rw [hfh] at ha
          cases ha
        · rfl
      rw [h] at hask
      omega
    · exact h.adds hw hnone
  · intro hno
    refine AddsNone.of_core ?_
    unfold Book.enterPeg
    split
    · rfl
    · rename_i hr
      dsimp only
      split
      · rfl
      · rename_i x i d ha
        refine absurd ⟨by simpa using hr, ?_⟩ hno
        have hfh : (b.monoNsNow V).2.core.freeHead = b.core.freeHead := rfl
        unfold Core.allocAs Core.allocOrder at ha
        cases hf : b.core.freeHead with
        | none =>
          rw [hfh, hf] at ha
          cases ha
        | some k => rfl

theorem submitPeg_adds_iff (hw : Wf V b) (side : Side) (offset qty : Int) (oid cid : Nat) (cap : Int) :
    AddsNone V b (b.submitPeg V side offset qty oid cid cap).2 ↔
      b.pegPasses V (.submitPeg side offset qty oid cid cap) = false := by
  unfold Book.submitPeg Book.pegPasses
  by_cases hs : b.gates.sessionPhase = .closed
  · rw [if_pos hs]
    simp [hs, AddsNone]
  · rw [if_neg hs]
    by_cases hq : qty ≤ 0
    · rw [if_pos hq]
      simp [hq, AddsNone]
    · rw [if_neg hq, enterPeg_adds_iff hw _ _ _ _ _ _ _ _ (by omega)]
      have hq : 0 < qty := by omega
      show ¬ (inRange V (b.pegPrice V side offset cap) ∧ _) ↔ _
      simp [hs, hq]

theorem submitPegMid_adds_iff (hw : Wf V b) (side : Side) (offset qty : Int) (oid cid : Nat) (cap : Int) :
    AddsNone V b (b.submitPegMid V side offset qty oid cid cap).2 ↔
      b.pegPasses V (.submitPegMid side offset qty oid cid cap) = false := by
  unfold Book.submitPegMid Book.pegPasses
  by_cases hs : b.gates.sessionPhase = .closed
  · rw [if_pos hs]
    simp [hs, AddsNone]
  · rw [if_neg hs]
    by_cases hq : qty ≤ 0
    · rw [if_pos hq]
      simp [hq, AddsNone]
    · rw [if_neg hq]
      have hq : 0 < qty := by omega
      by_cases hm : b.core.midTicks < 0
      · rw [if_pos hm]
        simp [hm, AddsNone]
      · rw [if_neg hm, enterPeg_adds_iff hw _ _ _ _ _ _ _ _ hq]
        have hm : 0 ≤ b.core.midTicks := by omega
        simp [hs, hq, hm]

end

/-- While account `c` is blocked, a call that enters orders for it adds none exactly if it is not a peg
    that passes the peg's own checks; and no call but `resume`, `mmp_reset` and `set_mmp` lifts the block. -/
theorem gates_hold_iff {V : Env} {b b' : Book} {c : Nat} {op : Op} {x : Outcome}
    (h : Book.Reach V (fun _ _ _ => True) b) (hb : b.blocks c = true) (hs : Book.Step V b op x b') :
    (op.enters c = true → (AddsNone V b b' ↔ b.pegPasses V op = false)) ∧ (op.lifts c = false → b'.blocks c = true) := by
  have hg := Reach.gatesOk h
  have hw := (Reach.wf h).1
  obtain ⟨n, hn⟩ := hs
  refine ⟨fun hop => ?_, fun hop => exec_blocks hn hop hb⟩
  cases op with
  | submit r =>
    obtain rfl : r.clientId = c := of_decide_eq_true hop
    obtain ⟨y, hc⟩ := Book.returned hn fun _ => rfl
    exact iff_of_true (AddsNone.of_core (submit_blocked hg hb hc).2) rfl
  | submitPeg side offset qty oid cid cap =>
    cases hn
    exact submitPeg_adds_iff hw side offset qty oid cid cap
  | submitPegMid side offset qty oid cid cap =>
    cases hn
    exact submitPegMid_adds_iff hw side offset qty oid cid cap
  | submitBracket side e q tp sl cid =>
    obtain rfl : cid = c := of_decide_eq_true hop
    obtain ⟨y, hc⟩ := Book.returned hn fun _ => rfl
    exact iff_of_true (AddsNone.of_core (submitBracket_blocked hg hb hc)) rfl
  | massQuote qs cid =>
    obtain rfl : cid = c := of_decide_eq_true hop
    obtain ⟨y, hc⟩ := Book.returned hn fun _ => rfl
    exact iff_of_true (AddsNone.of_core (massQuote_blocked hg hb hc)) rfl
  | _ => cases hop

/-- Two fills within the window trip the protection of client 1; the rest of its quotes is cancelled and a
    new one is turned away. -/
theorem gates_hold_tripped : ∃ b x b', b.blocks 1 = true ∧
    Book.Step smallEnv b (.submit { side := .sell, priceTicks := 5, qty := 1, clientId := 1 }) x b' ∧
    AddsNone smallEnv b b' ∧ b'.blocks 1 = true := by
  have hrun : (Book.runIf smallEnv 10 (fun _ _ _ => true)
      [.setMmp 1 1 100, .submit { side := .sell, priceTicks := 3, qty := 1, clientId := 1 },
       .submit { side := .sell, priceTicks := 4, qty := 1, clientId := 1 },
       .submit { side := .sell, priceTicks := 5, qty := 1, clientId := 1 },
       .submit { side := .buy, priceTicks := 4, qty := 2, clientId := 2 }] (fresh smallEnv)).any
      (fun b => (Book.exec smallEnv 10 (.submit { side := .sell, priceTicks := 5, qty := 1, clientId := 1 }) b).any
        fun _ => b.blocks 1) = true := by
    decide +kernel
  obtain ⟨b, x, b', -, hr, hs, hf⟩ := Reach.ofRunThen (f := fun b _ _ => b.blocks 1) hrun
    fun _ _ _ _ => trivial
  have h := gates_hold_iff hr hf hs
  exact ⟨b, x, b', hf, hs, (h.1 rfl).mpr rfl, h.2 rfl⟩

/-- Trading is halted, but `submit_peg` does not ask: its order joins level 0. -/
theorem peg_passes_halt : ∃ b x b', Book.Reach smallEnv (fun _ _ _ => True) b ∧ b.gates.halted = true ∧
    Book.Step smallEnv b (.submitPeg .buy 0 5 0 1 0) x b' ∧ ¬ AddsNone smallEnv b b' := by
  have hrun : (Book.runIf smallEnv 10 (fun _ _ _ => true) [.halt] (fresh smallEnv)).any
      (fun b => (Book.exec smallEnv 10 (.submitPeg .buy 0 5 0 1 0) b).any fun y => b.gates.halted &&
        (b.core.queue smallEnv 0).isEmpty && (y.2.core.queue smallEnv 0).contains 0) = true := by
    decide +kernel
  obtain ⟨b, x, b', -, hr, hs, hf⟩ := Reach.ofRunThen
    (f := fun b _ b' => b.gates.halted && (b.core.queue smallEnv 0).isEmpty && (b'.core.queue smallEnv 0).contains 0)
    hrun fun _ _ _ _ => trivial
  simp only [Bool.and_eq_true, List.isEmpty_iff, List.contains_eq_mem, decide_eq_true_eq] at hf
  refine ⟨b, x, b', hr, hf.1.1, hs, fun hn => ?_⟩
  have h0 := hn 0 0 hf.2
  rw [hf.1.2] at h0
  cases h0

end HftLab.OrderBook
