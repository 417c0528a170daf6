/-
  HftLab.OrderBook.Walk — a relation that each write of the book keeps is kept by the calls.

  `Walk V R` lists the writes, one field each; every function of the source is made of them, so one theorem a function says
  that it keeps any such `R`. The calls that only set something up, and those about on-close orders, are left to `R`.
-/

import HftLab.OrderBook.BestPrice

namespace HftLab.OrderBook

open Lib

structure Walk (V : Env) (R : Book → Book → Prop) : Prop where
  refl : ∀ b, R b b
  trans : ∀ {b b' b''}, R b b' → R b' b'' → R b b''
  /-- Neither the gates nor what the readers of the book get is written; a cached price stays on the grid. -/
  silent : ∀ {b b'}, b'.gates = b.gates → b'.closing = b.closing → b'.tape.events = b.tape.events → b'.log = b.log →
    (b.core.OnGrid V → b'.core.OnGrid V) → R b b'
  note : ∀ b e, R b (b.note e)
  execute : ∀ b p t ts i q, R b ((b.fillMaker V p t i q ts).settleMaker p t i q)
  internal : ∀ {b b'}, R (b.setInternal true) b' → R b (b'.setInternal false)
  admission : ∀ b r, R b (b.admission V r).2
  reject : ∀ b r why, R b (b.reject r why)
  accept : ∀ {b b' r i}, b.accept V r = some (i, b') → R b b'
  finish : ∀ {b b' i}, b.finish V i = some b' → R b b'
  cancelInternal : ∀ b i e, R b (b.cancelInternal V i e)
  cancelPendingStop : ∀ b i, R b (b.cancelPendingStop i).2
  submitStop : ∀ b side trigger limit qty oid cid, R b (b.submitStop V side trigger limit qty oid cid).2
  enterPeg : ∀ b side offset qty oid cid cap price marker, R b (b.enterPeg V side offset qty oid cid cap price marker).2
  auctionTake : ∀ b p clearing i take ts, R b (b.auctionTake p clearing i take ts)
  reduceInPlace : ∀ b id i q, R b (b.reduceInPlace id i q)
  releaseStop : ∀ b k i, R b (b.releaseStop k i)
  expireOrder : ∀ b i, R b (b.expireOrder V i)

/-- Every call of `sub` that returns keeps `R`. -/
def Book.Submitter.Keeps (R : Book → Book → Prop) (sub : Book.Submitter) : Prop := ∀ r b x b', sub r b = some (x, b') → R b b'

/-- The calls that are made of the writes of a walk. -/
def Op.walked : Op → Bool
  | .clear | .runClosingAuction | .resumeWithAuction | .openMarket | .closeMarket => false
  | op => !op.config

namespace Walk

variable {V : Env} {R : Book → Book → Prop} {b b' : Book} {n : Nat} {sub : Book.Submitter} (w : Walk V R)
    {α : Type} {res : AuctionResult} {ids : List Nat} {id cid : Nat}

include w

theorem foldl {f : Book → α → Book} (hf : ∀ b x, R b (f b x)) (l : List α) (b : Book) : R b (l.foldl f b) := by
  induction l generalizing b with
  | nil => exact w.refl b
  | cons x l ih => exact w.trans (hf b x) (ih _)

/-- A fold that carries something along with the book. -/
theorem foldl_with {σ : Type} {f : σ × Book → α → σ × Book} (hf : ∀ s x, R s.2 (f s x).2) (l : List α) (s : σ × Book) :
    R s.2 (l.foldl f s).2 := by
  induction l generalizing s with
  | nil => exact w.refl s.2
  | cons x l ih => exact w.trans (hf s x) (ih _)

/-! ## The deferred work -/

theorem ask (b : Book) : R b { b with asked := b.asked + 1 } := w.silent rfl rfl rfl rfl id

theorem cancelAny (b : Book) (i : Nat) : R b (b.cancelAny V i) := by
  unfold Book.cancelAny
  split
  · exact w.cancelPendingStop b i
  · exact w.cancelInternal b i true

theorem ocoRounds (n : Nat) (b : Book) : R b (Book.ocoRounds V n b) := by
  induction n generalizing b with
  | zero => exact w.refl b
  | succ n ih =>
    unfold Book.ocoRounds
    split
    · exact w.refl b
    · refine w.trans ?_ (ih _)
      unfold Book.ocoRound
      split
      · exact w.refl b
      · have hpop : R b { b with oco := { b.oco with pendingCancel := b.oco.pendingCancel.dropLast } } := w.silent rfl rfl rfl rfl id
        dsimp only
        split
        · exact hpop
        · exact w.trans hpop (w.cancelAny _ _)

theorem processOcoPending (b : Book) : R b (b.processOcoPending V) := w.ocoRounds _ b

theorem massCancel (b : Book) (cid : Nat) : R b (b.massCancel V cid).2 := by
  refine w.trans ?_ (w.processOcoPending _)
  refine w.trans (w.trans (w.ask b) (w.foldl (fun b i => w.cancelInternal b i true) _ _)) (w.foldl_with (fun s i => ?_) _ (_, _))
  exact w.cancelPendingStop s.2 i

theorem processMmpPending (b : Book) : R b (b.processMmpPending V) := by
  unfold Book.processMmpPending
  generalize b.mmpPendingTrips.length = n
  induction n generalizing b with
  | zero => exact w.refl b
  | succ n ih =>
    unfold Book.mmpRounds
    split
    · exact w.refl b
    · have hpop : R b { b with mmpPendingTrips := b.mmpPendingTrips.dropLast } := w.silent rfl rfl rfl rfl id
      exact w.trans (w.trans hpop (w.massCancel _ _)) (ih _)

theorem linkOco (b : Book) (x y : Nat) : R b (b.linkOco x y).2 := by
  unfold Book.linkOco
  split
  · exact w.refl b
  · split
    · exact w.refl b
    · split
      · exact w.refl b
      · exact w.silent rfl rfl rfl rfl id

theorem unlinkOco (b : Book) (x : Nat) : R b (b.unlinkOco x) := by
  unfold Book.unlinkOco
  split
  · exact w.refl b
  · exact w.silent rfl rfl rfl rfl id

/-! ## submit -/

theorem visitMaker (b : Book) (p : Int) (t ts i : Nat) (q : Int) :
    (∀ q' b', b.visitMaker V p t ts i q = .stop q' b' → R b b') ∧
    (∀ m q' b', b.visitMaker V p t ts i q = .next m q' b' → R b b') := by
  unfold Book.visitMaker Book.execMaker
  dsimp only
  split
  · split
    · refine ⟨fun q' b' h => ?_, fun m q' b' h => (by cases h)⟩
      cases h
      exact w.note b _
    · refine ⟨fun q' b' h => (by cases h), fun m q' b' h => ?_⟩
      cases h
      exact w.trans (w.note b _) (w.cancelInternal _ i true)
    · refine ⟨fun q' b' h => ?_, fun m q' b' h => (by cases h)⟩
      cases h
      exact w.trans (w.trans (w.note b _) (w.note _ _)) (w.cancelInternal _ i true)
    · refine ⟨fun q' b' h => (by cases h), fun m q' b' h => ?_⟩
      cases h
      exact w.execute b p t ts i _
  · refine ⟨fun q' b' h => (by cases h), fun m q' b' h => ?_⟩
    cases h
    exact w.execute b p t ts i _

theorem matchAtLevel {p q q' : Int} {t ts : Nat} {m : Option Nat} (h : Book.matchAtLevel V p t ts n m q b = some (q', b')) : R b b' :=
  matchAtLevel_rule (I := fun _ _ d => R b d) (J := fun _ d => R b d)
    (fun i q d m q' d' hd _ hv => w.trans hd ((w.visitMaker d p t ts i q).2 m q' d' hv))
    (fun i q d q' d' hd _ hv => w.trans hd ((w.visitMaker d p t ts i q).1 q' d' hv))
    (fun _ _ _ hd _ => hd) n m q b q' b' (w.refl b) h

theorem matching {i : Nat} (h : b.matchAgainst V n i = some b') : R b b' := by
  refine priceLoop_rule (I := fun _ d => R b d) (J := R b) (fun n q c p q' d hc _ _ hm => ?_) (fun _ _ hc _ => hc) n _ _ b' (w.ask b) h
  refine w.trans (w.trans hc (w.matchAtLevel hm)) ?_
  obtain ⟨x, y, he⟩ := advanceBest_eq (d.order i).side
  have hgrid := advanceBest_onGrid (V := V) (b := d) (s := (d.order i).side) (p := p)
  rw [he] at hgrid ⊢
  exact w.silent rfl rfl rfl rfl hgrid

theorem armBracketExits (hsub : sub.Keeps R) {s : BracketSpec} (h : b.armBracketExits V sub s = some b') : R b b' := by
  unfold Book.armBracketExits at h
  split at h
  · cases h
  · rename_i tp _ b1 hs
    have harm := w.internal (w.trans (hsub _ _ _ _ hs) (w.submitStop b1 s.exitSide s.slTriggerTicks 0 s.qty 0 s.clientId))
    dsimp only at h
    split at h
    · cases h
      exact w.trans harm (w.linkOco _ _ _)
    · cases h
      exact harm

theorem processBracketPending (hsub : sub.Keeps R) (n : Nat) (h : Book.processBracketPending V sub n b = some b') : R b b' := by
  induction n generalizing b with
  | zero => cases h
  | succ n ih =>
    unfold Book.processBracketPending at h
    split at h
    · cases h
      exact w.refl _
    · split at h
      · cases h
      · rename_i b1 harm
        have hpop : R b { b with brackets := { b.brackets with pending := b.brackets.pending.dropLast } } :=
          w.silent rfl rfl rfl rfl id
        exact w.trans (w.trans hpop (w.armBracketExits hsub harm)) (ih h)

theorem matchAndProcess (hsub : sub.Keeps R) {i : Nat} (h : b.matchAndProcess V sub n i = some b') : R b b' := by
  unfold Book.matchAndProcess at h
  split at h
  · cases h
  · rename_i b1 hm
    split at h
    · cases h
    · rename_i b2 hp
      cases h
      have hoco := w.trans (w.matching hm) (w.processOcoPending b1)
      exact w.trans (w.trans hoco (w.processBracketPending hsub n hp)) (w.processMmpPending b2)

theorem submitWith (hsub : sub.Keeps R) (n : Nat) : Book.Submitter.Keeps R (Book.submitWith V sub n) := by
  intro r b x b' h
  have hadm := w.admission b r
  unfold Book.submitWith at h
  split at h
  · rename_i why b1 he
    cases h
    rw [he] at hadm
    exact w.trans hadm (w.reject b1 r why)
  · rename_i b1 he
    rw [he] at hadm
    split at h
    · cases h
      exact w.trans hadm (w.reject b1 r _)
    · rename_i i b2 ha
      split at h
      · cases h
      · rename_i b3 hm
        split at h
        · cases h
        · rename_i b4 hf
          cases h
          refine w.trans (w.trans (w.trans hadm (w.accept ha)) ?_) (w.finish hf)
          split at hm
          · exact w.matchAndProcess hsub hm
          · cases hm
            exact w.refl b2

theorem submit (n : Nat) : Book.Submitter.Keeps R (Book.submit V n) := by
  induction n with
  | zero =>
    intro r b x b' h
    cases h
  | succ n ih => exact w.submitWith ih n

/-! ## Auctions -/

theorem executeAuction (b : Book) (lo hi clearing matched : Int) : R b (b.executeAuction V lo hi clearing matched) := by
  have hvisit : ∀ side p ts (s : Int × Book) i, R s.2 (Book.auctionVisit side p clearing ts s i).2 := by
    intro side p ts s i
    unfold Book.auctionVisit
    dsimp only
    split
    · exact w.auctionTake _ _ _ _ _ _
    · exact w.refl _
  have hlevel : ∀ side ts (s : Int × Book) p, R s.2 (Book.auctionLevel V side clearing ts s p).2 := by
    intro side ts s p
    unfold Book.auctionLevel
    split
    · exact w.foldl_with (hvisit side p ts) _ s
    · exact w.refl _
  have hbuy := w.foldl_with (hlevel .buy (b.monoNsNow V).1) (Book.auctionPrices .buy lo hi clearing) (matched, (b.monoNsNow V).2)
  have hsell := w.foldl_with (hlevel .sell (b.monoNsNow V).1) (Book.auctionPrices .sell lo hi clearing) (matched,
    ((Book.auctionPrices .buy lo hi clearing).foldl (Book.auctionLevel V .buy clearing (b.monoNsNow V).1)
      (matched, (b.monoNsNow V).2)).2)
  refine w.trans (w.trans (w.trans (w.ask b) hbuy) hsell) (w.silent rfl rfl rfl rfl fun h => ?_)
  exact (h.refreshBest .buy (V.LEVELS - 1)).refreshBest .sell 0

theorem sweepGtx (b : Book) : R b (b.sweepGtx V) := by
  exact w.trans (w.ask b) (w.foldl (fun b i => w.cancelInternal b i true) _ _)

theorem runAuction (h : b.runAuction V n = some (res, b')) : R b b' := by
  unfold Book.runAuction at h
  dsimp only at h
  split at h
  · split at h
    · cases h
    · rename_i b1 hp
      cases h
      have hexits := w.processBracketPending (w.submit n) n hp
      exact w.trans (w.trans (w.trans (w.executeAuction b _ _ _ _) (w.sweepGtx _)) (w.processOcoPending _)) hexits
  · cases h
    exact w.refl b

theorem tryRunAuction {k : Int} (h : b.tryRunAuction V n k = some (res, b')) : R b b' := by
  unfold Book.tryRunAuction at h
  dsimp only at h
  split at h
  · split at h
    · cases h
      exact w.refl b
    · exact w.runAuction h
  · cases h
    exact w.refl b

theorem inject (rs : List Request) (h : Book.inject (Book.submit V n) rs b = some (ids, b')) : R b b' := by
  induction rs generalizing b ids with
  | nil =>
    cases h
    exact w.refl _
  | cons r rs ih =>
    unfold Book.inject at h
    split at h
    · cases h
    · rename_i hs
      split at h
      · cases h
      · rename_i hrest
        cases h
        exact w.trans (w.submit n _ _ _ _ hs) (ih hrest)

theorem cancelInjected (b : Book) (ids : List Nat) : R b (b.cancelInjected V ids).2 := by
  refine w.foldl_with (fun s id => ?_) ids (0, b)
  dsimp only
  split
  · exact w.refl _
  · exact w.cancelInternal _ _ _

/-! ## The other calls -/

theorem cancel (b : Book) (id : Nat) : R b (b.cancel V id).2 := by
  unfold Book.cancel
  split
  · exact w.refl b
  · split
    · exact w.trans (w.cancelPendingStop _ _) (w.processOcoPending _)
    · exact w.trans (w.cancelInternal _ _ _) (w.processOcoPending _)

theorem relinkOco (b : Book) (partner : Option Nat) (nid : Nat) : R b (b.relinkOco V partner nid) := by
  unfold Book.relinkOco
  split
  · exact w.refl b
  · split
    · exact w.refl b
    · split
      · exact w.linkOco _ _ _
      · split
        · refine w.trans ?_ (w.processOcoPending _)
          exact w.silent rfl rfl rfl rfl id
        · exact w.refl b

theorem rearmBracket {spec : Option BracketSpec} {nid : Nat} (h : b.rearmBracket V n spec nid = some b') : R b b' := by
  unfold Book.rearmBracket at h
  split at h
  · cases h
    exact w.refl b
  · split at h
    · cases h
      exact w.refl b
    · split at h
      · cases h
        exact w.silent rfl rfl rfl rfl id
      · refine w.trans ?_ (w.processBracketPending (w.submit n) n h)
        exact w.silent rfl rfl rfl rfl id

theorem modify {p q : Int} {x : Nat × RejectReason} (h : b.modify V n id p q = some (x, b')) : R b b' := by
  rcases modify_cases h with ⟨-, -, rfl⟩ | ⟨i, -, ⟨-, -, rfl⟩ | ⟨-, hcr⟩⟩
  · exact w.refl _
  · exact w.reduceInPlace _ _ _ _
  · obtain ⟨b1, hs, hr⟩ := cancelReplace_cases hcr
    have hnew := w.trans (w.trans (w.unlinkOco _ _) (w.cancelInternal _ _ _)) (w.submit n _ _ _ _ hs)
    exact w.trans (w.trans hnew (w.relinkOco _ _ _)) (w.rearmBracket hr)

theorem stopLoop (m k : Nat) (h : Book.stopLoop V (Book.submit V n) m k b = some b') : R b b' := by
  induction m generalizing b k with
  | zero => cases h
  | succ m ih =>
    unfold Book.stopLoop at h
    split at h
    · cases h
      exact w.refl _
    · rename_i i _
      have hratchet : R b (b.ratchetStop V i) := w.silent rfl rfl rfl rfl id
      dsimp only at h
      split at h
      · split at h
        · cases h
        · rename_i hs
          have hfired := w.trans (w.releaseStop (b.ratchetStop V i) k i) (w.internal (w.submit n _ _ _ _ hs))
          exact w.trans (w.trans hratchet hfired) (ih k h)
      · exact w.trans hratchet (ih (k + 1) h)

theorem checkStopTriggers (h : b.checkStopTriggers V n = some b') : R b b' := by
  unfold Book.checkStopTriggers at h
  split at h
  · cases h
    exact w.refl _
  · exact w.stopLoop n 0 h

theorem submitAll (rs : List Request) (h : Book.submitAll (Book.submit V n) rs b = some (ids, b')) : R b b' := by
  induction rs generalizing b ids with
  | nil =>
    cases h
    exact w.refl _
  | cons r rs ih =>
    unfold Book.submitAll at h
    split at h
    · cases h
    · rename_i hs
      obtain ⟨⟨ids', b2⟩, hrest, he⟩ := Option.map_eq_some_iff.mp h
      cases he
      exact w.trans (w.submit n _ _ _ _ hs) (ih hrest)

theorem submitBracket {side : Side} {entryPrice qty tpPrice slTrigger : Int}
    (h : b.submitBracket V n side entryPrice qty tpPrice slTrigger cid = some (id, b')) : R b b' := by
  unfold Book.submitBracket at h
  dsimp only at h
  split at h
  · cases h
  · rename_i hs
    have hentry := w.submit n _ _ _ _ hs
    split at h
    · cases h
      exact hentry
    · split at h
      · obtain ⟨b2, harm, he⟩ := Option.map_eq_some_iff.mp h
        cases he
        exact w.trans hentry (w.armBracketExits (w.submit n) harm)
      · cases h
        exact w.trans hentry (w.silent rfl rfl rfl rfl fun h => h)

theorem massQuote {quotes : List Quote} {x : Nat × List Nat} (h : b.massQuote V n quotes cid = some (x, b')) : R b b' := by
  unfold Book.massQuote at h
  split at h
  · cases h
    exact w.refl b
  · split at h
    · obtain ⟨y, hs, he⟩ := Option.map_eq_some_iff.mp h
      cases he
      exact w.submitAll _ hs
    · cases h
      exact w.refl b

theorem submitTrailingStop (b : Book) (side : Side) (offset limit qty : Int) (oid cid : Nat) :
    R b (b.submitTrailingStop V side offset limit qty oid cid).2 := by
  unfold Book.submitTrailingStop
  split
  · exact w.refl b
  · split
    · exact w.refl b
    · split
      · exact w.refl b
      · split
        · exact w.refl b
        · have hstop := w.submitStop b side (Book.trailTrigger side b.trailReference offset) limit qty oid cid
          dsimp only
          split
          · exact hstop
          · refine w.trans hstop ?_
            unfold Book.setTrail
            split
            · exact w.refl _
            · exact w.silent rfl rfl rfl rfl id

theorem submitPeg (b : Book) (side : Side) (offset qty : Int) (oid cid : Nat) (cap : Int) :
    R b (b.submitPeg V side offset qty oid cid cap).2 := by
  unfold Book.submitPeg
  split
  · exact w.refl b
  · split
    · exact w.refl b
    · exact w.enterPeg ..

theorem submitPegMid (b : Book) (side : Side) (offset qty : Int) (oid cid : Nat) (cap : Int) :
    R b (b.submitPegMid V side offset qty oid cid cap).2 := by
  unfold Book.submitPegMid
  split
  · exact w.refl b
  · split
    · exact w.refl b
    · split
      · exact w.refl b
      · exact w.enterPeg ..

theorem repricePegs (b : Book) : R b (b.repricePegs V) := by
  refine w.foldl (fun b i => ?_) _ b
  unfold Book.repricePeg
  dsimp only
  split
  · exact w.refl b
  · split
    · exact w.refl b
    · split
      · exact w.refl b
      · rename_i hcond
        rw [not_or, not_not] at hcond
        refine w.silent rfl rfl rfl rfl fun h => Core.OnGrid.follow ?_ (b.order i).side hcond.1
        exact (h.unlinked i (b.order i).side (b.order i).priceTicks).of_best rfl

theorem expireGtd (b : Book) (now : Nat) : R b (b.expireGtd V now).2 := by
  exact w.trans (w.trans (w.ask b) (w.foldl (fun b i => w.expireOrder b i) _ _)) (w.processOcoPending _)

theorem setExpiry (b : Book) (id ts : Nat) : R b (b.setExpiry id ts) := by
  unfold Book.setExpiry
  split
  · exact w.refl b
  · exact w.silent rfl rfl rfl rfl fun h => h

theorem exec {op : Op} {x : Outcome} (hop : op.walked) (h : Book.exec V n op b = some (x, b')) : R b b' := by
  cases op with
  | submit r =>
    obtain ⟨y, hs⟩ := Book.returned h fun _ => rfl
    exact w.submit n _ _ _ _ hs
  | cancel id =>
    cases h
    exact w.cancel b id
  | modify id p q =>
    obtain ⟨y, hs⟩ := Book.returned h fun _ => rfl
    exact w.modify hs
  | submitStop s t l q oid cid =>
    cases h
    exact w.submitStop b s t l q oid cid
  | submitTrailingStop s o l q oid cid =>
    cases h
    exact w.submitTrailingStop b s o l q oid cid
  | checkStopTriggers =>
    obtain ⟨b1, hs, he⟩ := Option.map_eq_some_iff.mp h
    cases he
    exact w.checkStopTriggers hs
  | submitPeg s o q oid cid cap =>
    cases h
    exact w.submitPeg b s o q oid cid cap
  | submitPegMid s o q oid cid cap =>
    cases h
    exact w.submitPegMid b s o q oid cid cap
  | repricePegs =>
    cases h
    exact w.repricePegs b
  | massCancel cid =>
    cases h
    exact w.massCancel b cid
  | massQuote qs cid =>
    obtain ⟨y, hs⟩ := Book.returned h fun _ => rfl
    exact w.massQuote hs
  | submitBracket s e q tp sl cid =>
    obtain ⟨y, hs⟩ := Book.returned h fun _ => rfl
    exact w.submitBracket hs
  | linkOco x y =>
    cases h
    exact w.linkOco b x y
  | unlinkOco x =>
    cases h
    exact w.unlinkOco b x
  | runAuction =>
    obtain ⟨y, hs⟩ := Book.returned h fun _ => rfl
    exact w.runAuction hs
  | tryRunAuction k =>
    obtain ⟨y, hs⟩ := Book.returned h fun _ => rfl
    exact w.tryRunAuction hs
  | expireGtd now =>
    cases h
    exact w.expireGtd b now
  | setExpiry id ts =>
    cases h
    exact w.setExpiry b id ts
  | _ => cases hop

end Walk

end HftLab.OrderBook
