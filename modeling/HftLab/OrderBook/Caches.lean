/-
  HftLab.OrderBook.Caches — the cached best prices, in every run.

  `best_bid_ticks_` and `best_ask_ticks_` are written by the scans that look for the next level, by an order that comes to rest,
  by a peg that is entered or moved, and by `clear`. Each of these writes a price of the grid, or the value that means there is
  none (`exec_onGrid`). The loops that start at a cached price therefore read levels of the grid only. For the price loop of
  `submit` this says when it ends (`matching_progresses_iff`).
-/

import HftLab.OrderBook.InFlight
import HftLab.OrderBook.Walk

namespace HftLab.OrderBook

open Lib

section

variable {V : Env} {b b' : Book} {p q : Int} {i n : Nat} {s : Side} {r : Request}
    {c d : Core} {sub : Book.Submitter} {res : AuctionResult} {ids : List Nat} {id : Nat} {x : Outcome}

theorem allocAs_best {oid : Nat} {f : Order → Order} (h : c.allocAs oid f = some (i, d)) : d.best = c.best := by
  unfold Core.allocAs Core.allocOrder at h
  split at h
  · cases h
  · rename_i j e he
    cases h
    split at he
    · cases he
    · cases he
      funext s
      cases s <;> rfl

/-! ## One write -/

theorem execMaker_onGrid (h : b.core.OnGrid V) (p : Int) (t ts i : Nat) (q : Int) :
    ((b.fillMaker V p t i q ts).settleMaker p t i q).core.OnGrid V := by
  refine h.of_best ?_
  unfold Book.settleMaker
  dsimp only
  split
  · unfold Book.refreshIceberg Core.refresh
    dsimp only
    split <;> rfl
  · split <;> rfl

theorem accept_onGrid (h : b.core.OnGrid V) (ha : b.accept V r = some (i, b')) : b'.core.OnGrid V := by
  unfold Book.accept at ha
  dsimp only at ha
  split at ha
  · cases ha
  · rename_i hc
    cases ha
    exact h.of_best (allocAs_best hc)

/-- A remainder that rests has a price of the grid. -/
theorem finish_onGrid (h : b.core.OnGrid V) (hf : b.finish V i = some b') : b'.core.OnGrid V := by
  unfold Book.finish at hf
  dsimp only at hf
  split at hf
  · cases hf
    exact h.of_best rfl
  · split at hf
    · cases hf
      exact h.of_best rfl
    · split at hf
      · rename_i hr
        cases hf
        have hprice : inRange V (b.order i).atRest.priceTicks := by
          unfold Order.atRest
          split <;> exact hr
        unfold Book.restOrder
        dsimp only
        split
        · exact h.of_best rfl
        · refine Core.OnGrid.raise ?_ _ hprice
          exact h.of_best rfl
      · cases hf

theorem cancelPendingStop_onGrid (h : b.core.OnGrid V) (i : Nat) : (b.cancelPendingStop i).2.core.OnGrid V := by
  unfold Book.cancelPendingStop
  split
  · exact h
  · exact h.of_best rfl

theorem submitStop_onGrid (h : b.core.OnGrid V) (side : Side) (trigger limit qty : Int) (oid cid : Nat) :
    (b.submitStop V side trigger limit qty oid cid).2.core.OnGrid V := by
  rcases submitStop_cases side trigger limit qty oid cid with he | ⟨i, f, c, hw⟩
  · rw [he]
    exact h
  · rw [hw.core]
    exact (h.of_best (allocAs_best hw.alloc)).of_best rfl

theorem enterPeg_onGrid (h : b.core.OnGrid V) (side : Side) (offset qty : Int) (oid cid : Nat) (cap price marker : Int) :
    (b.enterPeg V side offset qty oid cid cap price marker).2.core.OnGrid V := by
  unfold Book.enterPeg
  split
  · exact h
  · rename_i hr
    dsimp only
    split
    · exact h
    · rename_i i c ha
      have hc : c.OnGrid V := h.of_best (allocAs_best ha)
      refine Core.OnGrid.raise ?_ side (not_not.mp hr)
      exact hc.of_best rfl

/-! ## Every call -/

theorem Core.OnGrid.walk (V : Env) : Walk V fun b b' => b.core.OnGrid V → b'.core.OnGrid V where
  refl _ h := h
  trans h h' hb := h' (h hb)
  silent _ _ _ _ h := h
  note _ _ h := h
  execute _ p t ts i q h := execMaker_onGrid h p t ts i q
  internal h := h
  admission b r h := by
    obtain ⟨⟨g, a, he, -⟩, -⟩ := admission_spec (V := V) (b := b) (r := r)
    rw [he]
    exact h
  reject _ _ _ h := h
  accept ha h := accept_onGrid h ha
  finish hf h := finish_onGrid h hf
  cancelInternal _ i e h := cancelInternal_onGrid h i e
  cancelPendingStop _ i h := cancelPendingStop_onGrid h i
  submitStop _ side trigger limit qty oid cid h := submitStop_onGrid h side trigger limit qty oid cid
  enterPeg _ side offset qty oid cid cap price marker h := enterPeg_onGrid h side offset qty oid cid cap price marker
  auctionTake b p clearing i take ts h := by
    unfold Book.auctionTake
    dsimp only
    split <;> exact h.of_best rfl
  reduceInPlace _ _ _ _ h := h.of_best rfl
  releaseStop _ _ _ h := h.of_best rfl
  expireOrder b i h := (h.unlinked i (b.order i).side (b.order i).priceTicks).of_best rfl

theorem runClosingAuction_onGrid (h : b.core.OnGrid V) (hc : b.runClosingAuction V n = some (res, b')) : b'.core.OnGrid V := by
  have w := Core.OnGrid.walk V
  unfold Book.runClosingAuction at hc
  dsimp only at hc
  split at hc
  · cases hc
  · rename_i locIds b1 hloc
    have h1 := w.inject _ hloc h
    split at hc
    · cases hc
      exact h1
    · split at hc
      · cases hc
      · rename_i mocIds b3 hmoc
        have h3 := w.inject _ hmoc h1
        split at hc
        · cases hc
        · rename_i res' b5 hrun
          cases hc
          have h5 := w.runAuction hrun h3
          exact w.processOcoPending _ (w.cancelInjected (b5.cancelMocUnfilled V mocIds) locIds (w.cancelInjected b5 mocIds h5))

/-- A configuration call leaves the cached prices alone. -/
theorem config_best {op : Op} (hc : op.config) (h : Book.exec V n op b = some (x, b')) : b'.core.best = b.core.best := by
  cases op with
  | submitMoc s q cid =>
    cases h
    unfold Book.submitMoc
    split
    · rfl
    · split
      · rfl
      · funext u
        cases u <;> rfl
  | submitLoc s p q cid =>
    cases h
    unfold Book.submitLoc
    split
    · rfl
    · split
      · rfl
      · split
        · rfl
        · funext u
          cases u <;> rfl
  | setClientFirm c f =>
    cases h
    unfold Book.setClientFirm
    split
    · rfl
    · rfl
  | setMmp c k w =>
    cases h
    unfold Book.setMmp
    split
    · rfl
    · rfl
  | mmpReset c =>
    cases h
    unfold Book.mmpReset
    split
    · rfl
    · rfl
  | setAccountRateLimit c k r =>
    cases h
    unfold Book.setAccountRateLimit
    split
    · rfl
    · rfl
  | setIcebergRefreshJitterBps bps =>
    cases h
    split
    · rfl
    · rfl
  | cancelMoc | cancelLoc | setStpPolicy | setLuldBands | disableLuld | setLuldHaltToAuction | setTrailingRatchetOnMid
  | enableDeltaQueue | popDeltaQueue | halt | resume | haltForAuction | setAuctionMode | beginPreOpen | beginClosing =>
    cases h
    rfl
  | _ => cases hc

/-- Whatever the call, a cached best price is a price of the grid, or the value that means there is none. -/
theorem exec_onGrid {op : Op} (hg : b.core.OnGrid V) (h : Book.exec V n op b = some (x, b')) : b'.core.OnGrid V := by
  by_cases hop : op.walked
  · exact (Core.OnGrid.walk V).exec hop h hg
  by_cases hconf : op.config
  · exact hg.of_best (config_best hconf h)
  cases op with
  | runClosingAuction =>
    obtain ⟨y, hs⟩ := Book.returned h fun _ => rfl
    exact runClosingAuction_onGrid hg hs
  | resumeWithAuction | openMarket =>
    obtain ⟨y, hs⟩ := Book.returned h fun _ => rfl
    exact (Core.OnGrid.walk V).runAuction hs hg
  | closeMarket =>
    obtain ⟨y, hs⟩ := Book.returned h fun _ => rfl
    obtain ⟨⟨z, b2⟩, hclose, he⟩ := Option.map_eq_some_iff.mp hs
    cases he
    have hclosed := runClosingAuction_onGrid hg hclose
    exact hclosed
  | clear =>
    cases h
    exact onGrid_iff.mpr ⟨.inl rfl, .inl rfl⟩
  | _ => first | exact absurd rfl hop | exact absurd rfl hconf

end

/-- In every run the cached best prices are on the grid. -/
theorem Reach.onGrid {V : Env} {P : Book → Op → Book → Prop} {b : Book} (h : Book.Reach V P b) : b.core.OnGrid V := by
  induction h with
  | init => exact fun s => .inl (by cases s <;> rfl)
  | step hr hs _ ih =>
    obtain ⟨n, hn⟩ := hs
    exact exec_onGrid ih hn

/-- In every run a cached best price is a price of the grid, or the one that stands for none. -/
theorem cached_prices_on_grid {V : Env} {P : Book → Op → Book → Prop} {b : Book} (h : Book.Reach V P b) :
    (b.core.bestBid = NO_BID_TICKS ∨ inRange V b.core.bestBid) ∧ (b.core.bestAsk = NO_ASK_TICKS ∨ inRange V b.core.bestAsk) :=
  onGrid_iff.mp (Reach.onGrid h)

/-- A peg is entered and repriced. -/
theorem cached_prices_on_grid_small : ∃ b, Book.Reach smallEnv (fun _ _ _ => True) b ∧ inRange smallEnv b.core.bestBid := by
  have hrun : (Book.runIf smallEnv 20 (fun _ _ _ => true)
      [.submit { side := .buy, priceTicks := 3, qty := 2 }, .submitPeg .buy 1 2 0 0 7, .repricePegs] (fresh smallEnv)).any
        (fun b => decide (b.core.bestBid ≠ NO_BID_TICKS)) = true := by decide +kernel
  obtain ⟨b, -, hr, hf⟩ := Reach.ofRun hrun fun _ _ _ _ => trivial
  exact ⟨b, hr, (cached_prices_on_grid hr).1.resolve_left (of_decide_eq_true hf)⟩

/-! ## The price loop of `submit` -/

theorem startMatch_looping {V : Env} {b : Book} {r : Request} {t ts : Nat} {x : Int × Book}
    (h : Book.Reach V (fun _ op _ => op.entry = true) b) (hm : b.startMatch V r = some (t, ts, x)) :
    Looping V t x := by
  obtain ⟨hw, -⟩ := Reach.wf h
  obtain ⟨hs, b1, ha, -, -, rfl⟩ := startMatch_eq (Reach.continuous h) hm
  obtain ⟨hq, hid, -⟩ := screen_none hs
  have hw1 := (Act.accept r t hq hid ha : Act V .accept b b1).wf hw
  refine ⟨⟨hw1.of_core rfl rfl, ?_, le_rfl⟩, fun u => ?_⟩
  · show t ∈ b1.inFlight
    rw [accept_inFlight ha]
    exact List.mem_cons_self
  · show b1.core.best u = u.noBest ∨ inRange V (b1.core.best u)
    rw [(accept_unmoved hw ha).best]
    exact Reach.onGrid h u

/-- Matching makes progress in every iteration, and ends, exactly if no iteration starts at a level where
    orders rest that show nothing. -/
theorem matching_progresses_iff {V : Env} {b : Book} {r : Request} {t ts : Nat} {x : Int × Book}
    (h : Book.Reach V (fun _ op _ => op.entry = true) b) (hm : b.startMatch V r = some (t, ts, x)) :
    Progresses V t ts x ↔ NeverBarren V t ts x := progresses_iff (startMatch_looping h hm)

/-- An order that sweeps two levels: its price loop makes progress in every iteration. -/
theorem matching_progresses_small : ∃ b t ts x, Book.runIf smallEnv 20
      (fun b op b' => op.entry && op.lit && !b.crossed smallEnv && b.SumsFit smallEnv && !b'.log.any (Report.strands smallEnv))
      [.submit { side := .sell, priceTicks := 3, qty := 5 }, .submit { side := .sell, priceTicks := 4, qty := 5 }]
      (fresh smallEnv) = some b ∧
    b.startMatch smallEnv { side := .buy, priceTicks := 4, qty := 7 } = some (t, ts, x) ∧ Progresses smallEnv t ts x := by
  have hrun : (Book.runIf smallEnv 20
      (fun b op b' => op.entry && op.lit && !b.crossed smallEnv && b.SumsFit smallEnv && !b'.log.any (Report.strands smallEnv))
      [.submit { side := .sell, priceTicks := 3, qty := 5 }, .submit { side := .sell, priceTicks := 4, qty := 5 }]
      (fresh smallEnv)).any
      (fun b => (b.startMatch smallEnv { side := .buy, priceTicks := 4, qty := 7 }).isSome) = true := by decide +kernel
  obtain ⟨b, hb, hr, hsome⟩ := Reach.ofRun (P := fun b op b' => op.entry = true ∧ op.lit = true ∧ b.crossed smallEnv = false ∧
    b.SumsFit smallEnv ∧ b'.log.any (Report.strands smallEnv) = false) hrun fun b op b' h => by
      simp only [Bool.and_eq_true, decide_eq_true_eq, Bool.not_eq_true'] at h
      exact ⟨h.1.1.1.1, h.1.1.1.2, h.1.1.2, h.1.2, h.2⟩
  obtain ⟨⟨t, ts, x⟩, hm⟩ := Option.isSome_iff_exists.mp hsome
  have hentry : Book.Reach smallEnv (fun _ op _ => op.entry = true) b := Reach.mono (fun _ _ _ hp => hp.1) hr
  have hord := Reach.orderly (Reach.mono (fun _ _ _ hp => hp.2) hr)
  refine ⟨b, t, ts, x, hb, hm, (matching_progresses_iff hentry hm).mpr ?_⟩
  obtain ⟨-, b1, ha, -, -, hx⟩ := startMatch_eq hord.cont hm
  refine visible_neverBarren (startMatch_looping hentry hm) ?_
  rw [hx]
  exact (accept_unmoved hord.wf ha).visible hord.visible

/-- A HIDDEN SELL order is left alone at the best ask: the price loop of a BUY order never ends. -/
theorem hidden_order_stalls : ∃ b t ts x, Book.runIf smallEnv 20 (fun _ op _ => op.entry)
      [.submit { side := .sell, priceTicks := 3, qty := 5 },
       .submit { side := .sell, priceTicks := 3, qty := 5, type := .hidden }, .cancel 1] (fresh smallEnv) = some b ∧
    b.startMatch smallEnv { side := .buy, priceTicks := 3, qty := 2 } = some (t, ts, x) ∧
    (∀ n, Book.priceLoop smallEnv t ts n x.1 x.2 = none) ∧
    (∀ n, Book.submit smallEnv n { side := .buy, priceTicks := 3, qty := 2 } b = none) ∧
    ¬ Progresses smallEnv t ts x := by
  have hrun : (Book.runIf smallEnv 20 (fun _ op _ => op.entry)
      [.submit { side := .sell, priceTicks := 3, qty := 5 },
       .submit { side := .sell, priceTicks := 3, qty := 5, type := .hidden }, .cancel 1] (fresh smallEnv)).any
      (fun b => (b.startMatch smallEnv { side := .buy, priceTicks := 3, qty := 2 }).any fun (t, _, q, b) =>
        0 < q && b.nextLevel t = some 3 && b.barren smallEnv t 3 &&
          (b.core.queue smallEnv 3).all fun i => (b.order i).type ≠ .iceberg) = true := by decide +kernel
  obtain ⟨b, hb, hr, hsome⟩ := Reach.ofRun hrun fun _ _ _ h => h
  obtain ⟨⟨t, ts, x⟩, hm, hx⟩ := (Option.any_eq_true _ _).mp hsome
  simp only [Bool.and_eq_true, decide_eq_true_eq, List.all_eq_true] at hx
  obtain ⟨⟨⟨hpos, hn⟩, hbar⟩, hice⟩ := hx
  have hnone := stalled_forever ts (startMatch_looping hr hm) hpos hn hbar hice
  refine ⟨b, t, ts, x, hb, hm, hnone, submit_stuck (Reach.continuous hr) hm hnone, fun hp => ?_⟩
  obtain ⟨k, b', hk⟩ := hp.ends
  rw [hnone k] at hk
  cases hk

end HftLab.OrderBook
