/-
  HftLab.OrderBook.BetweenCalls — what holds of the OCO records and the ids of every book between two calls.

  - `Reach.mutual`: whoever has a partner is that partner's partner;
  - `Reach.idle`: no deferred cancel is left when a call returns;
  - `Reach.id_ne_zero`: no order has the id 0, which stands for no order.
-/

import HftLab.OrderBook.OcoCalls

namespace HftLab.OrderBook

open Lib Function

section

variable {V : Env} {b b' : Book} {i k n : Nat} {kd : Kind} {P : Book → Op → Book → Prop} {r : Outcome} {x : Nat × RejectReason}

/-! ## Partners -/

theorem Act.mutual (h : Act V kd b b') (hw : Wf V b) (hm : Mutual b.oco.partner) : Mutual b'.oco.partner := by
  have hsame : b'.oco = b.oco → Mutual b'.oco.partner := fun ho => ho ▸ hm
  by_cases hk : workKinds kd
  · cases h.effect hk hw with
    | same _ ho => exact hsame ho
    | gone k _ ho =>
      rw [ho]
      exact hm.complete k
    | come _ _ _ ho => exact hsame ho
  · cases h with
    | accept _ _ _ _ ha => exact hsame (Book.accept_rest ha).2.2.1
    | wait _ _ _ _ hwt => exact hsame hwt.frozen.oco
    | peg _ _ _ _ hp => exact hsame hp.frozen.oco
    | oco o ho =>
      cases ho with
      | pop | push => exact hm
      | link x y hne _ _ hx hy => exact hm.add hne hx hy
      | unlink x y hxy => exact hm.drop hxy
    | release | clear => exact hm
    | _ => exact absurd trivial hk

theorem exec_mutual {op : Op} (hw : Wf V b) (hm : Mutual b.oco.partner) (h : Book.exec V n op b = some (r, b')) :
    Mutual b'.oco.partner :=
  ((exec_does hw h).acts.keeps (I := fun c => Wf V c ∧ Mutual c.oco.partner) ⟨hw, hm⟩ fun _ ha hI =>
    ⟨ha.wf hI.1, ha.mutual hI.1 hI.2⟩).2

/-! ## Deferred cancels -/

theorem wf_kept (V : Env) : Kept V (Wf V) where
  wf := id
  act := fun _ ha hw => ha.wf hw
  round := fun hw => (ocoRound_does hw).wf hw
  enter := fun h0 hq ha hw => (Act.accept _ _ hq (fun hne => absurd h0 hne) ha).wf hw
  wait := fun hwt hw => (Act.wait 0 _ _ _ hwt).wf hw
  link := fun x y _ _ _ hw => (linkOco_does (K := quietKinds) x y trivial).wf hw

theorem submit_idle {r : Request} (hb : Rests (Wf V) b) (hs : Book.submit V n r b = some (x, b')) : Rests (Wf V) b' := by
  exact (wf_kept V).submit hb (fun i b1 hp ha hw => (admitted_act hp ha).wf hw) hs

theorem inject_idle (rs : List Request) {ids : List Nat} (hb : Rests (Wf V) b)
    (hs : Book.inject (Book.submit V n) rs b = some (ids, b')) : Rests (Wf V) b' := by
  induction rs generalizing b ids with
  | nil =>
    cases hs
    exact hb
  | cons r rs ih =>
    unfold Book.inject at hs
    split at hs
    · cases hs
    · rename_i hsub
      split at hs
      · cases hs
      · rename_i hrest
        cases hs
        exact ih (submit_idle hb hsub) hrest

theorem relinkOco_idle (hb : Rests (Wf V) b) (partner : Option Nat) (nid : Nat) : Rests (Wf V) (b.relinkOco V partner nid) := by
  have hw := (relinkOco_does partner nid hb.1).wf hb.1
  refine ⟨hw, ?_⟩
  unfold Book.relinkOco
  split
  · exact hb.2
  · rename_i y
    split
    · exact hb.2
    · split
      · exact hb.2.link nid y
      · split
        · exact processOcoPending_empties ((Act.oco _ (.push y) : Act V .oco b _).wf hb.1)
        · exact hb.2

/-- Unlinked, neither the order nor its partner has one. -/
theorem unlinkOco_alone (id : Nat) : (b.unlinkOco id).oco.partner id = none ∧
    ∀ y, b.oco.partner id = some y → (b.unlinkOco id).oco.partner y = none := by
  unfold Book.unlinkOco
  split
  · rename_i hn
    exact ⟨hn, fun y hy => by rw [hn] at hy; cases hy⟩
  · rename_i w hw
    show update (update b.oco.partner id none) w none id = none ∧
      ∀ y, b.oco.partner id = some y → update (update b.oco.partner id none) w none y = none
    refine ⟨?_, fun y hy => ?_⟩
    · by_cases e : id = w
      · rw [← e, update_self]
      · rw [update_of_ne e, update_self]
    · rw [hw] at hy
      cases hy
      rw [update_self]

/-- Unlinked first, the order leaves no cancel behind. -/
theorem unlinked_idle (hb : Rests (Wf V) b) (id i : Nat) (hid : (b.core.body i).id = id) (ht : Tracked V b i) :
    Rests (Wf V) ((b.unlinkOco id).cancelInternal V i false) ∧
      ((b.unlinkOco id).cancelInternal V i false).oco = (b.unlinkOco id).oco := by
  have hd : Does V quietKinds b (b.unlinkOco id) := unlinkOco_does id trivial
  have hw := hd.wf hb.1
  have hcore : (b.unlinkOco id).core = b.core := unlinkOco_core
  have hnone := (unlinkOco_alone (b := b) id).1
  have hpend : (b.unlinkOco id).OcoIdle := by
    unfold Book.unlinkOco
    split
    · exact hb.2
    · exact hb.2
  cases ha : ((b.unlinkOco id).order i).isActive with
  | false =>
    rw [Book.cancelInternal_of_inactive ha]
    exact ⟨⟨hw, hpend⟩, rfl⟩
  | true =>
    obtain ⟨p, hp⟩ : b.core.Queued V i := ht (by rw [← hcore]; exact ha)
    rw [← hcore] at hp
    have ho : ((b.unlinkOco id).cancelInternal V i false).oco = (b.unlinkOco id).oco := by
      rw [(cancelInternal_gone hw hp false).2, hcore, hid]
      unfold Oco.complete
      rw [hnone]
    exact ⟨⟨(Act.replace p i hp).wf hw, hpend.congr ho⟩, ho⟩

theorem modify_idle {id : Nat} {newPrice newQty : Int} (hb : Rests (Wf V) b) (hs : b.modify V n id newPrice newQty = some (x, b')) :
    Rests (Wf V) b' := by
  rcases modify_cases hs with ⟨-, -, rfl⟩ | ⟨i, hf, ⟨hin, -, rfl⟩ | ⟨-, hcr⟩⟩
  · exact hb
  · exact (wf_kept V).still (reduceInPlace_does trivial trivial hb.1 hf hin.2.1 hin.2.2) hb
  · have h1 := (unlinked_idle hb id i (hb.1.found hf).1 (hb.1.tracked_of_found hf)).1
    obtain ⟨b2, hsub, hre⟩ := cancelReplace_cases hcr
    exact (wf_kept V).rearmBracket (relinkOco_idle (submit_idle h1 hsub) _ _) hre

theorem stopLoop_idle (m k : Nat) (hb : Rests (Wf V) b) (hs : Book.stopLoop V (Book.submit V n) m k b = some b') :
    Rests (Wf V) b' := by
  induction m generalizing b k with
  | zero => cases hs
  | succ m ih =>
    unfold Book.stopLoop at hs
    cases hk : b.core.stopOrders[k]? with
    | none =>
      rw [hk] at hs
      cases hs
      exact hb
    | some i =>
      rw [hk] at hs
      dsimp only at hs
      have hi : i ∈ b.core.stopOrders := List.mem_of_getElem? hk
      have ht : Act V .touch b (b.ratchetStop V i) := .touch 0 i _ (.inl hi) rfl
      have h1 : Rests (Wf V) (b.ratchetStop V i) := ⟨ht.wf hb.1, hb.2⟩
      split at hs
      · split at hs
        · cases hs
        · rename_i y b2 hsub
          have hrel : Act V .release (b.ratchetStop V i) ((b.ratchetStop V i).releaseStop k i) := .release k i hk
          have h2 : Rests (Wf V) (((b.ratchetStop V i).releaseStop k i).setInternal true) :=
            (wf_kept V).still (setInternal_does true trivial) ⟨hrel.wf h1.1, h1.2⟩
          exact ih k ((wf_kept V).still (setInternal_does false trivial) (submit_idle h2 hsub)) hs
      · exact ih (k + 1) h1 hs

theorem runClosingAuction_idle {res : AuctionResult} (hb : Rests (Wf V) b) (hs : b.runClosingAuction V n = some (res, b')) :
    Rests (Wf V) b' := by
  have hI := wf_kept V
  unfold Book.runClosingAuction at hs
  dsimp only at hs
  split at hs
  · cases hs
  · rename_i b1 hloc
    have hstart : Rests (Wf V) ((b.setAuction true).setInternal true) :=
      hI.frozen hb (.of_core rfl rfl) ⟨rfl, rfl, rfl, rfl, rfl, rfl⟩ rfl rfl
    have h1 := inject_idle _ hstart hloc
    split at hs
    · cases hs
      exact hI.frozen h1 (.of_core rfl rfl) ⟨rfl, rfl, rfl, rfl, rfl, rfl⟩ rfl rfl
    · split at hs
      · cases hs
      · rename_i b2 hmoc
        have hlimits : Rests (Wf V) { b1 with closing := { b1.closing with locQueue := [] } } :=
          hI.frozen h1 (.of_core rfl rfl) ⟨rfl, rfl, rfl, rfl, rfl, rfl⟩ rfl rfl
        have h2 := inject_idle _ hlimits hmoc
        split at hs
        · cases hs
        · rename_i b3 hrun
          cases hs
          have h3 := hI.runAuction (b := ({ b2 with closing := { b2.closing with mocQueue := [] } }.setAuction false).setInternal false)
            (hI.frozen h2 (.of_core rfl rfl) ⟨rfl, rfl, rfl, rfl, rfl, rfl⟩ rfl rfl) hrun
          exact hI.processOcoPending (hI.cancelLocUnfilled _ (hI.cancelMocUnfilled _ h3.1))

theorem exec_idle {op : Op} (hb : Rests (Wf V) b) (hs : Book.exec V n op b = some (r, b')) : b'.OcoIdle := by
  have hI := wf_kept V
  have hi := hb.2
  have waits : ∀ (side : Side) (trigger limit qty : Int) (oid cid : Nat),
      Rests (Wf V) (b.submitStop V side trigger limit qty oid cid).2 := by
    intro side trigger limit qty oid cid
    rcases submitStop_cases side trigger limit qty oid cid with he | ⟨i, f, c, hwt⟩
    · rw [he]
      exact hb
    · exact ⟨(Act.wait oid i f c hwt).wf hb.1, hi.congr hwt.frozen.oco⟩
  have pegs : ∀ {c : Book} {oid : Nat}, (c = b ∨ ∃ i f d, Pegs V oid i f d b c) → c.OcoIdle := by
    intro c oid h
    rcases h with rfl | ⟨i, f, d, hp⟩
    · exact hi
    · exact hi.congr hp.frozen.oco
  by_cases hc : op.config
  · rcases exec_config hc hs with rfl | ha
    · exact hi
    · exact hi.congr (ha.oco_still trivial)
  cases op with
  | submit r =>
    obtain ⟨x, hsub⟩ := Book.returned hs fun _ => rfl
    exact (submit_idle hb hsub).2
  | cancel id =>
    cases hs
    exact (hI.cancel id hb).2
  | modify id p q =>
    obtain ⟨x, hm⟩ := Book.returned hs fun _ => rfl
    exact (modify_idle hb hm).2
  | submitStop s t l q oid cid =>
    cases hs
    exact (waits s t l q oid cid).2
  | submitTrailingStop s o l q oid cid =>
    cases hs
    rcases submitTrailingStop_cases (K := stillKinds) trivial s o l q oid cid with he | ⟨t, hd⟩
    · exact he.symm ▸ hi
    · exact (hI.still hd (waits s t l q oid cid)).2
  | checkStopTriggers =>
    obtain ⟨b1, hcheck, he⟩ := Option.map_eq_some_iff.mp hs
    cases he
    unfold Book.checkStopTriggers at hcheck
    split at hcheck
    · cases hcheck
      exact hi
    · exact (stopLoop_idle n 0 hb hcheck).2
  | submitPeg s o q oid cid cap =>
    cases hs
    exact pegs (submitPeg_cases s o q oid cid cap)
  | submitPegMid s o q oid cid cap =>
    cases hs
    exact pegs (submitPegMid_cases s o q oid cid cap)
  | repricePegs =>
    cases hs
    exact (hI.still (repricePegs_does trivial hb.1) hb).2
  | massCancel cid =>
    cases hs
    exact (hI.massCancel cid hb.1).2
  | massQuote qs cid =>
    obtain ⟨x, hq⟩ := Book.returned hs fun _ => rfl
    exact (hI.massQuote hb hq).2
  | submitBracket s e q tp sl cid =>
    obtain ⟨x, hbr⟩ := Book.returned hs fun _ => rfl
    exact (hI.submitBracket hb hbr).2
  | linkOco x y =>
    cases hs
    exact hi.link x y
  | unlinkOco x =>
    cases hs
    unfold Book.unlinkOco
    split
    · exact hi
    · exact hi
  | runAuction =>
    obtain ⟨x, hrun⟩ := Book.returned hs fun _ => rfl
    exact (hI.runAuction hb hrun).2
  | tryRunAuction k =>
    obtain ⟨x, hrun⟩ := Book.returned hs fun _ => rfl
    exact (hI.tryRunAuction hb hrun).2
  | runClosingAuction =>
    obtain ⟨x, hrun⟩ := Book.returned hs fun _ => rfl
    exact (runClosingAuction_idle hb hrun).2
  | expireGtd now =>
    cases hs
    exact (hI.expireGtd now hb.1).2
  | setExpiry id ts =>
    cases hs
    exact (hI.still (setExpiry_does trivial id ts) hb).2
  | clear =>
    cases hs
    exact hi
  | resumeWithAuction =>
    obtain ⟨x, hrun⟩ := Book.returned hs fun _ => rfl
    exact (hI.gatedAuction hb hrun).2
  | openMarket =>
    obtain ⟨x, hrun⟩ := Book.returned hs fun _ => rfl
    exact (hI.gatedAuction hb hrun).2
  | closeMarket =>
    obtain ⟨x, hrun⟩ := Book.returned hs fun _ => rfl
    obtain ⟨⟨y, b2⟩, hclose, he⟩ := Option.map_eq_some_iff.mp hrun
    cases he
    exact (runClosingAuction_idle hb hclose).2
  | _ => exact absurd rfl hc

/-! ## Ids -/

/-- No order is live or in flight under the id 0. -/
def Book.NoZero (V : Env) (b : Book) : Prop := ∀ i, b.Live V i ∨ i ∈ b.inFlight → (b.core.body i).id ≠ 0

theorem Act.noZero (h : Act V kd b b') (hw : Wf V b) (hn : b.core.nextOrderId ≠ 0) (h0 : b.NoZero V) : b'.NoZero V := by
  -- One new slot, with the id asked for or the next automatic one.
  have entered : ∀ {i : Nat}, Lawful V [i] b b' → (b'.core.body i).id ≠ 0 → b'.NoZero V := by
    intro i hl hid j hj
    by_cases e : j = i
    · rw [e]
      exact hid
    · have hout : j ∉ [i] := by simpa using e
      rw [hl.moves.body j hout]
      exact h0 j (hj.imp (hl.moves.live hout).mp (hl.moves.flight j hout).mp)
  have hnew : ∀ oid, b.core.newId oid ≠ 0 := newId_ne_zero hn
  by_cases hk : quietKinds kd
  · intro j hj
    rw [h.id_eq hk hw]
    rcases hj with hj | hj
    · cases h.traffic hk hw with
      | stay hsub _ => exact h0 j (.inl (hsub j hj))
      | leave i e _ _ hsub _ _ _ => exact h0 j (.inl (hsub j hj))
      | arrive i hi _ hsub _ =>
        rcases hsub j hj with rfl | hj
        · exact h0 j (.inr hi)
        · exact h0 j (.inl hj)
    · exact h0 j (.inr (h.flying_mem hk hj))
  · cases h with
    | accept r i hq _ ha =>
      refine entered (hw.accept hq ha) ?_
      rw [body_of_view (hw.accept_view ha)]
      simp only [View.setBody, update_self, Request.order]
      exact hnew r.orderId
    | wait oid i f c hwt =>
      have ha := hw.links.allocAs hwt.alloc
      obtain ⟨G, hfree, hl⟩ := ha.layout
      refine entered (hw.wait hfree hl ha.body ha.rest hwt.waiting hwt.core hwt.inFlight) ?_
      have hid : (f { id := b.core.newId oid }).strip.id = b.core.newId oid := hwt.id
      rw [body_of_view (hw.wait_view hwt.alloc hwt.core hwt.inFlight)]
      simp only [View.wait, update_self]
      rw [hid]
      exact hnew oid
    | peg oid i f c hp =>
      obtain ⟨x, y, hc⟩ := hp.core
      refine entered (hw.peg hp.alloc hp.resting hp.grid hc hp.inFlight) ?_
      have hid : (f { id := b.core.newId oid }).strip.id = b.core.newId oid := hp.id
      rw [body_of_view (hw.peg_view hp.alloc hp.grid hc hp.inFlight)]
      simp only [View.settle, update_self]
      rw [hid]
      exact hnew oid
    | clear =>
      obtain ⟨G, hl, hbody⟩ := Links.clear hw.links
      intro j hj
      rcases hj with (⟨p, hp⟩ | hs) | hx
      · rw [hl.queue_eq] at hp
        cases hp
      · cases hs
      · rw [hbody]
        exact h0 j (.inr hx)
    | _ => exact absurd trivial hk

/-! ## Runs -/

theorem fresh_calm (V : Env) : Calm V (fresh V) := by
  refine ⟨(fresh_settling V).named.registered, rfl, ?_, rfl⟩
  intro x y hxy
  cases hxy

theorem Reach.mutual (h : Book.Reach V P b) : Mutual b.oco.partner := by
  induction h with
  | init =>
    intro x y hxy
    cases hxy
  | step hr hs _ ih =>
    obtain ⟨n, hn⟩ := hs
    exact exec_mutual (Reach.wf hr).1 ih hn

theorem Reach.idle (h : Book.Reach V P b) : b.OcoIdle := by
  induction h with
  | init => rfl
  | step hr hs _ ih =>
    obtain ⟨n, hn⟩ := hs
    exact exec_idle ⟨(Reach.wf hr).1, ih⟩ hn

theorem Reach.noZero (h : Book.Reach V P b) : b.NoZero V := by
  induction h with
  | init =>
    have hnamed := (fresh_settling V).named
    intro i hi
    rcases hi with hi | hi
    · exact (hnamed.live i hi).2
    · cases hi
  | step hr hs _ ih =>
    obtain ⟨n, hn⟩ := hs
    have hw := (Reach.wf hr).1
    have h0 := Reach.nextOrderId_ne_zero hr
    refine ((exec_does hw hn).acts.keeps (I := fun c => Wf V c ∧ c.core.nextOrderId ≠ 0 ∧ c.NoZero V) ⟨hw, h0, ih⟩ ?_).2.2
    intro k c c' _ ha hI
    obtain ⟨hwc, hnc, hzc⟩ := hI
    exact ⟨ha.wf hwc, (Nat.pos_of_ne_zero hnc |>.trans_le (ha.nextOrderId_mono hwc)).ne', ha.noZero hwc hnc hzc⟩

/-- What is found is not found under 0. -/
theorem Reach.id_ne_zero (h : Book.Reach V P b) (hf : b.core.find k = some i) : k ≠ 0 := by
  obtain ⟨hid, hl⟩ := (Reach.wf h).1.found hf
  rw [← hid]
  exact Reach.noZero h i (.inl hl.symm)

end

/-- In every run links are mutual, and nothing that a call put off is left when it returns. -/
theorem oco_links_mutual {V : Env} {P : Book → Op → Book → Prop} {b : Book} (h : Book.Reach V P b) :
    Mutual b.oco.partner ∧ b.oco.pendingCancel = [] := ⟨Reach.mutual h, Reach.idle h⟩

/-- A resting order and a waiting stop. -/
theorem oco_links_mutual_small : ∃ b, Book.Reach smallEnv (fun _ _ _ => True) b ∧ b.oco.partner 7 = some 5 := by
  have hrun : (Book.runIf smallEnv 20 (fun _ _ _ => true)
      [.submit { side := .sell, priceTicks := 3, qty := 2, orderId := 5 },
       .submitStop .sell 1 1 2 7 0,
       .linkOco 5 7] (fresh smallEnv)).any (fun b => decide (b.oco.partner 5 = some 7)) = true := by decide +kernel
  obtain ⟨b, -, hr, hf⟩ := Reach.ofRun hrun fun _ _ _ _ => trivial
  exact ⟨b, hr, ((oco_links_mutual hr).1 5 7 (of_decide_eq_true hf)).1⟩

end HftLab.OrderBook
