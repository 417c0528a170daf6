/-
  HftLab.OrderBook.Departures — an order leaves the index with a report.

  `Sole V k b`: the index names the one live order with id `k`, if there is one, and no order in flight has that id.
  `Traced V k b₀ b`: since `b₀` the id `k` is still that of the same order, or the order is gone and a report of the time
  says how it ended. A call that enters orders under automatic ids only keeps the trace of an older id (`traced_kept`).
-/

import HftLab.OrderBook.OcoPairs

namespace HftLab.OrderBook

open Lib List

structure Sole (V : Env) (k : Nat) (b : Book) : Prop where
  live : ∀ j, b.Live V j → (b.core.body j).id = k → b.core.find k = some j
  flying : ∀ j ∈ b.inFlight, (b.core.body j).id ≠ k

structure Traced (V : Env) (k : Nat) (b₀ b : Book) : Prop where
  wf : Wf V b
  sole : Sole V k b
  past : k < b.core.nextOrderId
  log : ∃ l, b.log = l ++ b₀.log ∧
    (b.core.find k = b₀.core.find k ∨ b.core.find k = none ∧ ∃ e ∈ l, e.ends k = true)

section

variable {V : Env} {b₀ b b' : Book} {k i : Nat} {kd : Kind}

/-- Reports are only added. -/
theorem Act.log_suffix (h : Act V kd b b') (hk : quietKinds kd) (hw : Wf V b) : b.log <:+ b'.log := by
  have hsame : ∀ {l : List Report}, b'.log = l ++ b.log → b.log <:+ b'.log := fun hl => ⟨_, hl.symm⟩
  cases h with
  | aux _ hf _ _ => exact hsame (l := []) hf.log
  | config _ _ _ hl _ _ => exact hsame (l := []) hl
  | exec p t ts i qty hm => exact hsame (l := [_]) Book.executed_log
  | cancel p i hi => exact hsame (l := [_]) (Book.cancelInternal_rest true (hw.resting hi).active).1
  | replace p i hi => exact hsame (l := [_]) (Book.cancelInternal_rest false (hw.resting hi).active).1
  | unwait i hi =>
    unfold Book.cancelPendingStop
    split
    · exact suffix_rfl
    · exact suffix_cons _ _
  | rest i _ _ _ => exact hsame (l := [_]) Book.restOrder_log
  | auction p clearing i take ts _ _ _ => exact hsame (l := [_]) (b.auctionTake_log p clearing i take ts)
  | reprice | touch | oco | bracket => exact suffix_rfl
  | stpAbort | stpCancel | finishFilled | finishIoc | reduce | reduceStop | release | expire => exact suffix_cons _ _
  | accept | wait | peg | clear => cases hk

/-! ## Steps that let no order in -/

theorem Sole.traffic (h : Sole V k b) (ht : Traffic V b b') (hid : ∀ j, (b'.core.body j).id = (b.core.body j).id)
    (hx : ∀ j ∈ b'.inFlight, j ∈ b.inFlight) : Sole V k b' ∧ (b'.core.find k = b.core.find k ∨
      b'.core.find k = none ∧ ∃ e, b'.log = e :: b.log ∧ e.ends k) := by
  have hfly : ∀ j ∈ b'.inFlight, (b'.core.body j).id ≠ k := fun j hj => hid j ▸ h.flying j (hx j hj)
  cases ht with
  | stay hsub hidx =>
    have hf : b'.core.find k = b.core.find k := congrFun (find_congr hidx) k
    refine ⟨⟨fun j hl hj => ?_, hfly⟩, .inl hf⟩
    rw [hf]
    exact h.live j (hsub j hl) (hid j ▸ hj)
  | leave i e hl hgone hsub hidx hlog he =>
    by_cases hik : (b.core.body i).id = k
    · have hf : b'.core.find k = none := by
        rw [find_erased hidx, if_pos hik.symm]
      refine ⟨⟨fun j hl' hj => ?_, hfly⟩, .inr ⟨hf, e, hlog, hik ▸ he⟩⟩
      -- the one live order with the id is the one that left
      have hj' := h.live j (hsub j hl') (hid j ▸ hj)
      rw [h.live i hl hik] at hj'
      cases hj'
      exact absurd hl' hgone
    · have hf : b'.core.find k = b.core.find k := by
        rw [find_erased hidx, if_neg fun hc => hik hc.symm]
      refine ⟨⟨fun j hl' hj => ?_, hfly⟩, .inl hf⟩
      rw [hf]
      exact h.live j (hsub j hl') (hid j ▸ hj)
  | arrive i hi _ hsub hidx =>
    have hf : b'.core.find k = b.core.find k := find_inserted hidx fun hc => h.flying i hi hc.symm
    refine ⟨⟨fun j hl hj => ?_, hfly⟩, .inl hf⟩
    rw [hf]
    rw [hid j] at hj
    rcases hsub j hl with rfl | hl
    · exact absurd hj (h.flying j hi)
    · exact h.live j hl hj

/-- The trace goes on over a step that leaves the id to its order, or ends the order and says so. -/
theorem Traced.next (h : Traced V k b₀ b) (hw : Wf V b') (hs : Sole V k b') (hn : b.core.nextOrderId ≤ b'.core.nextOrderId)
    (hlog : b.log <:+ b'.log) (hf : b'.core.find k = b.core.find k ∨
      b'.core.find k = none ∧ ∃ e, b'.log = e :: b.log ∧ e.ends k) : Traced V k b₀ b' := by
  refine ⟨hw, hs, h.past.trans_le hn, ?_⟩
  obtain ⟨l, hl, hk⟩ := h.log
  obtain ⟨l', hl'⟩ := hlog
  refine ⟨l' ++ l, by rw [← hl', hl, append_assoc], ?_⟩
  rcases hf with hf | ⟨hf, e, he, hends⟩
  · rw [hf]
    refine hk.imp id fun hgone => ⟨hgone.1, ?_⟩
    obtain ⟨e, he, hends⟩ := hgone.2
    exact ⟨e, mem_append_right _ he, hends⟩
  · have hl1 : l' = [e] := by
      rw [he] at hl'
      exact append_cancel_right hl'
    refine .inr ⟨hf, e, ?_, hends⟩
    rw [hl1]
    exact mem_cons_self

theorem Traced.refl (hw : Wf V b) (hs : Sole V k b) (hn : k < b.core.nextOrderId) : Traced V k b b :=
  ⟨hw, hs, hn, [], rfl, .inl rfl⟩

theorem Traced.act (h : Traced V k b₀ b) (ha : Act V kd b b') (hk : quietKinds kd) : Traced V k b₀ b' := by
  obtain ⟨hs, hf⟩ := h.sole.traffic (ha.traffic hk h.wf) (ha.id_eq hk h.wf) fun j hj => ha.flying_mem hk hj
  exact h.next (ha.wf h.wf) hs (ha.nextOrderId_le (by rintro rfl; exact hk) h.wf) (ha.log_suffix hk h.wf) hf

theorem Traced.acts {K : Kind → Prop} (h : Traced V k b₀ b) (ha : Acts V K b b') (hK : ∀ k, K k → quietKinds k) :
    Traced V k b₀ b' := ha.keeps h fun hk ha hb => hb.act ha (hK _ hk)

/-! ## Entries under other ids -/

/-- An order enters flight under another id. -/
theorem Traced.accept (h : Traced V k b₀ b) {r : Request} (hq : 0 < r.qty) (hne : b.core.newId r.orderId ≠ k)
    (ha : b.accept V r = some (i, b')) : Traced V k b₀ b' := by
  have hv := h.wf.accept_view ha
  have hx : b'.inFlight = i :: b.inFlight := accept_inFlight ha
  have hid : ∀ j, (b'.core.body j).id = k → j ≠ i ∧ (b.core.body j).id = k := by
    intro j hj
    rw [body_of_view hv] at hj
    by_cases e : j = i
    · subst e
      rw [show (View.body _ j).id = _ from congrArg Order.id (Function.update_self ..)] at hj
      exact absurd hj hne
    · rw [show View.body _ j = b.core.body j from Function.update_of_ne e ..] at hj
      exact ⟨e, hj⟩
  have hf : b'.core.find k = b.core.find k := congrFun (find_congr (index_of_view hv)) k
  refine h.next ((h.wf.accept hq ha).wf h.wf) ⟨fun j hl hj => ?_, fun j hj hjk => ?_⟩ (next_le (accept_next ha))
    ⟨[_], (Book.accept_rest ha).1.symm⟩ (.inl hf)
  · obtain ⟨hji, hj⟩ := hid j hj
    rw [hf]
    exact h.sole.live j (((h.wf.accept hq ha).moves.live (by simpa using hji)).mp hl) hj
  · obtain ⟨hji, hjk⟩ := hid j hjk
    rw [hx] at hj
    exact h.sole.flying j ((mem_cons.mp hj).resolve_left hji) hjk

/-- An order becomes live at once under another id. -/
theorem Traced.entered (h : Traced V k b₀ b) (hw : Wf V b') (hm : Moves V [i] b b') {o : Order} (hb : b'.core.body i = o)
    (hne : o.id ≠ k) (hidx : b'.core.idIndex = b.core.idIndex.insert o.id i) (hx : b'.inFlight = b.inFlight)
    (hlog : b'.log = b.log) (hn : b.core.nextOrderId ≤ b'.core.nextOrderId) : Traced V k b₀ b' := by
  have hid : ∀ j, (b'.core.body j).id = k → j ≠ i ∧ (b.core.body j).id = k := by
    intro j hj
    have hji : j ≠ i := by
      rintro rfl
      exact hne (hb ▸ hj)
    exact ⟨hji, hm.body j (by simpa using hji) ▸ hj⟩
  have hf : b'.core.find k = b.core.find k := find_inserted hidx hne.symm
  refine h.next hw ⟨fun j hl hj => ?_, fun j hj hjk => ?_⟩ hn (hlog ▸ suffix_rfl) (.inl hf)
  · obtain ⟨hji, hj⟩ := hid j hj
    rw [hf]
    exact h.sole.live j ((hm.live (by simpa using hji)).mp hl) hj
  · exact h.sole.flying j (hx ▸ hj) (hid j hjk).2

/-- The next automatic id is none that was handed out before. -/
theorem Traced.newId_ne (h : Traced V k b₀ b) : b.core.newId 0 ≠ k := h.past.ne'

/-- Every step of a call keeps the trace of an id handed out before. -/
theorem traced_kept (V : Env) (k : Nat) (b₀ : Book) : Kept V (Traced V k b₀) where
  wf := fun h => h.wf
  act := fun hk ha h => h.act ha (quiet_of_work _ hk)
  round := fun h => h.acts (ocoRound_does h.wf).acts quiet_of_tidy
  enter := by
    intro b b' r i h0 hq ha h
    refine h.accept hq ?_ ha
    rw [h0]
    exact h.newId_ne
  wait := by
    intro b b' i f c hwt h
    have hact : Act V .wait b b' := .wait 0 i f c hwt
    have hv := h.wf.wait_view hwt.alloc hwt.core hwt.inFlight
    obtain ⟨⟨G, hF, hl⟩, hb, hrest⟩ := h.wf.links.allocAs hwt.alloc
    have hlaw := h.wf.wait hF hl hb hrest hwt.waiting hwt.core hwt.inFlight
    have hid : (f { id := b.core.newId 0 }).strip.id = b.core.newId 0 := hwt.id
    refine h.entered (hact.wf h.wf) hlaw.moves ?_ ?_
      (index_of_view hv) hwt.inFlight hwt.frozen.log (hact.nextOrderId_le (by simp) h.wf)
    · rw [body_of_view hv]
      simp [View.wait, Book.view]
    · rw [hid]
      exact h.newId_ne
  link := fun x y _ _ _ h => h.acts (linkOco_does x y trivial).acts quiet_of_tidy

end

end HftLab.OrderBook
