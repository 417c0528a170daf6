/-
  HftLab.OrderBook.OcoPairs — pairs linked by `link_oco`, within one call.

  `Watch V N L b` follows the pairs `L` through a call: each is still linked, with both legs live, or both legs are
  gone or queued for cancellation. The index is right all along, since no id is used twice: the automatic ids a call
  hands out stay below `N`, and an id that is live, in flight or of a watched pair is never one of them. Every step of
  a call keeps the watch (`watched_kept`); what enters under an id of its own keeps it too when that id is unused.
-/

import HftLab.OrderBook.Deferred

namespace HftLab.OrderBook

open Lib Function List

/-! ## Partners -/

/-- Whoever has a partner is that partner's partner. -/
def Mutual (p : Nat → Option Nat) : Prop := ∀ x y, p x = some y → p y = some x ∧ x ≠ y

section

variable {p : Nat → Option Nat} {x y k w N i : Nat} {o : Oco} {V : Env} {L : Nat → Nat → Prop} {b b' : Book}

theorem Mutual.drop (h : Mutual p) (hk : p k = some w) : Mutual (update (update p k none) w none) := by
  intro x y hxy
  obtain ⟨hw, -⟩ := h k w hk
  have hxw : x ≠ w := by
    rintro rfl
    rw [update_self] at hxy
    cases hxy
  rw [update_of_ne hxw] at hxy
  have hxk : x ≠ k := by
    rintro rfl
    rw [update_self] at hxy
    cases hxy
  rw [update_of_ne hxk] at hxy
  obtain ⟨hyx, hne⟩ := h x y hxy
  have hyw : y ≠ w := by
    rintro rfl
    rw [hw] at hyx
    exact hxk (Option.some.inj hyx).symm
  have hyk : y ≠ k := by
    rintro rfl
    rw [hk] at hyx
    exact hxw (Option.some.inj hyx).symm
  rw [update_of_ne hyw, update_of_ne hyk]
  exact ⟨hyx, hne⟩

theorem Mutual.add (h : Mutual p) (hne : k ≠ w) (hk : p k = none) (hw : p w = none) :
    Mutual (update (update p k (some w)) w (some k)) := by
  have hfree : ∀ {x y}, p x = some y → y ≠ k ∧ y ≠ w := by
    intro x y hxy
    obtain ⟨hyx, -⟩ := h x y hxy
    refine ⟨?_, ?_⟩
    · rintro rfl
      rw [hk] at hyx
      cases hyx
    · rintro rfl
      rw [hw] at hyx
      cases hyx
  intro x y hxy
  by_cases hxw : x = w
  · rw [hxw, update_self] at hxy
    cases hxy
    rw [hxw, update_of_ne hne, update_self]
    exact ⟨rfl, hne.symm⟩
  · rw [update_of_ne hxw] at hxy
    by_cases hxk : x = k
    · rw [hxk, update_self] at hxy
      cases hxy
      rw [hxk, update_self]
      exact ⟨rfl, hne⟩
    · rw [update_of_ne hxk] at hxy
      obtain ⟨hyk, hyw⟩ := hfree hxy
      rw [update_of_ne hyw, update_of_ne hyk]
      exact h x y hxy

theorem Mutual.complete {o : Oco} (h : Mutual o.partner) (k : Nat) : Mutual (o.complete k).partner := by
  unfold Oco.complete
  split
  · exact h
  · rename_i w hk
    exact h.drop hk

/-- Another order's completion leaves a pair alone. -/
theorem Oco.complete_other (h : Mutual o.partner) (hxy : o.partner x = some y) (hx : k ≠ x) (hy : k ≠ y) :
    (o.complete k).partner x = some y := by
  unfold Oco.complete
  split
  · exact hxy
  · rename_i w hk
    have hxw : x ≠ w := by
      rintro rfl
      have := (h k x hk).1
      rw [hxy] at this
      exact hy (Option.some.inj this).symm
    show update (update o.partner k none) w none x = some y
    rw [update_of_ne hxw, update_of_ne hx.symm]
    exact hxy

theorem Oco.complete_queues (h : o.partner k = some x) : x ∈ (o.complete k).pendingCancel := by
  unfold Oco.complete
  rw [h]
  exact mem_append_right _ (mem_singleton_self x)

theorem Oco.complete_keeps (h : x ∈ o.pendingCancel) : x ∈ (o.complete k).pendingCancel := by
  unfold Oco.complete
  split
  · exact h
  · exact mem_append_left _ h

/-! ## The watch -/

/-- The id is none of those still to be handed out before the counter reaches `N`. -/
def Book.Spent (N : Nat) (b : Book) (k : Nat) : Prop := k < b.core.nextOrderId ∨ N ≤ k

/-- Two live orders linked with each other. -/
def Book.Paired (b : Book) (x y : Nat) : Prop :=
  b.oco.partner x = some y ∧ (b.core.find x).isSome = true ∧ (b.core.find y).isSome = true

/-- The order is not live, or will not be when the deferred cancels are done. -/
def Book.Ending (b : Book) (k : Nat) : Prop := b.core.find k = none ∨ k ∈ b.oco.pendingCancel

structure Watch (V : Env) (N : Nat) (L : Nat → Nat → Prop) (b : Book) : Prop where
  registered : Registered V b
  mutual_ : Mutual b.oco.partner
  spent : ∀ k, (b.core.find k).isSome = true → b.Spent N k
  flying : ∀ i ∈ b.inFlight, b.Spent N (b.core.body i).id ∧ ∀ x y, L x y → (b.core.body i).id ≠ x ∧ (b.core.body i).id ≠ y
  pairs : ∀ x y, L x y → b.Spent N x ∧ b.Spent N y ∧ (b.Paired x y ∨ b.Ending x ∧ b.Ending y)

theorem Book.Spent.mono (h : b.Spent N k) (hn : b.core.nextOrderId ≤ b'.core.nextOrderId) : b'.Spent N k := by
  unfold Book.Spent at h ⊢
  omega

theorem find_erased (h : b'.core.idIndex = b.core.idIndex.erase k) (x : Nat) :
    b'.core.find x = if x = k then none else b.core.find x := by
  unfold Core.find
  rw [h]
  split
  · rename_i e
    rw [e, AList.lookup_erase]
  · rename_i e
    rw [AList.lookup_erase_ne e]

theorem find_inserted (h : b'.core.idIndex = b.core.idIndex.insert k i) (hx : x ≠ k) : b'.core.find x = b.core.find x := by
  unfold Core.find
  rw [h, AList.lookup_insert_ne hx]

theorem find_congr (h : b'.core.idIndex = b.core.idIndex) : b'.core.find = b.core.find := by
  funext x
  unfold Core.find
  rw [h]

/-- An order leaves under `k` and completes, where `o` are the OCO records just before. -/
theorem pair_gone (hm : Mutual b.oco.partner) (hp : o.partner = b.oco.partner)
    (hpend : ∀ x ∈ b.oco.pendingCancel, x = k ∨ x ∈ o.pendingCancel) (hidx : b'.core.idIndex = b.core.idIndex.erase k)
    (ho : b'.oco = o.complete k) (h : b.Paired x y ∨ b.Ending x ∧ b.Ending y) : b'.Paired x y ∨ b'.Ending x ∧ b'.Ending y := by
  have hm' : Mutual o.partner := by
    rw [hp]
    exact hm
  have ending : ∀ {x}, b.Ending x → b'.Ending x := by
    intro x hx
    unfold Book.Ending
    rw [find_erased hidx, ho]
    by_cases e : x = k
    · exact .inl (if_pos e)
    · rw [if_neg e]
      exact hx.imp id fun hq => Oco.complete_keeps ((hpend x hq).resolve_left e)
  rcases h with ⟨hxy, hx, hy⟩ | ⟨hx, hy⟩
  · rw [← hp] at hxy
    by_cases ex : k = x
    · refine .inr ⟨.inl ?_, .inr ?_⟩
      · rw [find_erased hidx, if_pos ex.symm]
      · rw [ho, ex]
        exact Oco.complete_queues hxy
    · by_cases ey : k = y
      · refine .inr ⟨.inr ?_, .inl ?_⟩
        · rw [ho, ey]
          exact Oco.complete_queues (hm' x y hxy).1
        · rw [find_erased hidx, if_pos ey.symm]
      · refine .inl ⟨?_, ?_, ?_⟩
        · rw [ho]
          exact Oco.complete_other hm' hxy ex ey
        · rw [find_erased hidx, if_neg (Ne.symm ex)]
          exact hx
        · rw [find_erased hidx, if_neg (Ne.symm ey)]
          exact hy
  · exact .inr ⟨ending hx, ending hy⟩

theorem pair_congr (hf : b'.core.find x = b.core.find x) (hf' : b'.core.find y = b.core.find y)
    (hp : b.oco.partner x = some y → b'.oco.partner x = some y) (hq : b'.oco.pendingCancel = b.oco.pendingCancel)
    (h : b.Paired x y ∨ b.Ending x ∧ b.Ending y) : b'.Paired x y ∨ b'.Ending x ∧ b'.Ending y := by
  unfold Book.Paired Book.Ending
  rw [hf, hf', hq]
  exact h.imp (fun h => ⟨hp h.1, h.2⟩) id

/-- What is to be shown of a step: no order enters, the index gains at most an id that was in flight, and each pair
    is as it should be. -/
theorem Watch.moved (h : Watch V N L b) (hreg : Registered V b') (hn : b.core.nextOrderId ≤ b'.core.nextOrderId)
    (hfly : ∀ j ∈ b'.inFlight, j ∈ b.inFlight ∧ (b'.core.body j).id = (b.core.body j).id) (hm : Mutual b'.oco.partner)
    (hfind : ∀ k, (b'.core.find k).isSome → (b.core.find k).isSome ∨ ∃ i ∈ b.inFlight, k = (b.core.body i).id)
    (hpair : ∀ x y, L x y → (b.Paired x y ∨ b.Ending x ∧ b.Ending y) → b'.Paired x y ∨ b'.Ending x ∧ b'.Ending y) :
    Watch V N L b' := by
  refine ⟨hreg, hm, fun k hk => ?_, fun i hi => ?_, fun x y hL => ?_⟩
  · rcases hfind k hk with hk | ⟨i, hi, rfl⟩
    · exact (h.spent k hk).mono hn
    · exact (h.flying i hi).1.mono hn
  · obtain ⟨hi, hid⟩ := hfly i hi
    rw [hid]
    exact ⟨(h.flying i hi).1.mono hn, (h.flying i hi).2⟩
  · obtain ⟨hx, hy, hp⟩ := h.pairs x y hL
    exact ⟨hx.mono hn, hy.mono hn, hpair x y hL hp⟩

theorem Watch.effect (h : Watch V N L b) (he : Effect b b') (hreg : Registered V b')
    (hn : b.core.nextOrderId ≤ b'.core.nextOrderId)
    (hfly : ∀ j ∈ b'.inFlight, j ∈ b.inFlight ∧ (b'.core.body j).id = (b.core.body j).id) : Watch V N L b' := by
  cases he with
  | same hidx ho =>
    have hf := find_congr hidx
    refine h.moved hreg hn hfly (by rw [ho]; exact h.mutual_) (fun k hk => .inl (hf ▸ hk)) fun x y _ hp => ?_
    exact pair_congr (by rw [hf]) (by rw [hf]) (by rw [ho]; exact id) (by rw [ho]) hp
  | gone k hidx ho =>
    refine h.moved hreg hn hfly (by rw [ho]; exact h.mutual_.complete k) (fun j hj => .inl ?_) fun x y _ hp => ?_
    · rw [find_erased hidx] at hj
      split at hj
      · cases hj
      · exact hj
    · exact pair_gone h.mutual_ rfl (fun _ hx => .inr hx) hidx ho hp
  | come i hi hidx ho =>
    refine h.moved hreg hn hfly (by rw [ho]; exact h.mutual_) (fun j hj => ?_) fun x y hL hp => ?_
    · by_cases e : j = (b.core.body i).id
      · exact .inr ⟨i, hi, e⟩
      · rw [find_inserted hidx e] at hj
        exact .inl hj
    · obtain ⟨hx, hy⟩ := (h.flying i hi).2 x y hL
      exact pair_congr (find_inserted hidx hx.symm) (find_inserted hidx hy.symm) (by rw [ho]; exact id) (by rw [ho]) hp

theorem Watch.round (h : Watch V N L b) : Watch V N L (b.ocoRound V) := by
  have hw := h.registered.wf
  cases hl : b.oco.pendingCancel.getLast? with
  | none =>
    unfold Book.ocoRound
    rw [hl]
    exact h
  | some pid =>
    have hd := ocoRound_does hw
    have hn := hd.acts.nextOrderId_le (fun hk => hk) hw
    have hreg := h.registered.acts hd.acts quiet_of_tidy
    have hfly := hd.acts.flying_id quiet_of_tidy hw
    have hmem : ∀ x ∈ b.oco.pendingCancel, x = pid ∨ x ∈ b.oco.pop.pendingCancel := by
      intro x hx
      rw [← dropLast_append_getLast? pid hl] at hx
      rcases mem_append.mp hx with hx | hx
      · exact .inr hx
      · exact .inl (mem_singleton.mp hx)
    rcases ocoRound_cases hw hl with ⟨hnone, he⟩ | ⟨-, hidx, ho⟩
    · rw [he] at hreg hn hfly ⊢
      refine h.moved hreg hn hfly h.mutual_ (fun _ hk => .inl hk) fun x y _ hp => ?_
      -- the id dropped from the queue is that of no order
      have ending : ∀ {x}, b.Ending x → ({ b with oco := b.oco.pop } : Book).Ending x := by
        intro x hx
        rcases hx with hx | hx
        · exact .inl hx
        · rcases hmem x hx with rfl | hx
          · exact .inl hnone
          · exact .inr hx
      exact hp.imp id fun hp => ⟨ending hp.1, ending hp.2⟩
    · refine h.moved hreg hn hfly ?_ (fun j hj => .inl ?_) fun x y _ hp => ?_
      · rw [ho]
        exact Mutual.complete (o := b.oco.pop) h.mutual_ pid
      · rw [find_erased hidx] at hj
        split at hj
        · cases hj
        · exact hj
      · exact pair_gone (o := b.oco.pop) h.mutual_ rfl hmem hidx ho hp

/-! ## Entries -/

/-- The id `k` is unused, will not be handed out, and is of no watched pair. -/
structure Watch.Fresh (N : Nat) (L : Nat → Nat → Prop) (b b' : Book) (k : Nat) : Prop where
  unused : b.Unused k
  spent : b'.Spent N k
  other : ∀ x y, L x y → k ≠ x ∧ k ≠ y

/-- The next automatic id is fresh, as long as the counter does not pass `N`. -/
theorem Watch.fresh_next (h : Watch V N L b) (hn : b'.core.nextOrderId = b.core.nextOrderId + 1)
    (hN : b'.core.nextOrderId ≤ N) : Watch.Fresh N L b b' b.core.nextOrderId := by
  have hno : ¬ b.Spent N b.core.nextOrderId := by
    unfold Book.Spent
    omega
  refine ⟨⟨?_, fun i hi e => ?_⟩, .inl (by omega), fun x y hL => ⟨?_, ?_⟩⟩
  · by_contra hne
    exact hno (h.spent _ (Option.isSome_iff_ne_none.mpr hne))
  · exact hno (e ▸ (h.flying i hi).1)
  · rintro rfl
    exact hno (h.pairs _ y hL).1
  · rintro rfl
    exact hno (h.pairs x _ hL).2.1

theorem Watch.accept (h : Watch V N L b) {r : Request} (hq : 0 < r.qty) (ha : b.accept V r = some (i, b'))
    (hf : Watch.Fresh N L b b' (b.core.newId r.orderId)) (hn : b.core.nextOrderId ≤ b'.core.nextOrderId) : Watch V N L b' := by
  have hw := h.registered.wf
  have hreg := h.registered.accept hq hf.unused ha hn
  have hv := hw.accept_view ha
  have hx : b'.inFlight = i :: b.inFlight := accept_inFlight ha
  have hfind : b'.core.find = b.core.find := find_congr (index_of_view hv)
  have ho : b'.oco = b.oco := (Book.accept_rest ha).2.2.1
  refine ⟨hreg, by rw [ho]; exact h.mutual_, fun k hk => ?_, fun j hj => ?_, fun x y hL => ?_⟩
  · rw [hfind] at hk
    exact (h.spent k hk).mono hn
  · by_cases e : j = i
    · have hid : (b'.core.body i).id = b.core.newId r.orderId := by
        rw [body_of_view hv]
        simp [View.setBody, Request.order]
      rw [e, hid]
      exact ⟨hf.spent, hf.other⟩
    · have hj : j ∈ b.inFlight := (mem_cons.mp (hx ▸ hj)).resolve_left e
      rw [(hw.accept hq ha).moves.body j (by simpa using e)]
      exact ⟨(h.flying j hj).1.mono hn, (h.flying j hj).2⟩
  · obtain ⟨h1, h2, hp⟩ := h.pairs x y hL
    exact ⟨h1.mono hn, h2.mono hn, pair_congr (by rw [hfind]) (by rw [hfind]) (by rw [ho]; exact id) (by rw [ho]) hp⟩

/-- An order becomes live under a fresh id, without a flight. -/
theorem Watch.entered (h : Watch V N L b) (hreg : Registered V b') (hm : Moves V [i] b b') (hl : b'.Live V i)
    (hidx : b'.core.idIndex = b.core.idIndex.insert k i) (ho : b'.oco = b.oco) (hx : b'.inFlight = b.inFlight)
    (hf : Watch.Fresh N L b b' k) (hn : b.core.nextOrderId ≤ b'.core.nextOrderId) : Watch V N L b' := by
  refine ⟨hreg, by rw [ho]; exact h.mutual_, fun j hj => ?_, fun j hj => ?_, fun x y hL => ?_⟩
  · by_cases e : j = k
    · rw [e]
      exact hf.spent
    · rw [find_inserted hidx e] at hj
      exact (h.spent j hj).mono hn
  · have hne : j ≠ i := by
      rintro rfl
      exact hreg.wf.not_live_of_flying hj hl
    rw [hm.body j (by simpa using hne)]
    exact ⟨(h.flying j (hx ▸ hj)).1.mono hn, (h.flying j (hx ▸ hj)).2⟩
  · obtain ⟨h1, h2, hp⟩ := h.pairs x y hL
    obtain ⟨hkx, hky⟩ := hf.other x y hL
    exact ⟨h1.mono hn, h2.mono hn,
      pair_congr (find_inserted hidx hkx.symm) (find_inserted hidx hky.symm) (by rw [ho]; exact id) (by rw [ho]) hp⟩

theorem Watch.wait (h : Watch V N L b) {oid : Nat} {f : Order → Order} {c : Core} (hwt : Waits oid i f c b b')
    (hf : Watch.Fresh N L b b' (b.core.newId oid)) : Watch V N L b' := by
  have hw := h.registered.wf
  have hact : Act V .wait b b' := .wait oid i f c hwt
  have hv := hw.wait_view hwt.alloc hwt.core hwt.inFlight
  obtain ⟨⟨G, hF, hl⟩, hb, hrest⟩ := hw.links.allocAs hwt.alloc
  have hlaw := hw.wait hF hl hb hrest hwt.waiting hwt.core hwt.inFlight
  have hid : (f { id := b.core.newId oid }).strip.id = b.core.newId oid := hwt.id
  have hidx : b'.core.idIndex = b.core.idIndex.insert (f { id := b.core.newId oid }).strip.id i := index_of_view hv
  rw [hid] at hidx
  refine h.entered (h.registered.wait hwt hf.unused) hlaw.moves (.inr ?_) hidx hwt.frozen.oco hwt.inFlight hf
    (hact.nextOrderId_le (by simp) hw)
  rw [hwt.core]
  exact mem_append_right _ (mem_singleton_self i)

theorem Watch.peg (h : Watch V N L b) {oid : Nat} {f : Order → Order} {c : Core} (hp : Pegs V oid i f c b b')
    (hf : Watch.Fresh N L b b' (b.core.newId oid)) : Watch V N L b' := by
  have hw := h.registered.wf
  have hact : Act V .peg b b' := .peg oid i f c hp
  obtain ⟨x, y, hc⟩ := hp.core
  have hv := hw.peg_view hp.alloc hp.grid hc hp.inFlight
  have hlaw := hw.peg hp.alloc hp.resting hp.grid hc hp.inFlight
  have hid : (f { id := b.core.newId oid }).strip.id = b.core.newId oid := hp.id
  have hidx : b'.core.idIndex = b.core.idIndex.insert (f { id := b.core.newId oid }).strip.id i := index_of_view hv
  rw [hid] at hidx
  refine h.entered (h.registered.peg hp hf.unused) hlaw.moves (.inl ⟨(f { id := b.core.newId oid }).strip.priceTicks, ?_⟩) hidx
    hp.frozen.oco hp.inFlight hf (hact.nextOrderId_le (by simp) hw)
  rw [queue_of_view hv]
  simp [View.settle]

theorem Watch.link (h : Watch V N L b) (u w : Nat) : Watch V N L (b.linkOco u w).2 := by
  have hd := linkOco_does (V := V) (K := quietKinds) (b := b) u w trivial
  have hreg := h.registered.acts hd.acts fun _ hk => hk
  unfold Book.linkOco at hreg ⊢
  split
  · exact h
  · rename_i h1
    rw [if_neg h1] at hreg
    split
    · exact h
    · rename_i h2
      rw [if_neg h2] at hreg
      split
      · exact h
      · rename_i h3
        rw [if_neg h3] at hreg
        simp only [not_or, Option.not_isSome_iff_eq_none] at h1 h3
        refine h.moved hreg le_rfl (fun _ hj => ⟨hj, rfl⟩) (h.mutual_.add h1.2.2 h3.1 h3.2) (fun _ hk => .inl hk)
          fun x y _ hp => pair_congr (b := b) rfl rfl (fun hxy => ?_) rfl hp
        -- the ids linked now had no partner
        have hxw : x ≠ w := by
          rintro rfl
          rw [h3.2] at hxy
          cases hxy
        have hxu : x ≠ u := by
          rintro rfl
          rw [h3.1] at hxy
          cases hxy
        show update (update b.oco.partner u (some w)) w (some u) x = some y
        rw [update_of_ne hxw, update_of_ne hxu]
        exact hxy

end

/-! ## Every step keeps the watch -/

/-- What every step keeps as long as the counter does not pass `N`; the ids linked are two that were handed out. -/
theorem Kept.upTo {V : Env} {C : Book → Prop} (N : Nat) (act : ∀ {k b b'}, workKinds k → Act V k b b' → Wf V b → C b → C b')
    (round : ∀ {b}, Wf V b → C b → C (b.ocoRound V))
    (enter : ∀ {b b' : Book} {r : Request} {i : Nat}, r.orderId = 0 → 0 < r.qty → b.accept V r = some (i, b') →
      b'.core.nextOrderId = b.core.nextOrderId + 1 → b'.core.nextOrderId ≤ N → Wf V b → C b → C b')
    (wait : ∀ {b b' : Book} {i : Nat} {f : Order → Order} {c : Core}, Waits 0 i f c b b' →
      b'.core.nextOrderId = b.core.nextOrderId + 1 → b'.core.nextOrderId ≤ N → Wf V b → C b → C b')
    (link : ∀ {b0 b : Book} (x y : Nat), C b0 → HandedOut b0 b x → HandedOut b0 b y → b.core.nextOrderId ≤ N → Wf V b →
      C b → C (b.linkOco x y).2) :
    Kept V fun b => Wf V b ∧ (b.core.nextOrderId ≤ N → C b) where
  wf := fun h => h.1
  act := by
    intro k b b' hk ha ⟨hw, h⟩
    have hn := ha.nextOrderId_le (fun e => by rw [e] at hk; exact hk) hw
    exact ⟨ha.wf hw, fun hN => act hk ha hw (h (hn.trans hN))⟩
  round := by
    intro b ⟨hw, h⟩
    have hd := ocoRound_does hw
    exact ⟨hd.wf hw, fun hN => round hw (h ((hd.acts.nextOrderId_le (fun hk => hk) hw).trans hN))⟩
  enter := by
    intro b b' r i hid hq ha ⟨hw, h⟩
    have hact : Act V .accept b b' := .accept r i hq (fun h0 => absurd hid h0) ha
    have hn := accept_next ha
    rw [if_pos hid] at hn
    exact ⟨hact.wf hw, fun hN => enter hid hq ha hn hN hw (h (by omega))⟩
  wait := by
    intro b b' i f c hwt ⟨hw, h⟩
    have hact : Act V .wait b b' := .wait 0 i f c hwt
    have hn : b'.core.nextOrderId = b.core.nextOrderId + 1 := by
      rw [hwt.core]
      exact allocAs_next hwt.alloc
    exact ⟨hact.wf hw, fun hN => wait hwt hn hN hw (h (by omega))⟩
  link := by
    intro b0 b x y ⟨_, h₀⟩ hx hy ⟨hw, h⟩
    have hd := linkOco_does (V := V) (K := quietKinds) (b := b) x y trivial
    refine ⟨hd.wf hw, fun hN => ?_⟩
    have hN : b.core.nextOrderId ≤ N := (hd.acts.nextOrderId_le (fun hk => hk) hw).trans hN
    exact link x y (h₀ ((hx.1.trans hx.2.le).trans hN)) hx hy hN hw (h hN)

/-- The watch, as long as the counter does not pass `N`. -/
def Watched (V : Env) (N : Nat) (L : Nat → Nat → Prop) (b : Book) : Prop :=
  Wf V b ∧ (b.core.nextOrderId ≤ N → Watch V N L b)

theorem Watched.link {V : Env} {N : Nat} {L : Nat → Nat → Prop} {b : Book} (h : Watched V N L b) (x y : Nat) :
    Watched V N L (b.linkOco x y).2 := by
  have hd := linkOco_does (V := V) (K := quietKinds) (b := b) x y trivial
  refine ⟨hd.wf h.1, fun hN => (h.2 ?_).link x y⟩
  exact (hd.acts.nextOrderId_le (fun hk => hk) h.1).trans hN

theorem watched_kept (V : Env) (N : Nat) (L : Nat → Nat → Prop) : Kept V (Watched V N L) :=
  Kept.upTo N
    (fun {k b b'} hk ha hw h => by
      have hn := ha.nextOrderId_le (fun e => by rw [e] at hk; exact hk) hw
      exact h.effect (ha.effect hk hw) (h.registered.act ha (quiet_of_work k hk)) hn fun j hj =>
        ha.flying_id (quiet_of_work k hk) hw hj)
    (fun _ h => h.round)
    (fun {b b' r i} hid hq ha hn hN _ h => by
      refine h.accept hq ha ?_ (by omega)
      unfold Core.newId
      rw [if_pos hid]
      exact h.fresh_next hn hN)
    (fun hwt hn hN _ h => h.wait hwt (h.fresh_next hn hN))
    (fun x y _ _ _ _ _ h => h.link x y)

end HftLab.OrderBook
