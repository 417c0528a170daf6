/-
  HftLab.OrderBook.Modify — what `modify` keeps of a resting order.

  Less quantity at the same price changes the two quantities and nothing else. Any other change takes the order out of
  the book, unlinked from its partner first, and submits the rest of it under its id:
  - refused, the order is gone and its pair dissolved, and every other order is as it was;
  - at rest again, it has its id, client, side, type and time in force, and its partner if that one is still live.

  What `submit` lets rest is followed by its id: `Stamped` says who may be found under the id, `Single` that it has no
  partner. The orders that a call enters of its own accord come under automatic ids, which may not be this one.
-/

import HftLab.OrderBook.BetweenCalls
import HftLab.OrderBook.Continuous

namespace HftLab.OrderBook

open Lib Function

/-- Whoever is found or in flight under `k` is stamped `u`; `k` is not handed out before the counter reaches `N`. -/
structure Stamped (N k : Nat) (u : Nat × Nat × Side × OrderType × TimeInForce) (b : Book) : Prop where
  spent : b.Spent N k
  found : ∀ i, b.core.find k = some i → (b.core.body i).stamp = u
  flying : ∀ i ∈ b.inFlight, (b.core.body i).id = k → (b.core.body i).stamp = u

/-- `k` has no partner, and is not handed out before the counter reaches `N`. -/
structure Single (N k : Nat) (b : Book) : Prop where
  spent : b.Spent N k
  alone : b.oco.partner k = none

section

variable {V : Env} {N k i n id : Nat} {u : Nat × Nat × Side × OrderType × TimeInForce} {b b' : Book} {kd : Kind} {r : Request}
    {p newPrice newQty : Int} {x : Nat × RejectReason}

theorem Book.Spent.ne_next (h : b.Spent N k) (hn : b'.core.nextOrderId = b.core.nextOrderId + 1) (hN : b'.core.nextOrderId ≤ N) :
    b.core.nextOrderId ≠ k := by
  unfold Book.Spent at h
  omega

theorem Book.Spent.ne_handed {b0 : Book} {x : Nat} (h : b0.Spent N k) (hx : HandedOut b0 b x) (hN : b.core.nextOrderId ≤ N) :
    x ≠ k := by
  unfold Book.Spent at h
  obtain ⟨h1, h2⟩ := hx
  omega

/-! ## Who is found under the id -/

theorem Act.stamped (h : Act V kd b b') (hk : quietKinds kd) (hw : Wf V b) (hs : Stamped N k u b) : Stamped N k u b' := by
  have hn := h.nextOrderId_le (fun e => by rw [e] at hk; exact hk) hw
  refine ⟨hs.spent.mono hn, fun j hj => ?_, fun j hj hid => ?_⟩
  · rw [h.stamp_eq hk hw]
    cases h.traffic hk hw with
    | stay _ hidx => exact hs.found j (find_congr hidx ▸ hj)
    | leave _ _ _ _ _ hidx _ _ =>
      rw [find_erased hidx] at hj
      split at hj
      · cases hj
      · exact hs.found j hj
    | arrive i hi _ _ hidx =>
      by_cases e : k = (b.core.body i).id
      · -- it comes to rest from its flight
        unfold Core.find at hj
        rw [hidx, e, AList.lookup_insert] at hj
        rw [← Option.some.inj hj]
        exact hs.flying i hi e.symm
      · rw [find_inserted hidx e] at hj
        exact hs.found j hj
  · obtain ⟨hfly, hsame⟩ := h.flying_id hk hw hj
    rw [h.stamp_eq hk hw]
    exact hs.flying j hfly (hsame.symm.trans hid)

theorem Acts.stamped {K : Kind → Prop} (h : Acts V K b b') (hK : ∀ k, K k → quietKinds k) (hw : Wf V b) (hs : Stamped N k u b) :
    Stamped N k u b' :=
  (h.keeps (I := fun c => Wf V c ∧ Stamped N k u c) ⟨hw, hs⟩ fun hk ha hI =>
    ⟨ha.wf hI.1, ha.stamped (hK _ hk) hI.1 hI.2⟩).2

/-- An order takes the slot `i`; if it does so under `k`, it is stamped `u`. -/
theorem Stamped.entered (hs : Stamped N k u b) (hw : Wf V b') (hm : Moves V [i] b b') (hn : b.core.nextOrderId ≤ b'.core.nextOrderId)
    (hi : (b'.core.body i).id = k → (b'.core.body i).stamp = u) : Stamped N k u b' := by
  refine ⟨hs.spent.mono hn, fun j hj => ?_, fun j hj hid => ?_⟩
  · by_cases e : j = i
    · rw [e]
      exact hi (e ▸ (hw.found hj).1)
    · have hout : j ∉ [i] := by simpa using e
      rw [hm.body j hout]
      exact hs.found j (hm.index j hout k hj)
  · by_cases e : j = i
    · rw [e]
      exact hi (e ▸ hid)
    · have hout : j ∉ [i] := by simpa using e
      rw [hm.body j hout] at hid ⊢
      exact hs.flying j ((hm.flight j hout).mp hj) hid

theorem Stamped.accept (hs : Stamped N k u b) (hw : Wf V b) (hq : 0 < r.qty) (ha : b.accept V r = some (i, b'))
    (hi : b.core.newId r.orderId = k → (k, r.clientId, r.side, r.type, r.tif) = u) : Stamped N k u b' := by
  have hlaw := hw.accept hq ha
  have hbody : b'.core.body i = r.order (b.core.newId r.orderId) (V.clock b.asked) := by
    rw [body_of_view (hw.accept_view ha)]
    exact update_self ..
  refine hs.entered (hlaw.wf hw) hlaw.moves (next_le (accept_next ha)) fun hid => ?_
  rw [hbody] at hid ⊢
  have hid : b.core.newId r.orderId = k := hid
  rw [← hi hid, ← hid]
  rfl

theorem stamped_kept (V : Env) (N k : Nat) (u : Nat × Nat × Side × OrderType × TimeInForce) :
    Kept V fun b => Wf V b ∧ (b.core.nextOrderId ≤ N → Stamped N k u b) :=
  Kept.upTo N
    (fun hk ha hw hs => ha.stamped (quiet_of_work _ hk) hw hs)
    (fun hw hs => (ocoRound_does hw).acts.stamped quiet_of_tidy hw hs)
    (fun {b b' r i} hid hq ha hn hN hw hs => by
      refine hs.accept hw hq ha fun hk => absurd hk ?_
      unfold Core.newId
      rw [if_pos hid]
      exact hs.spent.ne_next hn hN)
    (fun {b b' i f c} hwt hn hN hw hs => by
      have hal := hw.links.allocAs hwt.alloc
      obtain ⟨G, hfree, hl⟩ := hal.layout
      have hlaw := hw.wait hfree hl hal.body hal.rest hwt.waiting hwt.core hwt.inFlight
      refine hs.entered (hlaw.wf hw) hlaw.moves (by omega) fun hid => absurd hid ?_
      have hnew : (b'.core.body i).id = b.core.nextOrderId := by
        rw [body_of_view (hw.wait_view hwt.alloc hwt.core hwt.inFlight)]
        simp only [View.wait, update_self]
        exact hwt.id
      rw [hnew]
      exact hs.spent.ne_next hn hN)
    (fun x y _ _ _ _ hw hs => (linkOco_does (K := quietKinds) x y trivial).acts.stamped (fun _ hk => hk) hw hs)

/-! ## Partners -/

theorem Oco.complete_alone {o : Oco} (h : o.partner k = none) (m : Nat) : (o.complete m).partner k = none := by
  unfold Oco.complete
  split
  · exact h
  · rename_i w _
    show update (update o.partner m none) w none k = none
    by_cases e : k = w
    · rw [e, update_self]
    · rw [update_of_ne e]
      by_cases e' : k = m
      · rw [e', update_self]
      · rw [update_of_ne e', h]

theorem single_kept (V : Env) (N k : Nat) : Kept V fun b => Wf V b ∧ (b.core.nextOrderId ≤ N → Single N k b) :=
  Kept.upTo N
    (fun {kd b b'} hk ha hw hs => by
      refine ⟨hs.spent.mono (ha.nextOrderId_le (fun e => by rw [e] at hk; exact hk) hw), ?_⟩
      cases ha.effect hk hw with
      | same _ ho => rw [ho, hs.alone]
      | gone m _ ho => rw [ho, Oco.complete_alone hs.alone]
      | come _ _ _ ho => rw [ho, hs.alone])
    (fun {b} hw hs => by
      refine ⟨hs.spent.mono ((ocoRound_does hw).acts.nextOrderId_le (fun hk => hk) hw), ?_⟩
      cases hl : b.oco.pendingCancel.getLast? with
      | none =>
        unfold Book.ocoRound
        rw [hl]
        exact hs.alone
      | some pid =>
        rcases ocoRound_cases hw hl with ⟨-, he⟩ | ⟨-, -, ho⟩
        · rw [he]
          exact hs.alone
        · rw [ho]
          exact Oco.complete_alone (o := b.oco.pop) hs.alone pid)
    (fun _ _ ha hn _ _ hs => ⟨hs.spent.mono (by omega), by rw [(Book.accept_rest ha).2.2.1, hs.alone]⟩)
    (fun hwt hn _ _ hs => ⟨hs.spent.mono (by omega), by rw [hwt.frozen.oco, hs.alone]⟩)
    (fun {b0 b} x y h0 hx hy hN _ hs => by
      have hkx := (h0.spent.ne_handed hx hN).symm
      have hky := (h0.spent.ne_handed hy hN).symm
      unfold Book.linkOco
      repeat' split
      all_goals try exact hs
      refine ⟨hs.spent, ?_⟩
      show update (update b.oco.partner x (some y)) y (some x) k = none
      rw [update_of_ne hky, update_of_ne hkx, hs.alone])

/-! ## The order resubmitted -/

/-- What an order submitted under `k` lets be found under `k`. -/
theorem submit_stamped (hb : Rests (Wf V) b) (hx : b.inFlight = []) (hfree : b.core.find k = none) (hsp : b.Spent N k)
    (hs : Book.submit V n r b = some (x, b')) (hN : b'.core.nextOrderId ≤ N) :
    Stamped N k (k, r.clientId, r.side, r.type, r.tif) b' := by
  have h0 : Stamped N k (k, r.clientId, r.side, r.type, r.tif) b := by
    refine ⟨hsp, fun i hi => ?_, fun i hi => ?_⟩
    · rw [hfree] at hi
      cases hi
    · rw [hx] at hi
      cases hi
  refine ((stamped_kept V N k (k, r.clientId, r.side, r.type, r.tif)).submit ⟨⟨hb.1, fun _ => h0⟩, hb.2⟩
    (fun i b₁ hp ha hI => ?_) hs).1.2 hN
  have hact := admitted_act hp ha
  have hle := hact.nextOrderId_le (by simp) hI.1
  have hq := ((admission_spec (b := b)).2 hp).1
  exact ⟨hact.wf hI.1, fun hN => (hI.2 (hle.trans hN)).accept hI.1 hq ha fun _ => rfl⟩

theorem submit_single {m : Nat} (hb : Rests (Wf V) b) (h : Single N m b) (hs : Book.submit V n r b = some (x, b'))
    (hN : b'.core.nextOrderId ≤ N) : b'.oco.partner m = none := by
  refine (((single_kept V N m).submit ⟨⟨hb.1, fun _ => h⟩, hb.2⟩ (fun i b₁ hp ha hI => ?_) hs).1.2 hN).alone
  have hact := admitted_act hp ha
  have hle := hact.nextOrderId_le (by simp) hI.1
  refine ⟨hact.wf hI.1, fun hN => ⟨(hI.2 (hle.trans hN)).spent.mono hle, ?_⟩⟩
  rw [(Book.accept_rest ha).2.2.1]
  exact (hI.2 (hle.trans hN)).alone

/-! ## The order taken out, and its pair restored -/

/-- Unlinked and cancelled, the order is out of its queue and of the index; nothing else has moved. -/
theorem takeOut_view (hw : Wf V b) (hi : i ∈ b.core.queue V p) (id : Nat) :
    ((b.unlinkOco id).cancelInternal V i false).view V = (b.view V).leave p i .cancelled := by
  have hw' : Wf V (b.unlinkOco id) := (unlinkOco_does (K := quietKinds) id trivial).wf hw
  have hview : (b.unlinkOco id).view V = b.view V := by
    unfold Book.unlinkOco
    split <;> rfl
  rw [hw'.cancelInternal_view (by rw [unlinkOco_core]; exact hi) false, hview]

/-- A single order at rest again is linked with its partner, if that one is live. -/
theorem relinkOco_partner {partner : Option Nat} (hid : id ≠ 0) (hf : (b.core.find id).isSome)
    (hone : b.oco.partner id = none)
    (hother : ∀ y, partner = some y → y ≠ id ∧ b.oco.partner y = none ∧ (y = 0 → b.core.find y = none)) (y : Nat) :
    (b.relinkOco V partner id).oco.partner id = some y ↔ partner = some y ∧ (b.core.find y).isSome := by
  cases partner with
  | none =>
    have hnone : (b.relinkOco V none id).oco.partner id = none := hone
    simp [hnone]
  | some w =>
    obtain ⟨hne, hw, h0⟩ := hother w rfl
    unfold Book.relinkOco
    dsimp only
    rw [if_neg hid]
    by_cases hlive : (b.core.find w).isSome
    · have hw0 : w ≠ 0 := fun e => by
        rw [h0 e] at hlive
        cases hlive
      rw [if_pos ⟨hf, hlive⟩]
      have hlink : (b.linkOco id w).2.oco.partner id = some w := by
        unfold Book.linkOco
        rw [if_neg (by simp [hid, hw0, hne.symm]), if_neg (by simp [Option.isSome_iff_ne_none.mp hf, Option.isSome_iff_ne_none.mp hlive]),
          if_neg (by simp [hone, hw])]
        show update (update b.oco.partner id (some w)) w (some id) id = some w
        rw [update_of_ne hne.symm, update_self]
      rw [hlink]
      constructor
      · intro h
        exact ⟨h, Option.some.inj h ▸ hlive⟩
      · exact fun h => h.1
    · rw [if_neg fun h => hlive h.2, if_neg (by simp [Option.isSome_iff_ne_none.mp hf]), hone]
      constructor
      · intro h
        cases h
      · intro h
        exact absurd (Option.some.inj h.1 ▸ h.2) hlive

theorem rearmBracket_oco {spec : Option BracketSpec} (hf : (b.core.find id).isSome)
    (h : b.rearmBracket V n spec id = some b') : b'.oco = b.oco := by
  unfold Book.rearmBracket at h
  split at h
  · cases h
    rfl
  · split at h
    · cases h
      rfl
    · cases h
      rfl

/-! ## modify -/

/-- Less quantity at the same price, but more than is filled. -/
def Book.ReducesInPlace (b : Book) (i : Nat) (newPrice newQty : Int) : Prop :=
  newPrice = (b.order i).priceTicks ∧ newQty < (b.order i).totalQty ∧ (b.order i).filledQty < newQty

/-- What a call of `modify` that returned `res` and left `b'` made of the order in slot `i`, which rested under `id`. -/
structure Modified (V : Env) (id i : Nat) (newPrice newQty : Int) (b : Book) (res : Outcome) (b' : Book) : Prop where
  inPlace : b.ReducesInPlace i newPrice newQty → res = .id id .none ∧
    b'.core.body = Function.update b.core.body i ((b.core.body i).reduced newQty) ∧
    (b'.core.body i).displayedQty ≤ (b.core.body i).displayedQty ∧
    b'.core.queue V = b.core.queue V ∧ b'.core.find = b.core.find ∧ b'.oco = b.oco
  refused : ∀ why, res = .id 0 why → b'.core.find id = none ∧ (∀ k, k ≠ id → b'.core.find k = b.core.find k) ∧
    (∀ p, b'.core.queue V p = (b.core.queue V p).erase i) ∧ (∀ j, j ≠ i → b'.core.body j = b.core.body j) ∧
    b'.oco.partner id = none ∧ ∀ y, b.oco.partner id = some y → b'.oco.partner y = none
  rested : b.Spent b'.core.nextOrderId id → ∀ j, b'.core.find id = some j →
    res = .id id .none ∧ (b'.core.body j).stamp = (b.core.body i).stamp
  relinked : ¬ b.ReducesInPlace i newPrice newQty → b.Spent b'.core.nextOrderId id →
    (∀ y, b.oco.partner id = some y → b.Spent b'.core.nextOrderId y) → (b'.core.find id).isSome = true →
    ∀ y, b'.oco.partner id = some y ↔ b.oco.partner id = some y ∧ (b'.core.find y).isSome = true

theorem modified_inPlace (hw : Wf V b) (hid : id ≠ 0) (hf : b.core.find id = some i) (hi : i ∈ b.core.queue V p)
    (hin : b.ReducesInPlace i newPrice newQty) :
    Modified V id i newPrice newQty b (.id id .none) (b.reduceInPlace id i newQty) := by
  have hv := hw.reduceInPlace_view (i := i) id newQty
  have hbody : (b.reduceInPlace id i newQty).core.body = update b.core.body i ((b.core.body i).reduced newQty) :=
    body_of_view hv
  have hfind : (b.reduceInPlace id i newQty).core.find = b.core.find := find_congr (index_of_view hv)
  refine ⟨fun _ => ⟨rfl, hbody, ?_, queue_of_view hv, hfind, rfl⟩, fun why h0 => ?_, fun _ j hj => ⟨rfl, ?_⟩, fun hno => absurd hin hno⟩
  · have hshown := (hw.resting hi).shown
    have hlt : newQty < (b.core.body i).totalQty := hin.2.1
    rw [hbody, update_self]
    show (b.core.body i).displayedQty - min ((b.core.body i).totalQty - newQty) (b.core.body i).displayedQty ≤ _
    omega
  · cases h0
    exact absurd rfl hid
  · rw [hfind, hf] at hj
    rw [← Option.some.inj hj, hbody, update_self]
    rfl

/-- The resubmission, from the book `b₁` without the order: `submit` left `b₂`. -/
structure Resubmits (V : Env) (n id i : Nat) (newPrice newQty : Int) (b b₁ b₂ : Book) (x : Nat × RejectReason) (b' : Book) : Prop where
  rests : Rests (Wf V) b₁
  idle : b₁.inFlight = []
  view : b₁.view V = (b.view V).leave (b.core.body i).priceTicks i .cancelled
  alone : b₁.oco.partner id = none ∧ ∀ y, b.oco.partner id = some y → b₁.oco.partner y = none
  next : b.core.nextOrderId ≤ b₁.core.nextOrderId
  submitted : Book.submit V n ((b.order i).replacement id newPrice newQty) b₁ = some (x, b₂)
  restored : ∃ spec, (b₂.relinkOco V (b.oco.partner id) x.1).rearmBracket V n spec x.1 = some b'

theorem cancelReplace_resubmits (hb : Rests (Wf V) b) (hx : b.inFlight = []) (hf : b.core.find id = some i)
    (hi : i ∈ b.core.queue V p) (h : b.cancelReplace V n id i newPrice newQty = some (x, b')) :
    ∃ b₁ b₂, Resubmits V n id i newPrice newQty b b₁ b₂ x b' := by
  obtain ⟨b₂, hsub, hre⟩ := cancelReplace_cases h
  obtain ⟨h1, ho⟩ := unlinked_idle hb id i (hb.1.found hf).1 (hb.1.tracked_of_found hf)
  have hprice : (b.core.body i).priceTicks = p := hb.1.price hi
  have hview := takeOut_view hb.1 hi id
  rw [← hprice] at hview
  refine ⟨_, b₂, h1, ?_, hview, ?_, ?_, hsub, _, hre⟩
  · exact (congrArg View.flight hview).trans hx
  · rw [ho]
    exact unlinkOco_alone id
  · have hw' : Wf V (b.unlinkOco id) := (unlinkOco_does (K := quietKinds) id trivial).wf hb.1
    have hcore : (b.unlinkOco id).core = b.core := unlinkOco_core
    rw [← hcore] at hi ⊢
    exact (Act.replace p i hi : Act V .replace (b.unlinkOco id) _).nextOrderId_le (by simp) hw'

section

variable {N : Nat} {u : Nat × Nat × Side × OrderType × TimeInForce} {b₁ b₂ : Book}

theorem Resubmits.find (h : Resubmits V n id i newPrice newQty b b₁ b₂ x b') (hid : (b.core.body i).id = id) (k : Nat) :
    b₁.core.find k = if k = id then none else b.core.find k := by
  have hidx : b₁.core.idIndex = b.core.idIndex.erase (b.core.body i).id := index_of_view h.view
  rw [hid] at hidx
  exact find_erased hidx k

theorem Resubmits.counter_le (h : Resubmits V n id i newPrice newQty b b₁ b₂ x b') :
    b₁.core.nextOrderId ≤ b₂.core.nextOrderId ∧ b₂.core.nextOrderId ≤ b'.core.nextOrderId := by
  have hd := submit_does n _ _ _ _ h.rests.1 (.inl trivial) h.submitted
  have hw2 := hd.wf h.rests.1
  obtain ⟨spec, hre⟩ := h.restored
  have hlink := relinkOco_does (V := V) (b.oco.partner id) x.1 hw2
  have harm := rearmBracket_does (hlink.wf hw2) (.inl trivial) hre
  exact ⟨hd.acts.nextOrderId_le (fun hk => hk) h.rests.1,
    (hlink.acts.nextOrderId_le (fun hk => hk) hw2).trans (harm.acts.nextOrderId_le (fun hk => hk) (hlink.wf hw2))⟩

/-- What restores the pair and the bracket lets no other order be found under the id. -/
theorem Resubmits.stamped (h : Resubmits V n id i newPrice newQty b b₁ b₂ x b') (hs : Stamped b'.core.nextOrderId id u b₂) :
    Stamped b'.core.nextOrderId id u b' := by
  have h2 := submit_idle h.rests h.submitted
  obtain ⟨spec, hre⟩ := h.restored
  have hs3 := (relinkOco_does (V := V) (b.oco.partner id) x.1 h2.1).acts.stamped quiet_of_tidy h2.1 hs
  have h3 := relinkOco_idle h2 (b.oco.partner id) x.1
  exact ((stamped_kept V _ id u).rearmBracket ⟨⟨h3.1, fun _ => hs3⟩, h3.2⟩ hre).1.2 le_rfl

/-- A call that returns 0 has taken the order out, and no more. -/
theorem Resubmits.refused {why : RejectReason} (h : Resubmits V n id i newPrice newQty b b₁ b₂ (0, why) b')
    (hn : b.core.nextOrderId ≠ 0) : b'.core = b₁.core ∧ b'.oco = b₁.oco := by
  have hpos := h.next
  obtain ⟨spec, hre⟩ := h.restored
  rw [relinkOco_zero, rearmBracket_zero] at hre
  cases hre
  obtain ⟨reason, he⟩ := submit_zero h.rests.1 (by omega) h.submitted
  obtain ⟨⟨g, a, ha, -⟩, -⟩ := admission_spec (b := b₁)
  rw [he, ha]
  exact ⟨rfl, rfl⟩

/-- Accepted, the order is found under its id again only as what it was. -/
theorem Resubmits.rested {j : Nat} (h : Resubmits V n id i newPrice newQty b b₁ b₂ x b') (hw : Wf V b) (hn : b.core.nextOrderId ≠ 0)
    (hf : b.core.find id = some i) (hid : id ≠ 0) (hsp : b.Spent b'.core.nextOrderId id) (hj : b'.core.find id = some j) :
    x = (id, .none) ∧ Stamped b'.core.nextOrderId id (b.core.body i).stamp b₂ := by
  have hidb := (hw.found hf).1
  have hfree : b₁.core.find id = none := by
    rw [h.find hidb, if_pos rfl]
  obtain ⟨nid, why⟩ := x
  refine ⟨?_, ?_⟩
  · rcases submit_id h.rests.1 h.submitted with rfl | ⟨rfl, rfl⟩
    · rw [(h.refused hn).1, hfree] at hj
      cases hj
    · exact congrArg (·, RejectReason.none) (if_neg hid)
  · have hs := submit_stamped h.rests h.idle hfree (hsp.mono h.next) h.submitted h.counter_le.2
    have hu : (b.core.body i).stamp = (id, (b.core.body i).clientId, (b.core.body i).side, (b.core.body i).type, (b.core.body i).tif) := by
      rw [← hidb]
      rfl
    rw [hu]
    exact hs

theorem modified_replaced {why : RejectReason} {nid : Nat} (hb : Rests (Wf V) b) (hx : b.inFlight = []) (hm : Mutual b.oco.partner)
    (hn : b.core.nextOrderId ≠ 0) (hid : id ≠ 0) (hzero : b'.core.find 0 = none) (hf : b.core.find id = some i)
    (hi : i ∈ b.core.queue V p) (hno : ¬ b.ReducesInPlace i newPrice newQty)
    (h : b.cancelReplace V n id i newPrice newQty = some ((nid, why), b')) :
    Modified V id i newPrice newQty b (.id nid why) b' := by
  obtain ⟨b₁, b₂, hr⟩ := cancelReplace_resubmits hb hx hf hi h
  have hidb := (hb.1.found hf).1
  have hprice : (b.core.body i).priceTicks = p := hb.1.price hi
  refine ⟨fun hin => absurd hin hno, fun why' h0 => ?_, fun hsp j hj => ?_, fun _ hsp hspy hfound => ?_⟩
  · cases h0
    obtain ⟨hcore, hoco⟩ := hr.refused hn
    rw [hcore, hoco]
    refine ⟨?_, fun k hk => ?_, fun q => ?_, fun j hj => ?_, hr.alone⟩
    · rw [hr.find hidb, if_pos rfl]
    · rw [hr.find hidb, if_neg hk]
    · rw [queue_of_view hr.view]
      show update (b.core.queue V) _ _ q = _
      by_cases e : q = (b.core.body i).priceTicks
      · rw [e, update_self]
        rfl
      · have hout : i ∉ b.core.queue V q := fun hq => e (hb.1.price hq).symm
        rw [update_of_ne e, List.erase_of_not_mem hout]
    · rw [body_of_view hr.view]
      exact update_of_ne hj ..
  · obtain ⟨hres, hs⟩ := hr.rested hb.1 hn hf hid hsp hj
    cases hres
    exact ⟨rfl, (hr.stamped hs).found j hj⟩
  · obtain ⟨j, hj⟩ := Option.isSome_iff_exists.mp hfound
    obtain ⟨hres, -⟩ := hr.rested hb.1 hn hf hid hsp hj
    cases hres
    have hw2 := (submit_idle hr.rests hr.submitted).1
    have hx2 : b₂.inFlight = [] := (submit_does n _ _ _ _ hr.rests.1 (.inl trivial) hr.submitted).inFlight.trans hr.idle
    have hsp2 := (hsp.mono hr.next).mono hr.counter_le.1
    -- had the order not come to rest, whoever is found under the id now would bear any stamp
    have hlive : (b₂.core.find id).isSome := by
      by_contra hgone
      have hany : ∀ u, (b'.core.body j).stamp = u := by
        intro u
        refine (hr.stamped (u := u) ⟨hsp2, fun k hk => ?_, fun k hk => ?_⟩).found j hj
        · rw [hk] at hgone
          exact absurd rfl hgone
        · rw [hx2] at hk
          cases hk
      have hne := (hany (0, 0, .buy, .limit, .day)).symm.trans (hany (1, 0, .buy, .limit, .day))
      cases hne
    obtain ⟨spec, hre⟩ := hr.restored
    have hlink : (b₂.relinkOco V (b.oco.partner id) id).core = b₂.core := relinkOco_core hlive _
    have hlive' : ((b₂.relinkOco V (b.oco.partner id) id).core.find id).isSome := by
      rw [hlink]
      exact hlive
    have hcore : b'.core = b₂.core := (rearmBracket_core hlive' hre).trans hlink
    have hsingle : ∀ {m}, b.Spent b'.core.nextOrderId m → b₁.oco.partner m = none → b₂.oco.partner m = none := fun hs ha =>
      submit_single hr.rests ⟨hs.mono hr.next, ha⟩ hr.submitted hr.counter_le.2
    intro y
    rw [rearmBracket_oco hlive' hre, hcore]
    refine relinkOco_partner hid hlive (hsingle hsp hr.alone.1) (fun w hw => ⟨?_, ?_, ?_⟩) y
    · exact (hm id w hw).2.symm
    · exact hsingle (hspy w hw) (hr.alone.2 w hw)
    · intro e
      rw [e, ← hcore]
      exact hzero

end

end

/-- A call of `modify` on an order at rest, in any reachable book. -/
theorem modify_keeps {V : Env} {P : Book → Op → Book → Prop} {b b' : Book} {id i : Nat} {newPrice newQty : Int} {res : Outcome}
    (h : Book.Reach V P b) (hf : b.core.find id = some i) (hi : b.core.Queued V i)
    (hs : Book.Step V b (.modify id newPrice newQty) res b') : Modified V id i newPrice newQty b res b' := by
  obtain ⟨hw, hx⟩ := Reach.wf h
  have hid := Reach.id_ne_zero h hf
  obtain ⟨p, hp⟩ := hi
  have hzero : b'.core.find 0 = none := by
    have h' : Book.Reach V (fun _ _ _ => True) b' := .step (Reach.mono (fun _ _ _ _ => trivial) h) hs trivial
    cases he : b'.core.find 0 with
    | none => rfl
    | some j => exact absurd rfl (Reach.id_ne_zero h' he)
  obtain ⟨n, hn⟩ := hs
  obtain ⟨⟨⟨nid, why⟩, b₁⟩, hm, he⟩ := Option.map_eq_some_iff.mp hn
  cases he
  rcases modify_cases hm with ⟨hno, -, -⟩ | ⟨j, hj, hcase⟩
  · rw [hf] at hno
    cases hno
  · obtain rfl : i = j := Option.some.inj (hf.symm.trans hj)
    rcases hcase with ⟨hin, hres, rfl⟩ | ⟨hno, hcr⟩
    · cases hres
      rw [show Outcome.id (b.order i).id .none = .id id .none from congrArg (Outcome.id · .none) (hw.found hf).1]
      exact modified_inPlace hw hid hf hp hin
    · exact modified_replaced ⟨hw, Reach.idle h⟩ hx (Reach.mutual h) (Reach.nextOrderId_ne_zero h) hid hzero hf hp hno hcr

/-- One of two linked orders moves to another price: it rests there, linked as before. -/
theorem modify_keeps_linked : ∃ b i res b', Book.Reach smallEnv (fun _ _ _ => True) b ∧ b.core.find 5 = some i ∧
    b.core.Queued smallEnv i ∧ Book.Step smallEnv b (.modify 5 4 3) res b' ∧ Modified smallEnv 5 i 4 3 b res b' ∧
    b.oco.partner 5 = some 7 ∧ b'.oco.partner 5 = some 7 := by
  have hrun : (Book.runIf smallEnv 20 (fun _ _ _ => true)
      [.submit { side := .sell, priceTicks := 5, qty := 3, orderId := 5 },
       .submit { side := .buy, priceTicks := 1, qty := 2, orderId := 7 },
       .linkOco 5 7] (fresh smallEnv)).any (fun b =>
        (Book.exec smallEnv 20 (.modify 5 4 3) b).any fun y =>
          decide ((b.core.find 5).isSome = true ∧ b.core.stopOrders = [] ∧ b.oco.partner 5 = some 7 ∧
            y.2.oco.partner 5 = some 7)) = true := by decide +kernel
  obtain ⟨b, res, b', -, hreach, hstep, hf⟩ := Reach.ofRunThen
    (f := fun b _ b' => decide ((b.core.find 5).isSome = true ∧ b.core.stopOrders = [] ∧ b.oco.partner 5 = some 7 ∧
      b'.oco.partner 5 = some 7)) hrun fun _ _ _ _ => trivial
  obtain ⟨hlive, hstops, hbefore, hafter⟩ := of_decide_eq_true hf
  obtain ⟨i, hi⟩ := Option.isSome_iff_exists.mp hlive
  have hq : b.core.Queued smallEnv i := ((Reach.wf hreach).1.found hi).2.resolve_left (by rw [hstops]; exact List.not_mem_nil)
  exact ⟨b, i, res, b', hreach, hi, hq, hstep, modify_keeps hreach hi hq hstep, hbefore, hafter⟩

/-- A price off the grid returns 0, and the order is gone. At another price, an iceberg shows all of itself and has lost
    its display size and its expiry, and a peg its offset. -/
theorem modify_loses :
    (∃ b b', Book.Reach smallEnv (fun _ _ _ => True) b ∧ Book.Step smallEnv b (.modify 5 99 3) (.id 0 .priceOutOfRange) b' ∧
      (b.core.find 5).any (fun i => (b.order i).isActive) = true ∧ b'.core.find 5 = none) ∧
    (∃ b b', Book.Reach smallEnv (fun _ _ _ => True) b ∧ Book.Step smallEnv b (.modify 5 4 3) (.id 5 .none) b' ∧
      ((b.core.find 5).map fun i => ((b.order i).icebergDisplaySize, (b.order i).expireTsNs)) = some (1, 100) ∧
      ((b'.core.find 5).map fun i => ((b'.order i).icebergDisplaySize, (b'.order i).expireTsNs)) = some (0, 0) ∧
      ((b'.core.find 5).map fun i => (b'.order i).displayedQty) = some 3) ∧
    ∃ b b', Book.Reach smallEnv (fun _ _ _ => True) b ∧ Book.Step smallEnv b (.modify 6 4 3) (.id 6 .none) b' ∧
      ((b.core.find 6).map fun i => (b.order i).pegOffsetTicks) = some (-1) ∧
      ((b'.core.find 6).map fun i => (b'.order i).pegOffsetTicks) = some 0 := by
  refine ⟨?_, ?_, ?_⟩
  · have hrun : (Book.runIf smallEnv 20 (fun _ _ _ => true)
        [.submit { side := .sell, priceTicks := 5, qty := 3, orderId := 5 }] (fresh smallEnv)).any (fun b =>
          (Book.exec smallEnv 20 (.modify 5 99 3) b).any fun y => decide (y.1 = .id 0 .priceOutOfRange ∧
            (b.core.find 5).any (fun i => (b.order i).isActive) = true ∧ y.2.core.find 5 = none)) = true := by decide +kernel
    obtain ⟨b, res, b', -, hreach, hstep, hf⟩ := Reach.ofRunThen
      (f := fun b res b' => decide (res = .id 0 .priceOutOfRange ∧
        (b.core.find 5).any (fun i => (b.order i).isActive) = true ∧ b'.core.find 5 = none)) hrun fun _ _ _ _ => trivial
    obtain ⟨rfl, hrest⟩ := of_decide_eq_true hf
    exact ⟨b, b', hreach, hstep, hrest⟩
  · have hrun : (Book.runIf smallEnv 20 (fun _ _ _ => true)
        [.submit { side := .sell, priceTicks := 5, qty := 3, type := .iceberg, tif := .gtd, orderId := 5, displayedQty := 1 },
         .setExpiry 5 100] (fresh smallEnv)).any (fun b =>
          (Book.exec smallEnv 20 (.modify 5 4 3) b).any fun y => decide (y.1 = .id 5 .none ∧
            ((b.core.find 5).map fun i => ((b.order i).icebergDisplaySize, (b.order i).expireTsNs)) = some (1, 100) ∧
            ((y.2.core.find 5).map fun i => ((y.2.order i).icebergDisplaySize, (y.2.order i).expireTsNs)) = some (0, 0) ∧
            ((y.2.core.find 5).map fun i => (y.2.order i).displayedQty) = some 3)) = true := by decide +kernel
    obtain ⟨b, res, b', -, hreach, hstep, hf⟩ := Reach.ofRunThen
      (f := fun b res b' => decide (res = .id 5 .none ∧
        ((b.core.find 5).map fun i => ((b.order i).icebergDisplaySize, (b.order i).expireTsNs)) = some (1, 100) ∧
        ((b'.core.find 5).map fun i => ((b'.order i).icebergDisplaySize, (b'.order i).expireTsNs)) = some (0, 0) ∧
        ((b'.core.find 5).map fun i => (b'.order i).displayedQty) = some 3)) hrun fun _ _ _ _ => trivial
    obtain ⟨rfl, hrest⟩ := of_decide_eq_true hf
    exact ⟨b, b', hreach, hstep, hrest⟩
  · have hrun : (Book.runIf smallEnv 20 (fun _ _ _ => true)
        [.submit { side := .sell, priceTicks := 6, qty := 3, orderId := 5 },
         .submitPeg .sell (-1) 3 6 0 0] (fresh smallEnv)).any (fun b =>
          (Book.exec smallEnv 20 (.modify 6 4 3) b).any fun y => decide (y.1 = .id 6 .none ∧
            ((b.core.find 6).map fun i => (b.order i).pegOffsetTicks) = some (-1) ∧
            ((y.2.core.find 6).map fun i => (y.2.order i).pegOffsetTicks) = some 0)) = true := by decide +kernel
    obtain ⟨b, res, b', -, hreach, hstep, hf⟩ := Reach.ofRunThen
      (f := fun b res b' => decide (res = .id 6 .none ∧
        ((b.core.find 6).map fun i => (b.order i).pegOffsetTicks) = some (-1) ∧
        ((b'.core.find 6).map fun i => (b'.order i).pegOffsetTicks) = some 0)) hrun fun _ _ _ _ => trivial
    obtain ⟨rfl, hrest⟩ := of_decide_eq_true hf
    exact ⟨b, b', hreach, hstep, hrest⟩

end HftLab.OrderBook
