/-
  HftLab.OrderBook.InFlight — an order in flight, while the rest of its call is done.

  Matching writes to orders of the queues and to its taker. The work it deferred cancels orders that rest or wait, and enters the
  exits of brackets, which match as takers of their own. The order of the call stays in its slot as matching left it
  (`Aloft`), until `finish` decides what becomes of it (`submit_flight`).
-/

import HftLab.OrderBook.Deferred
import HftLab.OrderBook.Progress

namespace HftLab.OrderBook

open Lib List

/-- From `b` to `b'` the slots of `F` stay in flight, and their orders as they are. -/
structure Aloft (F : List Nat) (b b' : Book) : Prop where
  flying : ∀ j ∈ F, j ∈ b'.inFlight
  body : ∀ j ∈ F, b'.core.body j = b.core.body j

section

variable {V : Env} {b b' b'' : Book} {F : List Nat} {p q : Int} {t ts i n : Nat} {r : Request} {k : Kind}
    {c : Core} {sub : Book.Submitter} {N : Prop} {b1 b2 : Book}

theorem Aloft.refl (h : ∀ j ∈ F, j ∈ b.inFlight) : Aloft F b b := ⟨h, fun _ _ => rfl⟩

theorem Aloft.trans (h : Aloft F b b') (h' : Aloft F b' b'') : Aloft F b b'' :=
  ⟨h'.flying, fun j hj => (h'.body j hj).trans (h.body j hj)⟩

/-- A step that touches slots not in `F`. -/
theorem Lawful.aloft {T : List Nat} (h : Lawful V T b b') (hT : ∀ i ∈ T, i ∉ F) (hF : ∀ j ∈ F, j ∈ b.inFlight) : Aloft F b b' := by
  have hout : ∀ j ∈ F, j ∉ T := fun j hj hjT => hT j hjT hj
  exact ⟨fun j hj => (h.moves.flight j (hout j hj)).mpr (hF j hj), fun j hj => h.moves.body j (hout j hj)⟩

theorem SameSlots.aloft (h : SameSlots b b') (hF : ∀ j ∈ F, j ∈ b.inFlight) : Aloft F b b' :=
  ⟨fun j hj => h.inFlight ▸ hF j hj, fun j _ => congrFun h.body j⟩

theorem Allocated.not_flying {c' : Core} {X : List Nat} {o : Order} (h : Allocated V X i o c c') (hl : Links V c X) : i ∉ X := by
  intro hi
  obtain ⟨G, hfree, -⟩ := h.layout
  refine (nodup_append.mp hl.nodup).2.2 i ?_ i hi rfl
  rw [hfree]
  exact mem_append_left _ mem_cons_self

/-- An act of tidying up touches an order that rests or waits. -/
theorem Act.aloft (h : Act V k b b') (hk : tidyKinds k) (hw : Wf V b) (hF : ∀ j ∈ F, j ∈ b.inFlight) : Aloft F b b' := by
  cases h with
  | aux hs _ _ _ => exact hs.aloft hF
  | cancel p i hi =>
    refine (hw.cancelInternal hi true).lawful.aloft (fun x hx hm => ?_) hF
    rw [mem_singleton.mp hx] at hm
    exact hw.flying_ne_queued hi (hF i hm) rfl
  | unwait i hi =>
    have hr := (hw.cancelPendingStop (i := i)).resolve_left fun hn => hn.1 hi
    refine hr.2.2.lawful.aloft (fun x hx hm => ?_) hF
    rw [mem_singleton.mp hx] at hm
    exact hw.not_live_of_flying (hF i hm) (.inr hi)
  | oco => exact ⟨hF, fun _ _ => rfl⟩
  | _ => cases hk

theorem Does.aloft (h : Does V tidyKinds b b') (hw : Wf V b) (hF : ∀ j ∈ F, j ∈ b.inFlight) : Aloft F b b' := by
  refine (h.acts.keeps (I := fun c => Wf V c ∧ Aloft F b c) ⟨hw, Aloft.refl hF⟩ ?_).2
  intro k c c' hk ha hI
  exact ⟨ha.wf hI.1, hI.2.trans (ha.aloft hk hI.1 hI.2.flying)⟩

/-! ## A match spares all but its taker -/

theorem matchAgainst_aloft (hw : Wf V b) (ht : t ∈ b.inFlight) (hF : ∀ j ∈ F, j ∈ b.inFlight ∧ j ≠ t)
    (hm : b.matchAgainst V n t = some b') : Aloft F b b' := by
  have hmem : ∀ j ∈ F, j ∈ b.inFlight := fun j hj => (hF j hj).1
  have hsame : SameSlots b (b.monoNsNow V).2 := .of_core rfl rfl
  have hcancel : ∀ {p : Int} {i : Nat} {c : Book} (l : List Report), Wf V c → i ∈ c.core.queue V p → Aloft F b c →
      Aloft F b (({ c with log := l } : Book).cancelInternal V i true) := by
    intro p i c l hw hi hs
    have hc : SameSlots c { c with log := l } := .of_core rfl rfl
    have hs1 := hs.trans (hc.aloft hs.flying)
    exact hs1.trans ((Act.cancel (b := { c with log := l }) p i hi).aloft trivial (hw.aside hc) hs1.flying)
  refine (priceLoop_passes (I := fun _ c => Aloft F b c) (fun {p i q c v} ht hs hpos hi hcase => ?_)
    (fun x y hs => ⟨hs.flying, hs.body⟩) ⟨hw.aside hsame, ht, Int.le_refl _⟩ (hsame.aloft hmem) hm).elim fun _ hs => hs
  cases hcase with
  | newest _ _ => exact ⟨hs.flying, hs.body⟩
  | oldest _ _ => exact hcancel _ ht.wf hi hs
  | both _ _ => exact hcancel (c := c) _ ht.wf hi hs
  | exec _ =>
    have hsh := (ht.wf.resting hi).shown
    have hl := ht.left
    refine hs.trans ((ht.wf.executed hi ht.flying (by omega) (by omega) (by omega)).aloft (fun x hx hm => ?_) hs.flying)
    rcases mem_cons.mp hx with hx | hx
    · exact (hF x hm).2 hx
    · rw [mem_singleton.mp hx] at hm
      exact ht.wf.flying_ne_queued hi (hs.flying i hm) rfl

/-! ## The rest of the call spares it -/

theorem accept_aloft (hw : Wf V b) (hq : 0 < r.qty) (hF : ∀ j ∈ F, j ∈ b.inFlight) (ha : b.accept V r = some (i, b')) :
    Aloft F b b' := by
  have hfresh := (Book.accept_eq hw.links ha).1.not_flying hw.links
  refine (hw.accept hq ha).aloft (fun x hx hm => ?_) hF
  rw [mem_singleton.mp hx] at hm
  exact hfresh (hF i hm)

theorem Waits.aloft {oid : Nat} {f : Order → Order} (h : Waits oid i f c b b') (hw : Wf V b) (hF : ∀ j ∈ F, j ∈ b.inFlight) :
    Aloft F b b' := by
  have ha := hw.links.allocAs h.alloc
  obtain ⟨G, hfree, hl⟩ := ha.layout
  refine (hw.wait hfree hl ha.body ha.rest h.waiting h.core h.inFlight).aloft (fun x hx hm => ?_) hF
  rw [mem_singleton.mp hx] at hm
  exact ha.not_flying hw.links (hF i hm)

theorem finish_aloft (hw : Wf V b) (hi : i ∈ b.inFlight) (hF : ∀ j ∈ F, j ∈ b.inFlight ∧ j ≠ i) (hf : b.finish V i = some b') :
    Aloft F b b' := by
  have hout : ∀ x ∈ [i], x ∉ F := fun x hx hm => (hF x hm).2 (mem_singleton.mp hx)
  have hmem : ∀ j ∈ F, j ∈ b.inFlight := fun j hj => (hF j hj).1
  unfold Book.finish at hf
  dsimp only at hf
  split at hf
  · cases hf
    exact (hw.finishFilled hi).lawful.aloft hout hmem
  · rename_i hlt
    split at hf
    · cases hf
      exact (hw.finishIoc hi).lawful.aloft hout hmem
    · split at hf
      · rename_i hr
        cases hf
        exact (hw.restOrder hi (by exact not_le.mp hlt) hr).aloft hout hmem
      · cases hf

/-- A submitter that spares the orders in flight. -/
def SubAloft (V : Env) (sub : Book.Submitter) : Prop :=
  ∀ r b x b', Wf V b → sub r b = some (x, b') → Aloft b.inFlight b b'

theorem armBracketExits_aloft (hsub : SubAloft V sub) (hdoes : SubDoes V True sub) (hw : Wf V b) {s : BracketSpec}
    (h : b.armBracketExits V sub s = some b') : Aloft b.inFlight b b' := by
  unfold Book.armBracketExits at h
  split at h
  · cases h
  · rename_i tp _ b1 hs
    have hw1 : Wf V b1 := (hdoes _ _ _ _ ((setInternal_does (K := fun _ => True) true trivial).wf hw) (.inl trivial) hs).wf
      ((setInternal_does (K := fun _ => True) true trivial).wf hw)
    have h1 : Aloft b.inFlight b b1 := by
      have := hsub _ _ _ _ ((setInternal_does (K := fun _ => True) true trivial).wf hw) hs
      exact ⟨this.flying, this.body⟩
    have h2 : Aloft b.inFlight b (b1.submitStop V s.exitSide s.slTriggerTicks 0 s.qty 0 s.clientId).2 := by
      rcases submitStop_cases s.exitSide s.slTriggerTicks 0 s.qty 0 s.clientId with he | ⟨i, f, c, hwait⟩
      · rw [he]
        exact h1
      · exact h1.trans (hwait.aloft hw1 h1.flying)
    dsimp only at h
    split at h
    · cases h
      refine ⟨fun j hj => ?_, fun j hj => ?_⟩
      · rw [(linkOco_does (V := V) (K := fun _ => True) _ _ trivial).inFlight]
        exact h2.flying j hj
      · refine (congrFun ?_ j).trans (h2.body j hj)
        unfold Book.linkOco
        split
        · rfl
        · split
          · rfl
          · split <;> rfl
    · cases h
      exact ⟨h2.flying, h2.body⟩

theorem processBracketPending_aloft (hsub : SubAloft V sub) (hdoes : SubDoes V True sub) (n : Nat) (hw : Wf V b)
    (h : Book.processBracketPending V sub n b = some b') : Aloft b.inFlight b b' := by
  induction n generalizing b with
  | zero => cases h
  | succ n ih =>
    unfold Book.processBracketPending at h
    split at h
    · cases h
      exact Aloft.refl fun _ hj => hj
    · split at h
      · cases h
      · rename_i b1 harm
        have hpop := popBracket_does (V := V) (b := b) (K := fun _ => True) trivial
        have h1 := armBracketExits_aloft hsub hdoes (hpop.wf hw) harm
        have hw1 : Wf V b1 := (armBracketExits_does hdoes trivial (hpop.wf hw) harm).wf (hpop.wf hw)
        have hx1 : b1.inFlight = b.inFlight := (armBracketExits_does hdoes trivial (hpop.wf hw) harm).inFlight
        have h2 := ih hw1 h
        rw [hx1] at h2
        exact ⟨h2.flying, fun j hj => (h2.body j hj).trans (h1.body j hj)⟩

/-- What the call does after its own match: it spares its order too. -/
theorem afterMatch_aloft (hsub : SubAloft V sub) (hdoes : SubDoes V True sub) {c : Book} (hw : Wf V b)
    (h : Book.processBracketPending V sub n (b.processOcoPending V) = some c) : Aloft b.inFlight b (c.processMmpPending V) := by
  have h1 := processOcoPending_does hw
  have h2 := processBracketPending_does hdoes n (h1.wf hw) (.inl trivial) h
  have ha1 : Aloft b.inFlight b (b.processOcoPending V) := h1.aloft hw fun _ hj => hj
  have ha2 := processBracketPending_aloft hsub hdoes n (h1.wf hw) h
  rw [h1.inFlight] at ha2
  have ha12 := ha1.trans ha2
  exact ha12.trans ((processMmpPending_does (h2.wf (h1.wf hw))).aloft (h2.wf (h1.wf hw)) ha12.flying)

theorem submitWith_aloft (hsub : SubAloft V sub) (hdoes : SubDoes V True sub) (n : Nat) : SubAloft V (Book.submitWith V sub n) := by
  intro r b x b' hw h
  rcases submitWith_cases hdoes hw (.inl trivial) h with ⟨reason, -, rfl, -⟩ | ⟨i, b1, b2, -, hc, hmatch⟩
  · have hreg := (admission_spec (V := V) (b := b) (r := r)).1
    obtain ⟨g, a, he, -⟩ := hreg
    rw [he]
    exact ⟨fun _ hj => hj, fun _ _ => rfl⟩
  · obtain ⟨⟨g, a, he, -⟩, hspec⟩ := admission_spec
    have hacc := hc.accepted
    have hq := (hspec hc.passed).1
    rw [he] at hacc
    have hw0 := hw.regated g a
    have h1 : Aloft b.inFlight b b1 := by
      have := accept_aloft hw0 hq (fun _ hj => hj) hacc
      exact ⟨this.flying, this.body⟩
    have hfresh : i ∉ b.inFlight := (Book.accept_eq hw0.links hacc).1.not_flying hw0.links
    have hF : ∀ j ∈ b.inFlight, j ≠ i := fun j hj e => hfresh (e ▸ hj)
    have hw1 : Wf V b1 := (hw0.accept hq hacc).wf hw0
    have hi1 : i ∈ b1.inFlight := by
      rw [accept_inFlight hacc]
      exact mem_cons_self
    have h2 : Aloft b.inFlight b1 b2 := by
      split at hmatch
      · unfold Book.matchAndProcess at hmatch
        split at hmatch
        · cases hmatch
        · rename_i c hm
          split at hmatch
          · cases hmatch
          · rename_i d hp
            cases hmatch
            have hmatched := matchAgainst_does hw1 hi1 hm
            have hc := matchAgainst_aloft hw1 hi1 (fun j hj => ⟨h1.flying j hj, hF j hj⟩) hm
            have hd := afterMatch_aloft hsub hdoes (hmatched.wf hw1) hp
            rw [hmatched.inFlight] at hd
            exact ⟨fun j hj => hd.flying j (h1.flying j hj), fun j hj => (hd.body j (h1.flying j hj)).trans (hc.body j hj)⟩
      · cases hmatch
        exact Aloft.refl h1.flying
    have hw2 := hc.matched.wf hw1
    have hi2 : i ∈ b2.inFlight := hc.matched.inFlight ▸ hi1
    exact h1.trans (h2.trans (finish_aloft hw2 hi2 (fun j hj => ⟨h2.flying j hj, hF j hj⟩) hc.finished))

theorem submit_aloft (n : Nat) : SubAloft V (Book.submit V n) := by
  induction n with
  | zero =>
    intro r b x b' _ h
    cases h
  | succ n ih => exact submitWith_aloft ih (submit_does n) n

/-! ## The tape only grows -/

theorem restOrder_trades : (b.restOrder i).tape.trades = b.tape.trades := by
  unfold Book.restOrder
  dsimp only
  split
  · rfl
  · exact Book.pushDelta_trades ..

theorem finish_trades (h : b.finish V i = some b') : b'.tape.trades = b.tape.trades := by
  unfold Book.finish at h
  dsimp only at h
  split at h
  · cases h
    rfl
  · split at h
    · cases h
      rfl
    · split at h
      · cases h
        exact restOrder_trades
      · cases h

/-- An execution is one trade, at the maker's price. -/
theorem executed_trades (V : Env) (b : Book) (p q : Int) (t i ts : Nat) : ∃ x,
    (b.executed V p t ts i q).tape.trades = b.tape.trades ++ [x] ∧ x.priceTicks = (b.order i).priceTicks ∧ x.qty = q ∧
      x.takerOrderId = (b.order t).id ∧ x.takerSide = (b.order t).side := by
  have hsettle : ∀ c : Book, (c.settleMaker p t i q).tape.trades = c.tape.trades := by
    intro c
    unfold Book.settleMaker
    dsimp only
    split
    · rfl
    · split
      · rfl
      · rfl
  refine ⟨_, (hsettle _).trans rfl, rfl, rfl, rfl, rfl⟩

/-- The work after a match adds to the trades. -/
theorem Act.trades_prefix (h : Act V k b b') (hk : afterKinds True k) (hw : Wf V b) : b.tape.trades <+: b'.tape.trades := by
  have hsame : b'.tape.trades = b.tape.trades → b.tape.trades <+: b'.tape.trades := fun he => he ▸ prefix_rfl
  cases h with
  | aux _ hf _ _ => exact hsame hf.trades
  | accept r i _ _ ha => exact hsame (Book.accept_rest ha).2.2.2.2
  | wait _ _ _ _ h => exact hsame h.frozen.trades
  | exec p t ts i qty hm =>
    obtain ⟨x, hx, -⟩ := executed_trades V b p (min qty (b.core.body i).displayedQty) t i ts
    exact ⟨[x], hx.symm⟩
  | cancel p i hi => exact hsame (Book.cancelInternal_rest true (hw.resting hi).active).2.2.2.2
  | unwait i _ =>
    refine hsame ?_
    unfold Book.cancelPendingStop
    split
    · rfl
    · rfl
  | rest => exact hsame restOrder_trades
  | stpAbort | stpCancel | finishFilled | finishIoc | oco => exact prefix_rfl
  | config | peg | replace | reduce | reduceStop | release | reprice | expire | auction | touch | bracket | clear => cases hk

theorem Does.trades_prefix (h : Does V (afterKinds True) b b') (hw : Wf V b) : b.tape.trades <+: b'.tape.trades := by
  refine (h.acts.keeps (I := fun c => Wf V c ∧ b.tape.trades <+: c.tape.trades) ⟨hw, prefix_rfl⟩ ?_).2
  intro k c c' hk ha hI
  exact ⟨ha.wf hI.1, hI.2.trans (ha.trades_prefix hk hI.1)⟩

/-! ## From entry to the end of the call -/

/-- An accepted order that is matched on entry is one that starts to match. -/
theorem Course.startMatch (h : Course V N r b b' i b1 b2) (hon : b1.matchesOnEntry r) :
    b.startMatch V r = some (i, (b1.monoNsNow V).1, (b1.order i).remainingQty, (b1.monoNsNow V).2) := by
  unfold Book.startMatch
  rw [show b.admission V r = (none, (b.admission V r).2) from Prod.ext h.passed rfl]
  dsimp only
  rw [h.accepted]
  dsimp only
  rw [if_pos hon]
  rfl

/-- Acceptance leaves the trading mode as it was. -/
theorem Course.mode (h : Course V N r b b' i b1 b2) : b1.gates.inAuctionMode = b.gates.inAuctionMode := by
  rw [(Book.accept_rest h.accepted).2.2.2.1]
  rcases admission_mode with hsame | ⟨hno, -⟩
  · exact hsame
  · exact absurd h.passed hno

/-- A call that returns: the price loop ended at some `c`, the deferred work went on to `d`, and the order was finished as the
    loop had left it. -/
theorem submit_flight {x : Nat × RejectReason} (hw : Wf V b) (hm : b.startMatch V r = some (i, ts, q, b''))
    (h : Book.submit V n r b = some (x, b')) : x = ((b''.order i).id, .none) ∧ ∃ m c d, Book.priceLoop V i ts m q b'' = some c ∧
      Does V (afterKinds True) c d ∧ Aloft c.inFlight c d ∧ i ∈ c.inFlight ∧ Wf V d ∧ d.finish V i = some b' := by
  obtain ⟨hpass, b1, hacc, hon, rfl, hx⟩ := startMatch_accepted hm
  cases hx
  cases n with
  | zero => cases h
  | succ n =>
    rcases submitWith_cases (submit_does n) hw (.inl trivial) h with ⟨reason, -, -, hno⟩ | ⟨j, b2, b3, hid, hc, hmatch⟩
    · rcases hno with hno | ⟨-, hno, -⟩
      · rw [hpass] at hno
        cases hno
      · rw [hacc] at hno
        cases hno
    · have hacc' := hc.accepted
      rw [hacc] at hacc'
      cases hacc'
      obtain ⟨⟨g, a, he, -⟩, hspec⟩ := admission_spec
      rw [he] at hacc
      have hw0 := hw.regated g a
      have hw1 : Wf V b1 := (hw0.accept (hspec hpass).1 hacc).wf hw0
      have hi1 : i ∈ b1.inFlight := by
        rw [accept_inFlight hacc]
        exact mem_cons_self
      rw [if_pos hon] at hmatch
      unfold Book.matchAndProcess at hmatch
      split at hmatch
      · cases hmatch
      · rename_i c hloop
        split at hmatch
        · cases hmatch
        · rename_i d hp
          cases hmatch
          have hmatched := matchAgainst_does hw1 hi1 hloop
          have hwc := hmatched.wf hw1
          have hd := afterMatch_aloft (submit_aloft n) (submit_does n) hwc hp
          have h1 := (processOcoPending_does hwc).mono (afterKinds_of_tidy (N := True))
          have h2 := h1.next hwc fun hw1 => processBracketPending_does (submit_does n) n hw1 (.inl trivial) hp
          have h3 := h2.next hwc fun hw2 => (processMmpPending_does hw2).mono (afterKinds_of_tidy (N := True))
          exact ⟨hid, n, c, _, hloop, h3, hd, hmatched.inFlight ▸ hi1, h3.wf hwc, hc.finished⟩

/-! ## The call returns -/

/-- A match only fills its taker. -/
theorem priceLoop_taker (ht : Taking V b t q) (hm : Book.priceLoop V t ts n q b = some b') :
    ∃ x, b'.core.body t = (b.core.body t).tookBy x := by
  have hcancel : ∀ {c : Book} {p : Int} {j : Nat} (l : List Report), Wf V c → t ∈ c.inFlight → j ∈ c.core.queue V p →
      (∃ x, c.core.body t = (b.core.body t).tookBy x) →
      ∃ x, (({ c with log := l } : Book).cancelInternal V j true).core.body t = (b.core.body t).tookBy x := by
    intro c p j l hw hfly hj hx
    have hal := (Act.cancel (b := { c with log := l }) p j hj).aloft trivial (hw.of_core rfl rfl)
      fun k hk => mem_singleton.mp hk ▸ hfly
    obtain ⟨x, hx⟩ := hx
    exact ⟨x, (hal.body t mem_cons_self).trans hx⟩
  refine (priceLoop_passes (I := fun _ c => ∃ x, c.core.body t = (b.core.body t).tookBy x)
    (fun {p i q c v} htk hx hpos hi hcase => ?_) (fun _ _ hx => hx) ht ⟨0, ?_⟩ hm).elim fun _ hx => hx
  · cases hcase with
    | newest _ _ => exact hx
    | oldest _ _ => exact hcancel _ htk.wf htk.flying hi hx
    | both _ _ => exact hcancel (c := c) _ htk.wf htk.flying hi hx
    | exec _ =>
      obtain ⟨x, hx⟩ := hx
      have htook : (c.executed V p t ts i (min q (c.core.body i).displayedQty)).core.body t = _ :=
        executed_taker htk.wf hi htk.flying
      rw [hx, tookBy_tookBy] at htook
      exact ⟨_, htook⟩
  · unfold Order.tookBy
    rw [Int.add_zero]

/-- The match of an accepted order returns, where every order shows itself and no bracket waits; the
    order keeps its price. -/
theorem match_ends (hw : Wf V b) (hi : i ∈ b.inFlight) (hgrid : ∀ u, b.core.best u = u.noBest ∨ inRange V (b.core.best u))
    (hv : b.AllVisible V) (hb : b.NoBracket) :
    ∃ n d, b.matchAndProcess V (Book.submit V n) n i = some d ∧ (d.core.body i).priceTicks = (b.core.body i).priceTicks := by
  have hloop : Looping V i ((b.order i).remainingQty, (b.monoNsNow V).2) :=
    ⟨⟨hw.of_core rfl rfl, hi, le_rfl⟩, hgrid⟩
  have hvis : (b.monoNsNow V).2.AllVisible V := hv
  obtain ⟨n, c, hm⟩ : ∃ n c, Book.priceLoop V i (b.monoNsNow V).1 n _ (b.monoNsNow V).2 = some c :=
    loop_ends hloop (visible_neverBarren hloop hvis)
  have hmatched : b.matchAgainst V (n + 1) i = some c := priceLoop_mono (Nat.le_succ n) hm
  have hdoes := matchAgainst_does hw hi hmatched
  obtain ⟨x, htook⟩ := priceLoop_taker hloop.taking hm
  have hwc := hdoes.wf hw
  have hoco := processOcoPending_does hwc
  have hnone : (c.processOcoPending V).NoBracket := hoco.acts.noBracket (fun hk => hk) (hdoes.acts.noBracket (fun hk => hk) hb)
  -- what the cancels of the OCO partners and of a tripped client do, they do to other orders
  have hic : i ∈ c.inFlight := hdoes.inFlight ▸ hi
  have hal : Aloft [i] c (c.processOcoPending V) := hoco.aloft hwc fun j hj => mem_singleton.mp hj ▸ hic
  have hal' := hal.trans ((processMmpPending_does (V := V) (hoco.wf hwc)).aloft (hoco.wf hwc) hal.flying)
  refine ⟨n + 1, (c.processOcoPending V).processMmpPending V, ?_, ?_⟩
  · unfold Book.matchAndProcess
    rw [hmatched]
    dsimp only
    unfold Book.processBracketPending
    rw [hnone.1]
    rfl
  · rw [hal'.body i mem_cons_self, htook]
    rfl

/-- Where every order shows itself and no bracket waits, `submit` returns. -/
theorem submit_ends (hw : Wf V b) (hg : b.core.OnGrid V) (hv : b.AllVisible V) (hb : b.NoBracket)
    (hr : r.type = .market → inRange V r.priceTicks) : ∃ n x b', Book.submit V n r b = some (x, b') := by
  cases hadm : b.admission V r with
  | mk e b0 =>
  cases e with
  | some reason =>
    refine ⟨1, (0, reason), b0.reject r reason, ?_⟩
    show Book.submitWith V _ 0 r b = _
    unfold Book.submitWith
    rw [hadm]
  | none =>
    cases hacc : b0.accept V r with
    | none =>
      refine ⟨1, (0, .poolExhausted), b0.reject r .poolExhausted, ?_⟩
      show Book.submitWith V _ 0 r b = _
      unfold Book.submitWith
      rw [hadm]
      dsimp only
      rw [hacc]
    | some y =>
      obtain ⟨i, b1⟩ := y
      have hprice : inRange V r.priceTicks := by
        by_cases hm : r.type = .market
        · exact hr hm
        · exact admission_grid (by rw [hadm]) hm
      obtain ⟨⟨g, a, he, -⟩, hspec⟩ := admission_spec
      rw [hadm] at he hspec
      obtain ⟨hq, hid⟩ := hspec rfl
      change b0 = _ at he
      subst he
      have hw0 := hw.regated g a
      have hact : Act V .accept { b with gates := g, asked := a } b1 := .accept r i hq hid hacc
      have hun := accept_unmoved hw0 hacc
      have hi : i ∈ b1.inFlight := by
        rw [accept_inFlight hacc]
        exact mem_cons_self
      have hbody : (b1.core.body i).priceTicks = r.priceTicks := by
        rw [(Book.accept_eq hw0.links hacc).1.body, Function.update_self]
        rfl
      have hgrid1 : ∀ u, b1.core.best u = u.noBest ∨ inRange V (b1.core.best u) := by
        intro u
        rw [hun.best]
        exact hg u
      -- once the match has returned, so does the rest
      have hrest : ∀ {n : Nat} {d : Book},
          (if b1.matchesOnEntry r then b1.matchAndProcess V (Book.submit V n) n i else some b1) = some d →
          (d.core.body i).priceTicks = r.priceTicks → ∃ n x b', Book.submit V n r b = some (x, b') := by
        intro n d hd hdp
        have hin : inRange V (d.order i).priceTicks := by
          rw [show (d.order i).priceTicks = r.priceTicks from hdp]
          exact hprice
        obtain ⟨b', hfin⟩ := finish_returns hin
        refine ⟨n + 1, ((b1.order i).id, .none), b', ?_⟩
        show Book.submitWith V _ n r b = _
        unfold Book.submitWith
        rw [hadm]
        dsimp only
        rw [hacc]
        dsimp only
        rw [hd]
        dsimp only
        rw [hfin]
      by_cases hon : b1.matchesOnEntry r
      · obtain ⟨n, d, hd, hdp⟩ := match_ends (hact.wf hw0) hi hgrid1 (hun.visible hv) (hact.noBracket (by simp) hb)
        exact hrest (by rw [if_pos hon]; exact hd) (hdp.trans hbody)
      · exact hrest (n := 0) (if_neg hon) hbody

end

end HftLab.OrderBook
