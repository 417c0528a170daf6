/-
  HftLab.OrderBook.OcoCalls — linked orders, from the start of a call to its end.

  `Calm`: a book between two calls, its index right, its partners mutual, nothing left to cancel. Here are the steps of a call
  that need more than `Kept`: those that bring in an order under an id of its own (`submitAs`, `waitAs`, `pegAs`), and those by
  which `modify` takes a linked order out and links it again.
-/

import HftLab.OrderBook.Caches
import HftLab.OrderBook.OcoPairs

namespace HftLab.OrderBook

open Lib Function List

/-! ## Between two calls -/

structure Calm (V : Env) (b : Book) : Prop where
  registered : Registered V b
  inFlight : b.inFlight = []
  mutual_ : Mutual b.oco.partner
  idle : b.OcoIdle

section

variable {V : Env} {N x y k i n oid id nid w : Nat} {L M : Nat → Nat → Prop} {b b' b2 : Book} {f : Order → Order} {c : Core}
    {r : Request} {reason : RejectReason} {newPrice newQty : Int} {res : Nat × RejectReason} {spec : Option BracketSpec}

/-- A live id is spent when none of those to be handed out is live. -/
theorem spent_of_live (hap : ∀ k, b.core.nextOrderId ≤ k → k < N → b.core.find k = none) (hk : (b.core.find k).isSome) :
    b.Spent N k := by
  unfold Book.Spent
  by_contra hno
  rw [hap k (by omega) (by omega)] at hk
  cases hk

/-- The watch starts from a calm book, when no id to be handed out is live. -/
theorem Calm.watched (h : Calm V b) (hap : ∀ k, b.core.nextOrderId ≤ k → k < N → b.core.find k = none) :
    Rests (Watched V N b.Paired) b := by
  refine ⟨⟨h.registered.wf, fun _ => ⟨h.registered, h.mutual_, fun k hk => spent_of_live hap hk, fun i hi => ?_,
    fun x y hp => ?_⟩⟩, h.idle⟩
  · rw [h.inFlight] at hi
    cases hi
  · exact ⟨spent_of_live hap hp.2.1, spent_of_live hap hp.2.2, .inl hp⟩

theorem Watched.calm (h : Rests (Watched V b.core.nextOrderId L) b) (hx : b.inFlight = []) : Calm V b :=
  ⟨(h.1.2 le_rfl).registered, hx, (h.1.2 le_rfl).mutual_, h.2⟩

/-- An order submitted under an id of its own: it is spent, and of no watched pair. -/
theorem Watched.submitAs (h : Rests (Watched V N L) b) (hx : b.inFlight = [])
    (hid : r.orderId ≠ 0 → b.core.find r.orderId = none → b.core.nextOrderId ≤ N →
      b.Spent N r.orderId ∧ ∀ x y, L x y → r.orderId ≠ x ∧ r.orderId ≠ y)
    (hs : Book.submit V n r b = some (res, b')) : Rests (Watched V N L) b' := by
  by_cases h0 : r.orderId = 0
  · exact ((watched_kept V N L).keepsAuto n r b res b' h0 h hs).1
  · refine (watched_kept V N L).submit h (fun i b1 hp ha hI => ?_) hs
    obtain ⟨⟨g, a, he, -⟩, hspec⟩ := admission_spec
    obtain ⟨hq, hdup⟩ := hspec hp
    rw [he] at ha hI
    have hact : Act V .accept { b with gates := g, asked := a } b1 := .accept r i hq hdup ha
    have hn := accept_next ha
    rw [if_neg h0] at hn
    refine ⟨hact.wf hI.1, fun hN => ?_⟩
    obtain ⟨hsp, hother⟩ := hid h0 (hdup h0) (hn ▸ hN)
    refine (hI.2 (hn ▸ hN)).accept hq ha ?_ hn.ge
    unfold Core.newId
    rw [if_neg h0]
    exact ⟨.of_idle hx (hdup h0), hsp.mono hn.ge, hother⟩

/-- The id asked for, or the next automatic one, is fresh. -/
theorem Watch.fresh_new (h : Watch V N L b) (hx : b.inFlight = [])
    (hn : b'.core.nextOrderId = if oid = 0 then b.core.nextOrderId + 1 else b.core.nextOrderId) (hN : b'.core.nextOrderId ≤ N)
    (hid : oid ≠ 0 → b.core.find oid = none ∧ b.Spent N oid ∧ ∀ x y, L x y → oid ≠ x ∧ oid ≠ y) :
    Watch.Fresh N L b b' (b.core.newId oid) := by
  unfold Core.newId
  split
  · rename_i h0
    rw [if_pos h0] at hn
    exact h.fresh_next hn hN
  · rename_i h0
    rw [if_neg h0] at hn
    obtain ⟨hf, hsp, hother⟩ := hid h0
    exact ⟨.of_idle hx hf, hsp.mono hn.ge, hother⟩

theorem Watched.waitAs (h : Rests (Watched V N L) b) (hx : b.inFlight = []) (hwt : Waits oid i f c b b')
    (hid : oid ≠ 0 → b.core.find oid = none ∧ b.Spent N oid ∧ ∀ x y, L x y → oid ≠ x ∧ oid ≠ y) : Rests (Watched V N L) b' := by
  have hact : Act V .wait b b' := .wait oid i f c hwt
  have hn : b'.core.nextOrderId = if oid = 0 then b.core.nextOrderId + 1 else b.core.nextOrderId := by
    rw [hwt.core]
    show c.nextOrderId = _
    exact allocAs_next hwt.alloc
  refine ⟨⟨hact.wf h.1.1, fun hN => ?_⟩, h.2.congr hwt.frozen.oco⟩
  have hb := h.1.2 ((hact.nextOrderId_le (by simp) h.1.1).trans hN)
  exact hb.wait hwt (hb.fresh_new hx hn hN hid)

theorem Watched.pegAs (h : Rests (Watched V N L) b) (hx : b.inFlight = []) (hp : Pegs V oid i f c b b')
    (hid : oid ≠ 0 → b.core.find oid = none ∧ b.Spent N oid ∧ ∀ x y, L x y → oid ≠ x ∧ oid ≠ y) : Rests (Watched V N L) b' := by
  have hact : Act V .peg b b' := .peg oid i f c hp
  have hn : b'.core.nextOrderId = if oid = 0 then b.core.nextOrderId + 1 else b.core.nextOrderId := by
    obtain ⟨x, y, hc⟩ := hp.core
    rw [hc]
    show c.nextOrderId = _
    exact allocAs_next hp.alloc
  refine ⟨⟨hact.wf h.1.1, fun hN => ?_⟩, h.2.congr hp.frozen.oco⟩
  have hb := h.1.2 ((hact.nextOrderId_le (by simp) h.1.1).trans hN)
  exact hb.peg hp (hb.fresh_new hx hn hN hid)

/-! ## Replaced orders -/

/-- `submit` returns 0 or the id of its order. -/
theorem submit_id (hw : Wf V b) (hs : Book.submit V n r b = some ((nid, reason), b')) :
    nid = 0 ∨ nid = b.core.newId r.orderId ∧ reason = .none := by
  rcases submit_cases hw (.inl trivial) hs with ⟨_, hres, -⟩ | ⟨i, b1, b2, n', hres, hc, -⟩
  · cases hres
    exact .inl rfl
  · cases hres
    exact .inr ⟨admitted_id hw hc.accepted, rfl⟩

theorem Calm.unlinkOco (h : Calm V b) (id : Nat) : Calm V (b.unlinkOco id) := by
  have hd : Does V quietKinds b (b.unlinkOco id) := unlinkOco_does id trivial
  refine ⟨h.registered.acts hd.acts fun _ hk => hk, hd.inFlight.trans h.inFlight, ?_, ?_⟩
  · unfold Book.unlinkOco
    split
    · exact h.mutual_
    · rename_i w hw
      exact h.mutual_.drop hw
  · unfold Book.unlinkOco
    split
    · exact h.idle
    · exact h.idle

/-- Unlinked, the order and its partner have none, and the other pairs are as before. -/
theorem Calm.unlinked (h : Calm V b) (id : Nat) : (b.unlinkOco id).oco.partner id = none ∧
    (∀ x y, b.Paired x y → x ≠ id → y ≠ id → (b.unlinkOco id).Paired x y) ∧
    ∀ w, b.oco.partner id = some w → (b.unlinkOco id).oco.partner w = none := by
  unfold Book.unlinkOco
  split
  · rename_i hn
    refine ⟨hn, fun x y hp _ _ => hp, fun w hw => ?_⟩
    rw [hn] at hw
    cases hw
  · rename_i w hw
    refine ⟨?_, fun x y hp hx hy => ⟨?_, hp.2⟩, fun u hu => ?_⟩
    · show update (update b.oco.partner id none) w none id = none
      rw [update_of_ne (h.mutual_ id w hw).2, update_self]
    · have hxw : x ≠ w := by
        rintro rfl
        have := hp.1
        rw [(h.mutual_ id x hw).1] at this
        exact hy (Option.some.inj this).symm
      show update (update b.oco.partner id none) w none x = some y
      rw [update_of_ne hxw, update_of_ne hx]
      exact hp.1
    · rw [hw] at hu
      cases hu
      exact update_self ..

theorem cancelInternal_slot (ha : (b.order i).isActive) (e : Bool) : (b.cancelInternal V i e).core.freeHead = some i := by
  unfold Book.cancelInternal
  simp only [ha, Bool.not_true, Bool.false_eq_true, if_false]
  cases e <;> rfl

/-- An order without a partner is taken out of the book, to be replaced. -/
theorem Calm.replaced (h : Calm V b) {p : Int} (hi : i ∈ b.core.queue V p) (hn : b.oco.partner (b.core.body i).id = none) :
    Calm V (b.cancelInternal V i false) ∧ (b.cancelInternal V i false).oco = b.oco ∧
      ∀ x y, b.Paired x y → (b.cancelInternal V i false).Paired x y := by
  have hact : Act V .replace b (b.cancelInternal V i false) := .replace p i hi
  obtain ⟨hidx, ho⟩ := cancelInternal_gone h.registered.wf hi false
  have ho : (b.cancelInternal V i false).oco = b.oco := by
    rw [ho]
    unfold Oco.complete
    rw [hn]
  refine ⟨⟨h.registered.act hact trivial, Book.cancelInternal_inFlight.trans h.inFlight, ?_, h.idle.congr ho⟩, ho, ?_⟩
  · rw [ho]
    exact h.mutual_
  · rintro x y ⟨hxy, hx, hy⟩
    have hne : ∀ {u v}, b.oco.partner u = some v → u ≠ (b.core.body i).id := by
      rintro u v hu rfl
      rw [hn] at hu
      cases hu
    refine ⟨by rw [ho]; exact hxy, ?_, ?_⟩
    · rw [find_erased hidx, if_neg (hne hxy)]
      exact hx
    · rw [find_erased hidx, if_neg (hne (h.mutual_ x y hxy).1)]
      exact hy

/-- The cancel of `w` is queued: a leg that is gone and `w` may be watched from here on. -/
theorem Watch.push (h : Watch V N L b) (hx : b.inFlight = [])
    (hM : ∀ x y, M x y → L x y ∨ b.Spent N x ∧ b.Spent N y ∧ (b.core.find x = none ∧ y = w ∨ x = w ∧ b.core.find y = none)) :
    Watch V N M { b with oco := { b.oco with pendingCancel := b.oco.pendingCancel ++ [w] } } := by
  have hact : Act V .oco b { b with oco := { b.oco with pendingCancel := b.oco.pendingCancel ++ [w] } } := .oco _ (.push w)
  refine ⟨h.registered.act hact trivial, h.mutual_, h.spent, fun i hi => ?_, fun x y hxy => ?_⟩
  · have hi : i ∈ b.inFlight := hi
    rw [hx] at hi
    cases hi
  · rcases hM x y hxy with hL | ⟨hsx, hsy, he⟩
    · obtain ⟨h1, h2, hp⟩ := h.pairs x y hL
      exact ⟨h1, h2, hp.imp id fun ⟨hx, hy⟩ => ⟨hx.imp id (mem_append_left _), hy.imp id (mem_append_left _)⟩⟩
    · refine ⟨hsx, hsy, .inr ?_⟩
      rcases he with ⟨he, rfl⟩ | ⟨rfl, he⟩
      · exact ⟨.inl he, .inr (mem_append_right _ (mem_singleton_self _))⟩
      · exact ⟨.inr (mem_append_right _ (mem_singleton_self _)), .inl he⟩

/-- The order filled on re-entry, so its partner is cancelled. -/
theorem Watched.relinkFilled (h : Rests (Watched V N L) b) (hx : b.inFlight = []) (hnid : nid ≠ 0)
    (hf : b.core.find nid = none)
    (hM : ∀ x y, M x y → L x y ∨ b.Spent N x ∧ b.Spent N y ∧ (b.core.find x = none ∧ y = w ∨ x = w ∧ b.core.find y = none)) :
    Rests (Watched V N M) (b.relinkOco V (some w) nid) := by
  unfold Book.relinkOco
  dsimp only
  rw [if_neg hnid, if_neg (by simp [hf]), if_pos (by simp [hf])]
  refine (watched_kept V N M).processOcoPending ⟨?_, fun hN => (h.1.2 hN).push hx hM⟩
  exact (Act.oco _ (.push w) : Act V .oco b _).wf h.1.1

theorem Watched.relink (h : Rests (Watched V N L) b) (hx : b.inFlight = []) (partner : Option Nat) :
    Rests (Watched V N L) (b.relinkOco V partner nid) := by
  cases partner with
  | none => exact h
  | some w =>
    by_cases hnid : nid = 0
    · unfold Book.relinkOco
      dsimp only
      rw [if_pos hnid]
      exact h
    · by_cases hf : b.core.find nid = none
      · exact Watched.relinkFilled h hx hnid hf fun x y hL => .inl hL
      · unfold Book.relinkOco
        dsimp only
        rw [if_neg hnid]
        split
        · exact ⟨h.1.link _ _, h.2.link _ _⟩
        · rw [if_neg (by simpa using hf)]
          exact h

theorem relinkOco_zero (partner : Option Nat) : b.relinkOco V partner 0 = b := by
  cases partner <;> rfl

theorem rearmBracket_zero (spec : Option BracketSpec) : b.rearmBracket V n spec 0 = some b := by
  cases spec <;> rfl

theorem relinkOco_core (hf : (b.core.find nid).isSome) (partner : Option Nat) :
    (b.relinkOco V partner nid).core = b.core := by
  unfold Book.relinkOco
  split
  · rfl
  · split
    · rfl
    · split
      · unfold Book.linkOco
        repeat' split
        all_goals rfl
      · rw [if_neg (by simp [Option.isSome_iff_ne_none.mp hf])]

theorem rearmBracket_core (hf : (b.core.find nid).isSome) (h : b.rearmBracket V n spec nid = some b') :
    b'.core = b.core := by
  unfold Book.rearmBracket at h
  split at h
  · cases h
    rfl
  · split at h
    · cases h
      rfl
    · cases h
      rfl

/-- What `modify` resubmits the order under `id` as. -/
def Order.replacement (o : Order) (id : Nat) (newPrice newQty : Int) : Request :=
  { side := o.side, priceTicks := newPrice, qty := i32 (newQty - o.filledQty), type := o.type, tif := o.tif, orderId := id,
    clientId := o.clientId }

/-- The order under `id` is unlinked and taken out of the book: the rest is as before. -/
structure TakenOut (V : Env) (id : Nat) (b b1 : Book) : Prop where
  calm : Calm V b1
  next : b.core.nextOrderId ≤ b1.core.nextOrderId
  find : ∀ x, b1.core.find x = if x = id then none else b.core.find x
  pairs : ∀ x y, b.Paired x y → x ≠ id → y ≠ id → b1.Paired x y
  single : ∀ w, b.oco.partner id = some w → b1.oco.partner id = none ∧ b1.oco.partner w = none
  slot : b1.core.freeHead ≠ none

theorem Calm.takeOut (h : Calm V b) (hf : b.core.find id = some i) (ha : (b.order i).isActive) :
    TakenOut V id b ((b.unlinkOco id).cancelInternal V i false) := by
  have h0 := h.unlinkOco id
  have hw0 := h0.registered.wf
  obtain ⟨hnone, hpairs, hlone⟩ := h.unlinked id
  have hf0 : (b.unlinkOco id).core.find id = some i := by
    rw [unlinkOco_core]
    exact hf
  have ha0 : ((b.unlinkOco id).order i).isActive := by
    unfold Book.order
    rw [unlinkOco_core]
    exact ha
  obtain ⟨p, hp⟩ := hw0.tracked_of_found hf0 ha0
  have hid : ((b.unlinkOco id).core.body i).id = id := (hw0.found hf0).1
  obtain ⟨h1, ho, hpairs1⟩ := h0.replaced hp (by rw [hid]; exact hnone)
  refine ⟨h1, ?_, fun x => ?_, fun x y hxy hx hy => hpairs1 x y (hpairs x y hxy hx hy), fun w hw => ?_, ?_⟩
  · have hn := (Act.replace p i hp : Act V .replace (b.unlinkOco id) _).nextOrderId_le (by simp) hw0
    rw [unlinkOco_core] at hn
    exact hn
  · have hidx := (cancelInternal_gone hw0 hp false).1
    rw [hid] at hidx
    rw [find_erased hidx, unlinkOco_core]
  · rw [ho]
    exact ⟨hnone, hlone w hw⟩
  · rw [cancelInternal_slot ha0]
    exact Option.some_ne_none i

/-! ## On-close orders -/

theorem accept_frame (h : b.accept V r = some (i, b')) : b'.closing = b.closing ∧ b'.gates = b.gates := by
  unfold Book.accept at h
  dsimp only at h
  split at h
  · cases h
  · cases h
    exact ⟨rfl, rfl⟩

theorem finish_frame (h : b.finish V i = some b') : b'.closing = b.closing ∧ b'.gates = b.gates := by
  unfold Book.finish at h
  dsimp only at h
  split at h
  · cases h
    exact ⟨rfl, rfl⟩
  · split at h
    · cases h
      exact ⟨rfl, rfl⟩
    · split at h
      · cases h
        unfold Book.restOrder
        dsimp only
        split
        · exact ⟨rfl, rfl⟩
        · exact ⟨rfl, rfl⟩
      · cases h

/-- In auction mode nothing matches on entry: the mode stays, and so do the queues of on-close orders. -/
theorem submit_auction (hw : Wf V b) (ha : b.gates.inAuctionMode) (hs : Book.submit V n r b = some (res, b')) :
    b'.closing = b.closing ∧ b'.gates.inAuctionMode := by
  have hadm := admission_auction (V := V) (r := r) ha
  obtain ⟨⟨g, a, he, -⟩, -⟩ := admission_spec
  have hcl : (b.admission V r).2.closing = b.closing := by rw [he]
  rcases submit_cases hw (.inl trivial) hs with ⟨_, -, rfl, -⟩ | ⟨i, b1, b2, n', -, hc, hm⟩
  · exact ⟨hcl, hadm⟩
  · obtain ⟨h1, h2⟩ := accept_frame hc.accepted
    have hoff : b1.matchesOnEntry r = false := by
      unfold Book.matchesOnEntry
      rw [h2, hadm]
      simp
    rw [hoff] at hm
    cases hm
    obtain ⟨h3, h4⟩ := finish_frame hc.finished
    exact ⟨h3.trans (h1.trans hcl), by rw [h4, h2]; exact hadm⟩

theorem inject_auction (rs : List Request) {ids : List Nat} (hw : Wf V b) (ha : b.gates.inAuctionMode)
    (hs : Book.inject (Book.submit V n) rs b = some (ids, b')) : b'.closing = b.closing := by
  induction rs generalizing b ids with
  | nil =>
    cases hs
    rfl
  | cons r rs ih =>
    unfold Book.inject at hs
    split at hs
    · cases hs
    · rename_i id _ b1 hsub
      obtain ⟨h1, h2⟩ := submit_auction hw ha hsub
      split at hs
      · cases hs
      · rename_i ids' b2 hrest
        cases hs
        have hd := submit_does n _ _ _ _ hw (.inl trivial) hsub
        exact (ih (hd.wf hw) h2 hrest).trans h1

/-- The ids of the on-close orders. -/
def Book.closingIds (b : Book) : List Nat := b.closing.locQueue.map (·.id) ++ b.closing.mocQueue.map (·.id)

end

end HftLab.OrderBook
