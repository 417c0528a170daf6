/-
  HftLab.OrderBook.Deferred — the deferred cancels of OCO partners, and what a call keeps besides.

  - `Act.effect`: what each act of matching, cancelling and expiring does to the index and to the OCO records. An
    order that leaves the index completes: its pair is dropped and its partner queued for cancellation;
  - `processOcoPending_empties`: `process_oco_pending` leaves no cancel behind;
  - `Kept`: a property that each of these steps keeps, the entry of an order under the next automatic id and the
    rounds of `process_oco_pending` among them. `submit`, the brackets it arms, the mass cancels of market-maker
    protection and the auctions keep it too, and they end with nothing left to cancel.
-/

import HftLab.OrderBook.IdIndex

namespace HftLab.OrderBook

open Lib List

variable {b b' : Book} {V : Env}

/-! ## Effects -/

/-- The acts by which orders trade, leave or come to rest. -/
def workKinds : Kind → Prop
  | .accept | .wait | .peg | .release | .oco | .clear => False
  | _ => True

theorem quiet_of_work (k : Kind) (h : workKinds k) : quietKinds k := by
  cases k <;> first | exact h | trivial

theorem work_of_match (k : Kind) (h : matchKinds k) : workKinds k := by
  cases k <;> first | exact h | trivial

/-- What an act does to the index and the OCO records: nothing, or an order leaves and completes, or an order comes
    to rest. -/
inductive Effect (b b' : Book) : Prop
  | same : b'.core.idIndex = b.core.idIndex → b'.oco = b.oco → Effect b b'
  | gone (k : Nat) : b'.core.idIndex = b.core.idIndex.erase k → b'.oco = b.oco.complete k → Effect b b'
  | come (i : Nat) : i ∈ b.inFlight → b'.core.idIndex = b.core.idIndex.insert (b.core.body i).id i → b'.oco = b.oco →
      Effect b b'

section

variable {V : Env} {b b' : Book} {p : Int} {i n : Nat} {k : Kind} {r : Request}

theorem cancelInternal_gone (hw : Wf V b) (hi : i ∈ b.core.queue V p) (e : Bool) :
    (b.cancelInternal V i e).core.idIndex = b.core.idIndex.erase (b.core.body i).id ∧
      (b.cancelInternal V i e).oco = b.oco.complete (b.core.body i).id :=
  ⟨index_of_view (hw.cancelInternal_view hi e), (Book.cancelInternal_rest e (hw.resting hi).active).2.2.1⟩

theorem cancelPendingStop_gone (hw : Wf V b) (hi : i ∈ b.core.stopOrders) :
    (b.cancelPendingStop i).2.core.idIndex = b.core.idIndex.erase (b.core.body i).id ∧
      (b.cancelPendingStop i).2.oco = b.oco.complete (b.core.body i).id := by
  obtain ⟨j, -, hv⟩ := hw.cancelPendingStop_view hi
  refine ⟨index_of_view hv, ?_⟩
  unfold Book.cancelPendingStop
  split
  · rename_i hn
    exact absurd hi (by simpa using hn)
  · rfl

theorem executed_effect {t ts : Nat} {q : Int} : Effect b (b.executed V p t ts i q) := by
  unfold Book.executed Book.settleMaker
  dsimp only
  split
  · refine .same ?_ rfl
    show ((b.fillMaker V p t i q ts).core.refresh p i _).idIndex = _
    rw [(Core.refresh_rest _).1]
    rfl
  · split
    · exact .gone ((b.fillMaker V p t i q ts).order i).id rfl rfl
    · exact .same rfl rfl

theorem auctionTake_effect {clearing take : Int} {ts : Nat} : Effect b (b.auctionTake p clearing i take ts) := by
  unfold Book.auctionTake
  dsimp only
  split
  · exact .gone (b.order i).id rfl rfl
  · exact .same rfl rfl

theorem Act.effect (h : Act V k b b') (hk : workKinds k) (hw : Wf V b) : Effect b b' := by
  cases h with
  | aux hs hf _ _ => exact .same hs.idIndex hf.oco
  | config hs _ ho _ _ _ => exact .same hs.idIndex ho
  | exec p t ts i qty hm => exact executed_effect
  | cancel p i hi => exact .gone _ (cancelInternal_gone hw hi true).1 (cancelInternal_gone hw hi true).2
  | replace p i hi => exact .gone _ (cancelInternal_gone hw hi false).1 (cancelInternal_gone hw hi false).2
  | unwait i hi => exact .gone _ (cancelPendingStop_gone hw hi).1 (cancelPendingStop_gone hw hi).2
  | expire p i hi => exact .gone _ (index_of_view (hw.expireOrder_view hi)) rfl
  | rest i hi _ hr =>
    have hid : (b.core.body i).atRest.id = (b.core.body i).id := by
      unfold Order.atRest
      split <;> rfl
    refine .come i hi ?_ ?_
    · have hidx : (b.restOrder i).core.idIndex = b.core.idIndex.insert (b.core.body i).atRest.id i :=
        index_of_view (hw.restOrder_view hi hr)
      rw [hidx, hid]
    · unfold Book.restOrder
      dsimp only
      split <;> rfl
  | auction => exact auctionTake_effect
  | reprice p i q x y hi hr =>
    have hv : Book.view V { b with core := { b.core.reprice V i q with bestBid := x, bestAsk := y } } = _ :=
      hw.reprice_view hi hr rfl rfl
    exact .same (index_of_view hv) rfl
  | stpAbort | stpCancel | finishFilled | finishIoc | reduce | reduceStop | touch | bracket => exact .same rfl rfl
  | accept | wait | peg | release | oco | clear => cases hk

theorem Wf.flying_ne_stop (hw : Wf V b) {j : Nat} (hi : i ∈ b.core.stopOrders) (hj : j ∈ b.inFlight) : j ≠ i := by
  rintro rfl
  exact hw.not_live_of_flying hj (.inr hi)

/-- Such an act lets no order into flight and changes the id of none in flight. -/
theorem Act.flying_id (h : Act V k b b') (hk : quietKinds k) (hw : Wf V b) {j : Nat} (hj : j ∈ b'.inFlight) :
    j ∈ b.inFlight ∧ (b'.core.body j).id = (b.core.body j).id := ⟨h.flying_mem hk hj, h.id_eq hk hw j⟩

theorem Acts.flying_id {K : Kind → Prop} (h : Acts V K b b') (hK : ∀ k, K k → quietKinds k) (hw : Wf V b) :
    ∀ j ∈ b'.inFlight, j ∈ b.inFlight ∧ (b'.core.body j).id = (b.core.body j).id := by
  refine (h.keeps (I := fun c => Wf V c ∧ ∀ j ∈ c.inFlight, j ∈ b.inFlight ∧ (c.core.body j).id = (b.core.body j).id)
    ⟨hw, fun j hj => ⟨hj, rfl⟩⟩ ?_).2
  rintro k c c' hk ha ⟨hwc, hc⟩
  refine ⟨ha.wf hwc, fun j hj => ?_⟩
  obtain ⟨h1, h2⟩ := ha.flying_id (hK k hk) hwc hj
  obtain ⟨h3, h4⟩ := hc j h1
  exact ⟨h3, h2.trans h4⟩

theorem Acts.nextOrderId_le {K : Kind → Prop} (h : Acts V K b b') (hK : ¬ K .clear) (hw : Wf V b) :
    b.core.nextOrderId ≤ b'.core.nextOrderId := by
  refine (h.keeps (I := fun c => Wf V c ∧ b.core.nextOrderId ≤ c.core.nextOrderId) ⟨hw, le_rfl⟩ ?_).2
  rintro k c c' hk ha ⟨hwc, hc⟩
  exact ⟨ha.wf hwc, hc.trans (ha.nextOrderId_le (fun e => hK (e ▸ hk)) hwc)⟩

theorem freeAll_nextOrderId (l : List Nat) (c : Core) : (l.foldl Core.freeOrder c).nextOrderId = c.nextOrderId := by
  induction l generalizing c with
  | nil => rfl
  | cons i l ih => rw [foldl_cons, ih, Core.freeOrder]

theorem clear_nextOrderId (V : Env) (b : Book) : (b.clear V).core.nextOrderId = b.core.nextOrderId := by
  have hlevels : ∀ (ps : List Int) (c : Core), (ps.foldl (Core.clearLevel V) c).nextOrderId = c.nextOrderId := by
    intro ps
    induction ps with
    | nil => exact fun c => rfl
    | cons p ps ih =>
      intro c
      rw [foldl_cons, ih]
      exact freeAll_nextOrderId (c.queue V p) c
  obtain ⟨c, hc, hcore⟩ := Book.clear_core
  rw [hcore]
  show (c.stopOrders.foldl Core.freeOrder { c with stopOrders := [] }).nextOrderId = _
  rw [freeAll_nextOrderId]
  rw [hc, hlevels]

theorem Act.nextOrderId_mono (h : Act V k b b') (hw : Wf V b) : b.core.nextOrderId ≤ b'.core.nextOrderId := by
  by_cases hk : k = .clear
  · subst hk
    cases h
    rw [clear_nextOrderId]
  · exact h.nextOrderId_le hk hw

/-- No call takes an automatic id back. -/
theorem exec_nextOrderId_le {n : Nat} {op : Op} {r : Outcome} (hw : Wf V b) (h : Book.exec V n op b = some (r, b')) :
    b.core.nextOrderId ≤ b'.core.nextOrderId := by
  refine ((exec_does hw h).acts.keeps (I := fun c => Wf V c ∧ b.core.nextOrderId ≤ c.core.nextOrderId) ⟨hw, le_rfl⟩ ?_).2
  intro k c c' _ ha hI
  exact ⟨ha.wf hI.1, hI.2.trans (ha.nextOrderId_mono hI.1)⟩

/-- In every run the next automatic id is not 0. -/
theorem Reach.nextOrderId_ne_zero {P : Book → Op → Book → Prop} (h : Book.Reach V P b) : b.core.nextOrderId ≠ 0 := by
  induction h with
  | init => exact Nat.one_ne_zero
  | step hr hs _ ih =>
    obtain ⟨n, hn⟩ := hs
    have hle := exec_nextOrderId_le (Reach.wf hr).1 hn
    omega

/-! ## The rounds of `process_oco_pending` -/

def Book.OcoIdle (b : Book) : Prop := b.oco.pendingCancel = []

def Oco.pop (o : Oco) : Oco := { o with pendingCancel := o.pendingCancel.dropLast }

/-- The order found under `id` leaves, whether it rests or waits. -/
theorem cancelAny_gone (hw : Wf V b) {id : Nat} (hf : b.core.find id = some i) :
    (b.cancelAny V i).core.idIndex = b.core.idIndex.erase id ∧ (b.cancelAny V i).oco = b.oco.complete id := by
  obtain ⟨hid, hl⟩ := hw.found hf
  rw [← hid]
  unfold Book.cancelAny
  rcases hl with hs | ⟨p, hq⟩
  · have hp : (b.order i).isPendingStop := ((hw.placed i).waiting hs).isPendingStop
    rw [if_pos hp]
    exact cancelPendingStop_gone hw hs
  · have hp : (b.order i).isPendingStop = false := (hw.resting hq).not_pendingStop
    rw [hp]
    exact cancelInternal_gone hw hq true

/-- One round: the id at the back of the queue is dropped from it, and the order found under it leaves. -/
theorem ocoRound_cases (hw : Wf V b) {pid : Nat} (hl : b.oco.pendingCancel.getLast? = some pid) :
    (b.core.find pid = none ∧ b.ocoRound V = { b with oco := b.oco.pop }) ∨
    ((b.core.find pid).isSome = true ∧ (b.ocoRound V).core.idIndex = b.core.idIndex.erase pid ∧
      (b.ocoRound V).oco = b.oco.pop.complete pid) := by
  unfold Book.ocoRound
  rw [hl]
  dsimp only
  cases hf : b.core.find pid with
  | none => exact .inl ⟨rfl, rfl⟩
  | some i =>
    have hw1 : Wf V { b with oco := b.oco.pop } := (Act.oco _ OcoWrite.pop : Act V .oco b _).wf hw
    exact .inr ⟨rfl, cancelAny_gone hw1 hf⟩

theorem Oco.complete_length (o : Oco) (id : Nat) : (o.complete id).pendingCancel.length ≤ o.pendingCancel.length + 1 := by
  unfold Oco.complete
  split
  · exact Nat.le_succ _
  · simp

theorem length_erase_entries {s : AList (fun _ : Nat => Nat)} {k : Nat} (h : (s.lookup k).isSome) :
    (s.erase k).entries.length < s.entries.length := by
  have hlen : ∀ s : AList (fun _ : Nat => Nat), s.entries.length = s.keys.length := fun s => (length_map _).symm
  have hk : k ∈ s.keys := AList.lookup_isSome.mp h
  rw [hlen, hlen, AList.keys_erase]
  have := length_erase_of_mem hk
  have hpos := length_pos_of_mem hk
  omega

/-- How much there is to do: a round takes an id off the queue, and what it puts on it it takes out of the index. -/
def Book.ocoWork (b : Book) : Nat := b.oco.pendingCancel.length + b.core.idIndex.entries.length

theorem ocoRound_work (hw : Wf V b) (hne : b.oco.pendingCancel ≠ []) : (b.ocoRound V).ocoWork < b.ocoWork := by
  obtain ⟨pid, hl⟩ := Option.ne_none_iff_exists'.mp (List.getLast?_eq_none_iff.not.mpr hne)
  have hpop : b.oco.pop.pendingCancel.length + 1 = b.oco.pendingCancel.length := by
    have hpos := length_pos_of_ne_nil hne
    unfold Oco.pop
    rw [length_dropLast]
    omega
  unfold Book.ocoWork
  rcases ocoRound_cases hw hl with ⟨-, he⟩ | ⟨hf, hidx, hoco⟩
  · rw [he]
    show b.oco.pop.pendingCancel.length + b.core.idIndex.entries.length < _
    omega
  · have h1 := length_erase_entries hf
    have h2 := b.oco.pop.complete_length pid
    rw [hidx, hoco]
    omega

theorem ocoRounds_empties (n : Nat) (hw : Wf V b) (hn : b.ocoWork ≤ n) : (Book.ocoRounds V n b).OcoIdle := by
  induction n generalizing b with
  | zero =>
    unfold Book.ocoWork at hn
    show b.oco.pendingCancel = []
    exact length_eq_zero_iff.mp (by omega)
  | succ n ih =>
    unfold Book.ocoRounds
    split
    · assumption
    · rename_i hne
      have hlt := ocoRound_work hw hne
      exact ih ((ocoRound_does hw).wf hw) (by omega)

theorem processOcoPending_empties (hw : Wf V b) : (b.processOcoPending V).OcoIdle := ocoRounds_empties _ hw le_rfl

/-! ## What the deferred work keeps -/

/-- From `b` to `b'` the automatic id `k` was handed out. -/
def HandedOut (b b' : Book) (k : Nat) : Prop := b.core.nextOrderId ≤ k ∧ k < b'.core.nextOrderId

/-- A property that every step of a call keeps; the orders linked in a call are two of its own. -/
structure Kept (V : Env) (I : Book → Prop) : Prop where
  wf : ∀ {b}, I b → Wf V b
  act : ∀ {k b b'}, workKinds k → Act V k b b' → I b → I b'
  round : ∀ {b}, I b → I (b.ocoRound V)
  enter : ∀ {b b' : Book} {r : Request} {i : Nat}, r.orderId = 0 → 0 < r.qty → b.accept V r = some (i, b') → I b → I b'
  wait : ∀ {b b' : Book} {i : Nat} {f : Order → Order} {c : Core}, Waits 0 i f c b b' → I b → I b'
  link : ∀ {b₀ b : Book} (x y : Nat), I b₀ → HandedOut b₀ b x → HandedOut b₀ b y → I b → I (b.linkOco x y).2

/-- `I` holds, and no deferred cancel is left. -/
def Rests (I : Book → Prop) (b : Book) : Prop := I b ∧ b.OcoIdle

/-- A submitter that keeps `I`, of orders under automatic ids, and hands out the id it returns. -/
def KeepsAuto (I : Book → Prop) (sub : Book.Submitter) : Prop :=
  ∀ r b x b', r.orderId = 0 → Rests I b → sub r b = some (x, b') →
    Rests I b' ∧ b.core.nextOrderId ≤ b'.core.nextOrderId ∧ (x.1 ≠ 0 → HandedOut b b' x.1)

theorem Book.OcoIdle.congr (h : b.OcoIdle) (ho : b'.oco = b.oco) : b'.OcoIdle := by
  unfold Book.OcoIdle
  rw [ho]
  exact h

/-- The acts that leave the OCO records alone. -/
def stillKinds : Kind → Prop
  | .aux | .config | .note | .reduce | .reduceStop | .reprice | .touch | .bracket => True
  | _ => False

theorem work_of_still (k : Kind) (h : stillKinds k) : workKinds k := by
  cases k <;> first | exact h | trivial

theorem Act.oco_still {k : Kind} (h : Act V k b b') (hk : stillKinds k) : b'.oco = b.oco := by
  cases h with
  | aux _ hf _ _ => exact hf.oco
  | config _ _ ho _ _ _ => exact ho
  | stpAbort | stpCancel | reduce | reduceStop | reprice | touch | bracket => rfl
  | accept | wait | peg | exec | cancel | replace | unwait | finishFilled | finishIoc | rest | release | expire | auction | oco
  | clear => cases hk

theorem Acts.oco_still (h : Acts V stillKinds b b') : b'.oco = b.oco :=
  h.keeps (I := fun c => c.oco = b.oco) rfl fun hk ha hc => (ha.oco_still hk).trans hc

theorem Book.OcoIdle.link (h : b.OcoIdle) (x y : Nat) : (b.linkOco x y).2.OcoIdle := by
  unfold Book.linkOco
  split
  · exact h
  · split
    · exact h
    · split
      · exact h
      · exact h

theorem finish_oco {i : Nat} (h : b.finish V i = some b') : b'.oco = b.oco := by
  unfold Book.finish at h
  dsimp only at h
  split at h
  · cases h
    rfl
  · split at h
    · cases h
      rfl
    · split at h
      · cases h
        unfold Book.restOrder
        dsimp only
        split <;> rfl
      · cases h

theorem HandedOut.mono {c c' : Book} {k : Nat} (h : HandedOut b b' k) (h1 : c.core.nextOrderId ≤ b.core.nextOrderId)
    (h2 : b'.core.nextOrderId ≤ c'.core.nextOrderId) : HandedOut c c' k := ⟨h1.trans h.1, h.2.trans_le h2⟩

/-- The id of an order submitted under an automatic one. -/
theorem submitWith_handed {sub : Book.Submitter} (hdoes : SubDoes V True sub) (h0 : r.orderId = 0) (hw : Wf V b)
    {x : Nat × RejectReason} (h : Book.submitWith V sub n r b = some (x, b')) :
    b.core.nextOrderId ≤ b'.core.nextOrderId ∧ (x.1 ≠ 0 → HandedOut b b' x.1) := by
  obtain ⟨⟨g, a, he, -⟩, hspec⟩ := admission_spec (V := V) (b := b) (r := r)
  rcases submitWith_cases hdoes hw (.inl trivial) h with ⟨reason, rfl, rfl, -⟩ | ⟨i, b1, b2, rfl, hc, -⟩
  · rw [he]
    exact ⟨le_rfl, fun hne => absurd rfl hne⟩
  · have hw0 : Wf V (b.admission V r).2 := (admission_does (K := quietKinds) trivial).wf hw
    have hacc := hc.accepted
    have hq := (hspec hc.passed).1
    have hw1 : Wf V b1 := (hw0.accept hq hacc).wf hw0
    have hid : (b1.core.body i).id = b.core.nextOrderId := by
      rw [admitted_id hw hacc]
      exact if_pos h0
    have hnext : b1.core.nextOrderId = b.core.nextOrderId + 1 := by
      have := accept_next hacc
      rw [if_pos h0, he] at this
      exact this
    have hi : i ∈ b2.inFlight := by
      rw [hc.matched.inFlight, accept_inFlight hacc]
      exact mem_cons_self
    have h2 := hc.matched.acts.nextOrderId_le (fun hk => hk) hw1
    have h3 := (finish_acts (K := quietKinds) hi trivial hc.finished).1.nextOrderId_le (fun hk => hk) (hc.matched.wf hw1)
    refine ⟨by omega, fun _ => ?_⟩
    show HandedOut b b' (b1.core.body i).id
    rw [hid]
    exact ⟨le_rfl, by omega⟩

theorem submitStop_handed (hw : Wf V b) (s : Side) (trigger limit qty : Int) (cid : Nat) :
    b.core.nextOrderId ≤ (b.submitStop V s trigger limit qty 0 cid).2.core.nextOrderId ∧
      ((b.submitStop V s trigger limit qty 0 cid).1.1 ≠ 0 →
        HandedOut b (b.submitStop V s trigger limit qty 0 cid).2 (b.submitStop V s trigger limit qty 0 cid).1.1) := by
  unfold Book.submitStop
  split
  · exact ⟨le_rfl, fun hne => absurd rfl hne⟩
  · split
    · exact ⟨le_rfl, fun hne => absurd rfl hne⟩
    · split
      · exact ⟨le_rfl, fun hne => absurd rfl hne⟩
      · dsimp only
        split
        · exact ⟨le_rfl, fun hne => absurd rfl hne⟩
        · rename_i i c ha
          have hnext : c.nextOrderId = b.core.nextOrderId + 1 := allocAs_next ha
          have hid : (c.pool i).id = b.core.nextOrderId := by
            have hbody := congrFun (hw.links.allocAs ha).body i
            rw [Function.update_self] at hbody
            exact congrArg Order.id hbody
          refine ⟨?_, fun _ => ?_⟩
          · show b.core.nextOrderId ≤ c.nextOrderId
            omega
          · show b.core.nextOrderId ≤ (c.pool i).id ∧ (c.pool i).id < c.nextOrderId
            omega

end

section

variable {V : Env} {I : Book → Prop} {b b' : Book} {i : Nat} (hI : Kept V I)
    {n cid : Nat} {sub : Book.Submitter} {r : Request} {x : Nat × RejectReason} {res : AuctionResult}

include hI

theorem Kept.acts {K : Kind → Prop} (h : Acts V K b b') (hK : ∀ k, K k → workKinds k) (hb : I b) : I b' :=
  h.keeps hb fun hk ha hb => hI.act (hK _ hk) ha hb

theorem Kept.does (h : Does V workKinds b b') (hb : I b) : I b' := hI.acts h.acts (fun _ hk => hk) hb

theorem Kept.still (h : Does V stillKinds b b') (hb : Rests I b) : Rests I b' :=
  ⟨hI.acts h.acts work_of_still hb.1, hb.2.congr h.acts.oco_still⟩

theorem Kept.frozen (hb : Rests I b) (hs : SameSlots b b') (hf : Frozen b b') (hbr : b'.brackets = b.brackets)
    (hn : b'.core.nextOrderId = b.core.nextOrderId) : Rests I b' := hI.still (aux_does hs hf hbr trivial hn) hb

theorem Kept.ocoRounds (n : Nat) (hb : I b) : I (Book.ocoRounds V n b) := by
  induction n generalizing b with
  | zero => exact hb
  | succ n ih =>
    unfold Book.ocoRounds
    split
    · exact hb
    · exact ih (hI.round hb)

theorem Kept.processOcoPending (hb : I b) : Rests I (b.processOcoPending V) :=
  ⟨hI.ocoRounds _ hb, processOcoPending_empties (hI.wf hb)⟩

theorem Kept.cancelInternal (ht : Tracked V b i) (hb : I b) : I (b.cancelInternal V i true) := by
  by_cases ha : (b.order i).isActive
  · obtain ⟨p, hp⟩ := ht ha
    exact hI.act (k := .cancel) trivial (.cancel p i hp) hb
  · rw [Book.cancelInternal_of_inactive (by simpa using ha)]
    exact hb

theorem Kept.cancelPendingStop (hb : I b) : I (b.cancelPendingStop i).2 := by
  rcases (hI.wf hb).cancelPendingStop with ⟨_, h⟩ | ⟨hi, _, _⟩
  · rw [h]
    exact hb
  · exact hI.act (k := .unwait) trivial (.unwait i hi) hb

theorem Kept.cancel (id : Nat) (hb : Rests I b) : Rests I (b.cancel V id).2 := by
  unfold Book.cancel
  split
  · exact hb
  · rename_i i hf
    split
    · exact hI.processOcoPending (hI.cancelPendingStop hb.1)
    · exact hI.processOcoPending (hI.cancelInternal ((hI.wf hb.1).tracked_of_found hf) hb.1)

theorem Kept.cancelAll (l : List Nat) (ht : ∀ i ∈ l, Tracked V b i) (hb : I b) :
    I (l.foldl (fun b i => b.cancelInternal V i true) b) := by
  induction l generalizing b with
  | nil => exact hb
  | cons i l ih =>
    have h1 := cancelInternal_does (ht i mem_cons_self)
    exact ih (fun j hj => h1.tracked (hI.wf hb) (ht j (mem_cons_of_mem _ hj)))
      (hI.cancelInternal (ht i mem_cons_self) hb)

theorem Kept.cancelStops (l : List Nat) (n : Nat) (hb : I b) : I (l.foldl (fun ((n, b) : Nat × Book) i =>
    let (ok, b) := b.cancelPendingStop i; (if ok then n + 1 else n, b)) (n, b)).2 := by
  induction l generalizing b n with
  | nil => exact hb
  | cons i l ih => exact ih _ (hI.cancelPendingStop hb)

/-- The orders met in a traversal of the index are cancelled. -/
theorem Kept.cancelMet (f : Nat → Bool) (hb : I b) :
    I ((((V.iter n b.core.idIndex.entries).map (·.2)).filter f).foldl (fun b i => b.cancelInternal V i true) b) := by
  refine hI.cancelAll _ (fun i hi => ?_) hb
  obtain ⟨k, hk⟩ := mem_entries (mem_of_mem_filter hi)
  exact (hI.wf hb).tracked_of_found hk

theorem Kept.massCancel (cid : Nat) (hb : I b) : Rests I (b.massCancel V cid).2 := by
  have h0 : I { b with asked := b.asked + 1 } := hI.does (ask_does trivial) hb
  refine hI.processOcoPending (hI.cancelStops _ _ ?_)
  rw [filter_filter]
  exact hI.cancelMet _ h0

theorem Kept.mmpRounds (n : Nat) (hb : Rests I b) : Rests I (Book.mmpRounds V n b) := by
  induction n generalizing b with
  | zero => exact hb
  | succ n ih =>
    unfold Book.mmpRounds
    split
    · exact hb
    · rename_i cid _
      have h0 : Does V workKinds b { b with mmpPendingTrips := b.mmpPendingTrips.dropLast } :=
        Does.aux (.of_core rfl rfl) ⟨rfl, rfl, rfl, rfl, rfl, rfl⟩ id trivial rfl
      exact ih (hI.massCancel cid (hI.does h0 hb.1))

/-! ## submit and the auctions -/

theorem Kept.armBracketExits (hsub : KeepsAuto I sub) {s : BracketSpec} (hb : Rests I b) (h : b.armBracketExits V sub s = some b') :
    Rests I b' := by
  unfold Book.armBracketExits at h
  split at h
  · cases h
  · rename_i tp _ b1 hs
    obtain ⟨h1, hn1, htp⟩ : Rests I b1 ∧ b.core.nextOrderId ≤ b1.core.nextOrderId ∧ (tp ≠ 0 → HandedOut b b1 tp) :=
      hsub _ _ _ _ rfl ⟨hI.does (setInternal_does true trivial) hb.1, hb.2⟩ hs
    obtain ⟨hn2, hsl⟩ := submitStop_handed (hI.wf h1.1) s.exitSide s.slTriggerTicks 0 s.qty s.clientId
    have h2 : Rests I (b1.submitStop V s.exitSide s.slTriggerTicks 0 s.qty 0 s.clientId).2 := by
      rcases submitStop_cases s.exitSide s.slTriggerTicks 0 s.qty 0 s.clientId with he | ⟨i, f, c, hw⟩
      · rw [he]
        exact h1
      · exact ⟨hI.wait hw h1.1, h1.2.congr hw.frozen.oco⟩
    have h3 : Rests I ((b1.submitStop V s.exitSide s.slTriggerTicks 0 s.qty 0 s.clientId).2.setInternal false) :=
      ⟨hI.does (setInternal_does false trivial) h2.1, h2.2⟩
    dsimp only at h
    split at h
    · rename_i hboth
      cases h
      exact ⟨hI.link _ _ hb.1 ((htp hboth.1).mono le_rfl hn2) ((hsl hboth.2).mono hn1 le_rfl) h3.1, h3.2.link _ _⟩
    · cases h
      exact h3

theorem Kept.processBracketPending (hsub : KeepsAuto I sub) (n : Nat) (hb : Rests I b)
    (h : Book.processBracketPending V sub n b = some b') : Rests I b' := by
  induction n generalizing b with
  | zero => cases h
  | succ n ih =>
    unfold Book.processBracketPending at h
    split at h
    · cases h
      exact hb
    · split at h
      · cases h
      · rename_i b1 harm
        exact ih (hI.armBracketExits hsub ⟨hI.does (popBracket_does trivial) hb.1, hb.2⟩ harm) h

/-- What comes after the entry of the order in slot `i`: matching, the work it deferred, and the order's end of flight. -/
theorem Kept.afterEntry (hsub : KeepsAuto I sub) {b1 b2 : Book} (hb : Rests I b1) (hi : i ∈ b1.inFlight)
    (hm : (if b1.matchesOnEntry r then b1.matchAndProcess V sub n i else some b1) = some b2) (hi2 : i ∈ b2.inFlight)
    (hf : b2.finish V i = some b') : Rests I b' := by
  have h2 : Rests I b2 := by
    split at hm
    · unfold Book.matchAndProcess at hm
      split at hm
      · cases hm
      · rename_i b3 hmatch
        split at hm
        · cases hm
        · rename_i b4 hp
          cases hm
          have h3 := hI.acts (matchAgainst_does (hI.wf hb.1) hi hmatch).acts work_of_match hb.1
          exact hI.mmpRounds _ (hI.processBracketPending hsub n (hI.processOcoPending h3) hp)
    · cases hm
      exact hb
  exact ⟨hI.acts (finish_acts hi2 trivial hf).1 (fun _ hk => hk) h2.1, h2.2.congr (finish_oco hf)⟩

/-- `submit` keeps what the entry of its order keeps. -/
theorem Kept.submitWith (hsub : KeepsAuto I sub) (hdoes : SubDoes V True sub) (hb : Rests I b)
    (henter : ∀ i b1, (b.admission V r).1 = none → (b.admission V r).2.accept V r = some (i, b1) → I (b.admission V r).2 → I b1)
    (h : Book.submitWith V sub n r b = some (x, b')) : Rests I b' := by
  have h0 : I (b.admission V r).2 := hI.does (admission_does trivial) hb.1
  have ho : (b.admission V r).2.oco = b.oco := by
    obtain ⟨⟨g, a, he, -⟩, -⟩ := admission_spec
    rw [he]
  rcases submitWith_cases hdoes (hI.wf hb.1) (.inl trivial) h with ⟨reason, -, rfl, -⟩ | ⟨i, b1, b2, -, hc, hm⟩
  · exact ⟨hI.does (reject_does reason trivial) h0, hb.2.congr ho⟩
  · have hi : i ∈ b1.inFlight := by
      rw [accept_inFlight hc.accepted]
      exact mem_cons_self
    have ho1 : b1.oco = b.oco := (Book.accept_rest hc.accepted).2.2.1.trans ho
    exact hI.afterEntry hsub ⟨henter i b1 hc.passed hc.accepted h0, hb.2.congr ho1⟩ hi hm (hc.matched.inFlight ▸ hi) hc.finished

theorem Kept.keepsAuto (n : Nat) : KeepsAuto I (Book.submit V n) := by
  induction n with
  | zero => intro r b x b' _ _ h; cases h
  | succ n ih =>
    intro r b x b' hid hb h
    refine ⟨hI.submitWith ih (submit_does n) hb (fun i b1 hp ha h0 => ?_) h, submitWith_handed (submit_does n) hid (hI.wf hb.1) h⟩
    exact hI.enter hid ((admission_spec).2 hp).1 ha h0

theorem Kept.submit (hb : Rests I b)
    (henter : ∀ i b1, (b.admission V r).1 = none → (b.admission V r).2.accept V r = some (i, b1) → I (b.admission V r).2 → I b1)
    (h : Book.submit V n r b = some (x, b')) : Rests I b' := by
  cases n with
  | zero => cases h
  | succ n => exact hI.submitWith (hI.keepsAuto n) (submit_does n) hb henter h

theorem Kept.sweepGtx (hb : I b) : I (b.sweepGtx V) := by
  exact hI.cancelMet _ (hI.does (ask_does trivial) hb)

theorem Kept.runAuction (hb : Rests I b) (h : b.runAuction V n = some (res, b')) : Rests I b' := by
  unfold Book.runAuction at h
  dsimp only at h
  split at h
  · split at h
    · cases h
    · rename_i b1 hp
      cases h
      refine hI.processBracketPending (hI.keepsAuto n) n (hI.processOcoPending (hI.sweepGtx ?_)) hp
      exact hI.does (executeAuction_does trivial trivial _ _ _ _ (hI.wf hb.1)) hb.1
  · cases h
    exact hb

theorem Kept.tryRunAuction {k : Int} (hb : Rests I b) (h : b.tryRunAuction V n k = some (res, b')) : Rests I b' := by
  unfold Book.tryRunAuction at h
  dsimp only at h
  split at h
  · split at h
    · cases h
      exact hb
    · exact hI.runAuction hb h
  · cases h
    exact hb

/-- The auction that a change of the gates leads to. -/
theorem Kept.gatedAuction {g : Gates} (hb : Rests I b) (h : { b with gates := g }.runAuction V n = some (res, b')) :
    Rests I b' := by
  have h0 : Does V stillKinds b { b with gates := g } :=
    Does.one (.config (.of_core rfl rfl) rfl rfl rfl rfl id) trivial rfl
  exact hI.runAuction (hI.still h0 hb) h

theorem Kept.submitAll (rs : List Request) {ids : List Nat} (hid : ∀ r ∈ rs, r.orderId = 0) (hb : Rests I b)
    (h : Book.submitAll (Book.submit V n) rs b = some (ids, b')) : Rests I b' := by
  induction rs generalizing b ids with
  | nil =>
    cases h
    exact hb
  | cons r rs ih =>
    unfold Book.submitAll at h
    split at h
    · cases h
    · rename_i id _ b1 hs
      obtain ⟨⟨ids', b2⟩, hrest, he⟩ := Option.map_eq_some_iff.mp h
      cases he
      obtain ⟨h1, -⟩ := hI.keepsAuto n _ _ _ _ (hid r mem_cons_self) hb hs
      exact ih (fun r hr => hid r (mem_cons_of_mem _ hr)) h1 hrest

theorem Kept.massQuote {quotes : List Quote} {x : Nat × List Nat} (hb : Rests I b) (h : b.massQuote V n quotes cid = some (x, b')) :
    Rests I b' := by
  unfold Book.massQuote at h
  split at h
  · cases h
    exact hb
  · split at h
    · obtain ⟨ids, hrest⟩ := Book.returned h fun _ => rfl
      refine hI.submitAll _ (fun r hr => ?_) hb hrest
      obtain ⟨q, -, rfl⟩ := mem_map.mp hr
      rfl
    · cases h
      exact hb

theorem Kept.submitBracket {side : Side} {entryPrice qty tpPrice slTrigger : Int} {id : Nat} (hb : Rests I b)
    (h : b.submitBracket V n side entryPrice qty tpPrice slTrigger cid = some (id, b')) : Rests I b' := by
  unfold Book.submitBracket at h
  dsimp only at h
  split at h
  · cases h
  · rename_i id' _ b1 hs
    obtain ⟨h1, -⟩ := hI.keepsAuto n _ _ _ _ rfl hb hs
    split at h
    · cases h
      exact h1
    · split at h
      · obtain ⟨b2, harm, he⟩ := Option.map_eq_some_iff.mp h
        cases he
        exact hI.armBracketExits (hI.keepsAuto n) h1 harm
      · cases h
        exact hI.still (Does.one (.bracket _) trivial rfl) h1

theorem Kept.rearmBracket {nid : Nat} {spec : Option BracketSpec} (hb : Rests I b) (h : b.rearmBracket V n spec nid = some b') :
    Rests I b' := by
  unfold Book.rearmBracket at h
  split at h
  · cases h
    exact hb
  · rename_i s
    split at h
    · cases h
      exact hb
    · split at h
      · cases h
        exact hI.still (Does.one (.bracket _) trivial rfl) hb
      · exact hI.processBracketPending (hI.keepsAuto n) n (hI.still (Does.one (.bracket _) trivial rfl) hb) h

theorem Kept.cancelInjected (ids : List Nat) (hb : I b) : I (b.cancelInjected V ids).2 :=
  cancelInjected_keeps (fun _ _ _ hc hf => hI.cancelInternal ((hI.wf hc).tracked_of_found hf) hc) ids hb

theorem Kept.cancelMocUnfilled (ids : List Nat) (hb : I b) : I (b.cancelMocUnfilled V ids) :=
  hI.does (b := (b.cancelInjected V ids).2)
    (aux_does (.of_core rfl rfl) ⟨rfl, rfl, rfl, rfl, rfl, rfl⟩ rfl trivial rfl)
    (hI.cancelInjected ids hb)

theorem Kept.cancelLocUnfilled (ids : List Nat) (hb : I b) : I (b.cancelLocUnfilled V ids) :=
  hI.does (b := (b.cancelInjected V ids).2)
    (aux_does (.of_core rfl rfl) ⟨rfl, rfl, rfl, rfl, rfl, rfl⟩ rfl trivial rfl)
    (hI.cancelInjected ids hb)

theorem Kept.expireGtd (now : Nat) (hb : I b) : Rests I (b.expireGtd V now).2 := by
  have h0 : I { b with asked := b.asked + 1 } := hI.does (ask_does trivial) hb
  have hw0 := hI.wf h0
  refine hI.processOcoPending (hI.does (expireAll_does trivial _ hw0 ((entries_nodup hw0).filter _) ?_) h0)
  intro i hi
  obtain ⟨hm, hc⟩ := mem_filter.mp hi
  obtain ⟨k, hk⟩ := mem_entries hm
  simp only [Bool.and_eq_true] at hc
  exact hw0.tracked_of_found hk hc.1.1.2

end

end HftLab.OrderBook
