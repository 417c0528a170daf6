/-
  HftLab.OrderBook.Reachable — the remaining operations are sequences of acts, and so are all.

  - `exec_does`: from a well-formed book with nothing in flight, every call that returns performs acts;
  - `exec_plain`: calls that know nothing of stops and pegs perform only acts of `plainKinds`;
  - `Reach.wf`: every reachable book is well formed, with nothing in flight.
-/

import HftLab.OrderBook.Decompose

namespace HftLab.OrderBook

open Lib List

variable {V : Env} {b b' : Book} {n : Nat}

section

variable {V : Env} {b b' : Book} {i n id cid : Nat} {N : Prop} {K : Kind → Prop} {newPrice newQty p q : Int}
    {x : Nat × RejectReason} {sub : Book.Submitter} {r : Outcome} {res : AuctionResult}

/-! ## Cancel and modify -/

theorem cancel_does (id : Nat) (hw : Wf V b) : Does V tidyKinds b (b.cancel V id).2 := by
  unfold Book.cancel
  split
  · exact Does.refl b
  · rename_i i hf
    split
    · exact (cancelPendingStop_does hw).next hw processOcoPending_does
    · exact (cancelInternal_does (hw.tracked_of_found hf)).next hw processOcoPending_does

theorem relinkOco_does (partner : Option Nat) (nid : Nat) (hw : Wf V b) :
    Does V tidyKinds b (b.relinkOco V partner nid) := by
  unfold Book.relinkOco
  split
  · exact Does.refl b
  · rename_i y
    split
    · exact Does.refl b
    · split
      · exact linkOco_does nid y trivial
      · split
        · have h1 : Does V tidyKinds b { b with oco := { b.oco with pendingCancel := b.oco.pendingCancel ++ [y] } } :=
            Does.one (.oco _ (.push y)) trivial rfl
          exact h1.next hw processOcoPending_does
        · exact Does.refl b

theorem rearmBracket_does {spec : Option BracketSpec} {nid : Nat} (hw : Wf V b) (hbr : N ∨ spec = none)
    (h : b.rearmBracket V n spec nid = some b') : Does V (calmKinds N) b b' := by
  unfold Book.rearmBracket at h
  split at h
  · cases h
    exact Does.refl _
  · rename_i s
    have hbr' : N := hbr.resolve_right (by simp)
    split at h
    · cases h
      exact Does.refl _
    · split at h
      · cases h
        exact Does.one (.bracket _) hbr' rfl
      · have h1 : Does V (calmKinds N) b { b with brackets := { b.brackets with pending := b.brackets.pending ++ [s] } } :=
          Does.one (.bracket _) hbr' rfl
        exact h1.next hw fun hw1 =>
          (processBracketPending_does (submit_does n) n hw1 (.inl hbr') h).mono calmKinds_of_after

/-- The order in slot `i` is unlinked and, if it rests, leaves the book. -/
theorem takeOut_does (ho : K .oco) (hr : K .replace) (hw : Wf V b) (hf : b.core.find id = some i) :
    Does V K b ((b.unlinkOco id).cancelInternal V i false) := by
  have h0 : Does V K b (b.unlinkOco id) := unlinkOco_does id ho
  have hf0 : (b.unlinkOco id).core.find id = some i := by
    rw [unlinkOco_core]
    exact hf
  refine h0.next hw fun hw0 => ?_
  by_cases ha : ((b.unlinkOco id).order i).isActive
  · obtain ⟨p, hp⟩ := hw0.tracked_of_found hf0 ha
    exact Does.one (.replace p i hp) hr Book.cancelInternal_inFlight
  · rw [Book.cancelInternal_of_inactive (by simpa using ha)]
    exact Does.refl _

/-- A cancel/replace that returns: `submit` left `b₂`, then the pair and the bracket were restored. -/
theorem cancelReplace_cases (h : b.cancelReplace V n id i newPrice newQty = some (x, b')) : ∃ b2,
    Book.submit V n { side := (b.order i).side, priceTicks := newPrice, qty := i32 (newQty - (b.order i).filledQty)
                      type := (b.order i).type, tif := (b.order i).tif, orderId := id, clientId := (b.order i).clientId }
      ((b.unlinkOco id).cancelInternal V i false) = some (x, b2) ∧
    (b2.relinkOco V (b.oco.partner id) x.1).rearmBracket V n
      ((b.brackets.specs id).map fun (s : BracketSpec) => { s with qty := newQty }) x.1 = some b' := by
  unfold Book.cancelReplace at h
  dsimp only at h
  split at h
  · cases h
  · rename_i nid reason b2 hsub
    split at h
    · cases h
    · rename_i b3 hre
      cases h
      exact ⟨b2, hsub, hre⟩

theorem cancelReplace_does (hw : Wf V b) (hbr : N ∨ b.NoBracket) (hf : b.core.find id = some i)
    (h : b.cancelReplace V n id i newPrice newQty = some (x, b')) : Does V (calmKinds N) b b' := by
  obtain ⟨b2, hs, hre⟩ := cancelReplace_cases h
  have h1 : Does V (calmKinds N) b ((b.unlinkOco id).cancelInternal V i false) := takeOut_does trivial trivial hw hf
  have h2 := h1.next hw fun hw1 => (submit_does n _ _ _ _ hw1 (h1.noBracket hbr) hs).mono calmKinds_of_submit
  have h3 := h2.next hw fun hw2 => (relinkOco_does (b.oco.partner id) x.1 hw2).mono (calmKinds_of_tidy (N := N))
  refine h3.next hw fun hw3 => rearmBracket_does hw3 ?_ hre
  rcases hbr with hbr | hb
  · exact .inl hbr
  · right
    rw [hb.2 id]
    rfl

/-- The call lowers the quantity of a waiting stop in place. -/
def Book.reducesStop (b : Book) : Op → Bool
  | .modify id newPrice newQty => (b.core.find id).any fun i =>
      let o := b.order i
      o.isPendingStop && newPrice = o.priceTicks && newQty < o.totalQty && o.filledQty < newQty
  | _ => false

theorem reducesStop_none (h : b.core.find id = none) : b.reducesStop (.modify id p q) = false := by
  show Option.any _ (b.core.find id) = false
  rw [h]
  rfl

theorem reducesStop_some (h : b.core.find id = some i) : b.reducesStop (.modify id p q) =
    ((b.order i).isPendingStop && p = (b.order i).priceTicks && q < (b.order i).totalQty && (b.order i).filledQty < q) := by
  show Option.any _ (b.core.find id) = _
  rw [h]
  rfl

/-- Without waiting stops there is none to lower. -/
theorem Wf.reducesStop_eq (h : Wf V b) (hn : b.core.stopOrders = []) (op : Op) : b.reducesStop op = false := by
  cases op with
  | modify id p q =>
    cases hf : b.core.find id with
    | none => exact reducesStop_none hf
    | some i =>
      have hi : b.core.Queued V i := ((h.found hf).2).resolve_left (by simp [hn])
      have hs : (b.order i).isPendingStop = false := ((h.placed i).resting hi).not_pendingStop
      rw [reducesStop_some hf, hs]
      rfl
  | _ => rfl

/-- The in-place branch of `modify` for an order in a queue. -/
theorem modify_inPlace_does (hw : Wf V b) (hf : b.core.find id = some i) (hlt : q < (b.order i).totalQty)
    (hq : (b.order i).filledQty < q) (hst : (b.order i).isPendingStop = false) :
    Does V (calmKinds N) b (b.reduceInPlace id i q) := by
  rcases (hw.found hf).2 with hs | ⟨p, hp⟩
  · have hp : (b.order i).isPendingStop := ((hw.placed i).waiting hs).isPendingStop
    rw [hst] at hp
    cases hp
  · exact Does.one (.reduce p id i q hp hf hlt hq) trivial rfl

/-- A call of `modify` that returns: no such order, a reduction in place, or a cancel/replace. -/
theorem modify_cases (h : b.modify V n id newPrice newQty = some (x, b')) :
    (b.core.find id = none ∧ x = (0, .none) ∧ b' = b) ∨ ∃ i, b.core.find id = some i ∧
      ((newPrice = (b.order i).priceTicks ∧ newQty < (b.order i).totalQty ∧ (b.order i).filledQty < newQty) ∧
          x = ((b.order i).id, .none) ∧ b' = b.reduceInPlace id i newQty ∨
        ¬ (newPrice = (b.order i).priceTicks ∧ newQty < (b.order i).totalQty ∧ (b.order i).filledQty < newQty) ∧
          b.cancelReplace V n id i newPrice newQty = some (x, b')) := by
  unfold Book.modify at h
  split at h
  · rename_i hf
    cases h
    exact .inl ⟨hf, rfl, rfl⟩
  · rename_i i hf
    dsimp only at h
    split at h
    · rename_i hin
      split at h
      · cases h
        exact .inr ⟨i, hf, .inl ⟨hin, rfl, rfl⟩⟩
      · cases h
    · rename_i hno
      exact .inr ⟨i, hf, .inr ⟨hno, h⟩⟩

theorem modify_does (hw : Wf V b) (hbr : N ∨ b.NoBracket) (hst : b.reducesStop (.modify id newPrice newQty) = false)
    (h : b.modify V n id newPrice newQty = some (x, b')) : Does V (calmKinds N) b b' := by
  rcases modify_cases h with ⟨-, -, rfl⟩ | ⟨i, hf, ⟨hin, -, rfl⟩ | ⟨-, h⟩⟩
  · exact Does.refl _
  · refine modify_inPlace_does hw hf hin.2.1 hin.2.2 ?_
    rw [reducesStop_some hf] at hst
    simpa [hin.1, hin.2.1, hin.2.2] using hst
  · exact cancelReplace_does hw hbr hf h

/-! ## Expiry -/

/-- No slot is met twice in a traversal of the index. -/
theorem entries_nodup (hw : Wf V b) : ((V.iter n b.core.idIndex.entries).map (·.2) : List Nat).Nodup := by
  have hp : ((V.iter n b.core.idIndex.entries).map (·.2) : List Nat).Perm (b.core.idIndex.entries.map (·.2)) :=
    (V.iter_perm n _).map _
  rw [hp.nodup_iff]
  refine List.Nodup.map_on ?_ b.core.idIndex.nodupKeys.nodup
  rintro ⟨k, s⟩ hx ⟨k', s'⟩ hy (rfl : s = s')
  have h1 := (hw.found (AList.mem_lookup_iff.mpr hx)).1
  have h2 := (hw.found (AList.mem_lookup_iff.mpr hy)).1
  rw [h1] at h2
  subst h2
  rfl

theorem expireAll_does (hk : K .expire) (l : List Nat) (hw : Wf V b) (hn : l.Nodup) (hl : ∀ i ∈ l, b.core.Queued V i) :
    Does V K b (l.foldl (fun b i => b.expireOrder V i) b) := by
  induction l generalizing b with
  | nil => exact Does.refl b
  | cons i l ih =>
    obtain ⟨hil, hn⟩ := nodup_cons.mp hn
    obtain ⟨p, hp⟩ := hl i mem_cons_self
    have h1 : Does V K b (b.expireOrder V i) := Does.one (.expire p i hp) hk rfl
    refine h1.next hw fun hw1 => ih hw1 hn ?_
    intro j hj
    refine ((hw.expireOrder hp).moves.queued ?_).mpr (hl j (mem_cons_of_mem _ hj))
    rw [mem_singleton]
    rintro rfl
    exact hil hj

theorem expireGtd_does (now : Nat) (hw : Wf V b) : Does V (dealKinds N) b (b.expireGtd V now).2 := by
  have h0 : Does V (dealKinds N) b { b with asked := b.asked + 1 } := ask_does trivial
  refine h0.next hw fun hw0 => (expireAll_does trivial _ hw0 ((entries_nodup hw0).filter _) ?_).next hw0
    fun hw1 => (processOcoPending_does hw1).mono dealKinds_of_tidy
  intro i hi
  obtain ⟨hm, hc⟩ := mem_filter.mp hi
  obtain ⟨k, hk⟩ := mem_entries hm
  simp only [Bool.and_eq_true] at hc
  exact hw0.tracked_of_found hk hc.1.1.2

theorem setExpiry_does (hk : K .touch) (id ts : Nat) : Does V K b (b.setExpiry id ts) := by
  unfold Book.setExpiry
  split
  · exact Does.refl b
  · rename_i i hf
    exact Does.one (.touch id i _ (.inr hf) rfl) hk rfl

/-! ## Stops and pegs -/

/-- Every act but the decrease of a waiting stop. -/
def tameKinds : Kind → Prop
  | .reduceStop => False
  | _ => True

theorem setTrail_does (hk : K .touch) (id : Nat) (offset : Int) : Does V K b (b.setTrail id offset) := by
  unfold Book.setTrail
  split
  · exact Does.refl b
  · rename_i i hf
    exact Does.one (.touch _ i _ (.inr hf) rfl) hk rfl

/-- A trailing stop is a stop at the trigger it starts from, whose offset is then noted. -/
theorem submitTrailingStop_cases (hk : K .touch) (side : Side) (trailOffset limit qty : Int) (oid cid : Nat) :
    (b.submitTrailingStop V side trailOffset limit qty oid cid).2 = b ∨ ∃ trigger,
      Does V K (b.submitStop V side trigger limit qty oid cid).2 (b.submitTrailingStop V side trailOffset limit qty oid cid).2 := by
  unfold Book.submitTrailingStop
  split
  · exact .inl rfl
  · split
    · exact .inl rfl
    · split
      · exact .inl rfl
      · split
        · exact .inl rfl
        · refine .inr ⟨Book.trailTrigger side b.trailReference trailOffset, ?_⟩
          dsimp only
          split
          · exact Does.refl _
          · exact setTrail_does hk _ _

theorem submitTrailingStop_does (side : Side) (trailOffset limit qty : Int) (oid cid : Nat) :
    Does V tameKinds b (b.submitTrailingStop V side trailOffset limit qty oid cid).2 := by
  rcases submitTrailingStop_cases (K := tameKinds) trivial side trailOffset limit qty oid cid with
    h | ⟨trigger, h⟩
  · rw [h]
    exact Does.refl b
  · exact (submitStop_does side trigger limit qty oid cid trivial).trans h

theorem submitPeg_cases (side : Side) (offset qty : Int) (oid cid : Nat) (cap : Int) :
    (b.submitPeg V side offset qty oid cid cap).2 = b ∨
      ∃ i f c, Pegs V oid i f c b (b.submitPeg V side offset qty oid cid cap).2 := by
  unfold Book.submitPeg
  split
  · exact .inl rfl
  · split
    · exact .inl rfl
    · exact enterPeg_cases _ _ _ _ _ _ _ _ (by omega)

theorem Does.pegged {oid : Nat} (hk : K .peg) (h : b' = b ∨ ∃ i f c, Pegs V oid i f c b b') : Does V K b b' := by
  rcases h with rfl | ⟨i, f, c, h⟩
  · exact Does.refl _
  · exact Does.one (.peg oid i f c h) hk h.inFlight

theorem submitPeg_does (hk : K .peg) (side : Side) (offset qty : Int) (oid cid : Nat) (cap : Int) :
    Does V K b (b.submitPeg V side offset qty oid cid cap).2 := .pegged hk (submitPeg_cases side offset qty oid cid cap)

theorem submitPegMid_cases (side : Side) (offset qty : Int) (oid cid : Nat) (cap : Int) :
    (b.submitPegMid V side offset qty oid cid cap).2 = b ∨
      ∃ i f c, Pegs V oid i f c b (b.submitPegMid V side offset qty oid cid cap).2 := by
  unfold Book.submitPegMid
  split
  · exact .inl rfl
  · split
    · exact .inl rfl
    · split
      · exact .inl rfl
      · exact enterPeg_cases _ _ _ _ _ _ _ _ (by omega)

theorem submitPegMid_does (hk : K .peg) (side : Side) (offset qty : Int) (oid cid : Nat) (cap : Int) :
    Does V K b (b.submitPegMid V side offset qty oid cid cap).2 := .pegged hk (submitPegMid_cases side offset qty oid cid cap)

theorem tameKinds_of (h : ¬ K .reduceStop) (k : Kind) (hk : K k) : tameKinds k := by
  cases k <;> first | exact h hk | trivial

/-- The acts of the stop loop: the trigger of each stop follows the price; a triggered one leaves the
    queue and comes back through `submit`. -/
def stopKinds (N : Prop) : Kind → Prop
  | .touch | .release => True
  | k => submitKinds N k

theorem stopKinds_of_submit (k : Kind) (h : submitKinds N k) : stopKinds N k := by
  cases k <;> first | exact h | trivial

theorem stopLoop_does (hsub : SubDoes V N sub) (n k : Nat) (hw : Wf V b) (hbr : N ∨ b.NoBracket)
    (h : Book.stopLoop V sub n k b = some b') : Does V (stopKinds N) b b' := by
  induction n generalizing b k with
  | zero => cases h
  | succ n ih =>
    unfold Book.stopLoop at h
    split at h
    · cases h
      exact Does.refl _
    · rename_i i hk
      dsimp only at h
      have ht : Act V .touch b (b.ratchetStop V i) := .touch 0 i _ (.inl (mem_of_getElem? hk)) rfl
      have h1 : Does V (stopKinds N) b (b.ratchetStop V i) := Does.one ht trivial rfl
      have hbr1 := hbr.imp id (ht.noBracket (by simp))
      split at h
      · split at h
        · cases h
        · rename_i x b2 hs
          have hrel : Act V .release (b.ratchetStop V i) ((b.ratchetStop V i).releaseStop k i) := .release k i hk
          have h2 : Does V (stopKinds N) b ((b.ratchetStop V i).releaseStop k i) := h1.trans (Does.one hrel trivial rfl)
          have h3 := h2.trans (setInternal_does true trivial)
          have hbr3 : N ∨ (((b.ratchetStop V i).releaseStop k i).setInternal true).NoBracket :=
            hbr1.imp id (hrel.noBracket (by simp))
          have h4 := h3.next hw fun hw3 => (hsub _ _ _ _ hw3 hbr3 hs).mono (stopKinds_of_submit (N := N))
          have h5 := h4.trans (setInternal_does false trivial)
          refine h5.next hw fun hw5 => ih k hw5 ?_ h
          rcases hbr with hbr | hb
          · exact .inl hbr
          · exact .inr (h5.acts.noBracket (fun hk => hk) hb)
      · exact h1.next hw fun hw1 => ih (k + 1) hw1 hbr1 h

theorem checkStopTriggers_does (hw : Wf V b) (hbr : N ∨ b.NoBracket) (h : b.checkStopTriggers V n = some b') :
    Does V (stopKinds N) b b' := by
  unfold Book.checkStopTriggers at h
  split at h
  · cases h
    exact Does.refl _
  · exact stopLoop_does (submit_does n) n 0 hw hbr h

theorem repricePegs_does (hk : K .reprice) (hw : Wf V b) : Does V K b (b.repricePegs V) := by
  have key : ∀ (l : List Nat) (b : Book), Wf V b → (∀ i ∈ l, Tracked V b i) →
      Does V (fun k => k = .reprice) b (l.foldl (fun b i => b.repricePeg V i) b) := by
    intro l
    induction l with
    | nil => exact fun b _ _ => Does.refl b
    | cons i l ih =>
      intro b hw ht
      have h1 : Does V (fun k => k = .reprice) b (b.repricePeg V i) := by
        rcases (ht i mem_cons_self).repricePeg with h | ⟨p, hp, q, x, y, hr, h⟩
        · rw [h]
          exact Does.refl b
        · rw [h]
          exact Does.one (.reprice p i q x y hp hr) rfl rfl
      exact h1.next hw fun hw1 => ih _ hw1 fun j hj =>
        h1.acts.tracked (by simp) hw (ht j (mem_cons_of_mem _ hj))
  refine (key _ b hw hw.pegs).mono ?_
  rintro k rfl
  exact hk

/-! ## Brackets and mass quotes -/

theorem submitBracket_does {side : Side} {entryPrice qty tpPrice slTrigger : Int} (hw : Wf V b)
    (h : b.submitBracket V n side entryPrice qty tpPrice slTrigger cid = some (id, b')) : Does V (calmKinds True) b b' := by
  unfold Book.submitBracket at h
  dsimp only at h
  split at h
  · cases h
  · rename_i id' _ b1 hs
    have h1 : Does V (calmKinds True) b b1 := (submit_does n _ _ _ _ hw (.inl trivial) hs).mono calmKinds_of_submit
    split at h
    · cases h
      exact h1
    · split at h
      · obtain ⟨b2, harm, he⟩ := Option.map_eq_some_iff.mp h
        cases he
        exact h1.next hw fun hw1 => (armBracketExits_does (submit_does n) trivial hw1 harm).mono calmKinds_of_after
      · cases h
        exact h1.trans (Does.one (.bracket _) trivial rfl)

theorem submitAll_does (hsub : SubDoes V N sub) (rs : List Request) {ids : List Nat} (hw : Wf V b) (hbr : N ∨ b.NoBracket)
    (h : Book.submitAll sub rs b = some (ids, b')) : Does V (calmKinds N) b b' := by
  induction rs generalizing b ids with
  | nil =>
    cases h
    exact Does.refl _
  | cons r rs ih =>
    unfold Book.submitAll at h
    split at h
    · cases h
    · rename_i id _ b1 hs
      obtain ⟨⟨ids', b2⟩, hrest, he⟩ := Option.map_eq_some_iff.mp h
      cases he
      have h1 := (hsub _ _ _ _ hw hbr hs).mono (calmKinds_of_submit (N := N))
      exact h1.next hw fun hw1 => ih hw1 (h1.noBracket hbr) hrest

theorem massQuote_does {quotes : List Quote} {x : Nat × List Nat} (hw : Wf V b) (hbr : N ∨ b.NoBracket)
    (h : b.massQuote V n quotes cid = some (x, b')) : Does V (calmKinds N) b b' := by
  unfold Book.massQuote at h
  split at h
  · cases h
    exact Does.refl _
  · split at h
    · obtain ⟨ids, hrest⟩ := Book.returned h fun _ => rfl
      exact submitAll_does (submit_does n) _ hw hbr hrest
    · cases h
      exact Does.refl _

/-! ## All operations -/

/-- The operations that know nothing of stops, pegs and brackets, and do not clear the book. -/
def Op.plain : Op → Bool
  | .submitStop .. | .submitTrailingStop .. | .checkStopTriggers | .submitPeg .. | .submitPegMid .. | .repricePegs
  | .submitBracket .. | .clear => false
  | _ => true

/-- The calls that set a limit, a mode or a phase, or file an on-close order: no order of the book is concerned. -/
def Op.config : Op → Bool
  | .submitMoc .. | .submitLoc .. | .cancelMoc _ | .cancelLoc _ | .setStpPolicy _ | .setClientFirm .. | .setMmp ..
  | .mmpReset _ | .setAccountRateLimit .. | .setLuldBands .. | .disableLuld | .setLuldHaltToAuction _
  | .setIcebergRefreshJitterBps _ | .setTrailingRatchetOnMid _ | .enableDeltaQueue _ | .popDeltaQueue _ | .halt | .resume
  | .haltForAuction | .setAuctionMode _ | .beginPreOpen | .beginClosing => true
  | _ => false

theorem submitMoc_cases (side : Side) (qty : Int) (cid : Nat) :
    (b.submitMoc side qty cid).2 = b ∨ Act V .config b (b.submitMoc side qty cid).2 := by
  unfold Book.submitMoc
  split
  · exact .inl rfl
  · split
    · exact .inl rfl
    · exact .inr (.config ⟨rfl, rfl, rfl, rfl, rfl, rfl, rfl, rfl, Nat.le_succ _⟩ rfl rfl rfl rfl id)

theorem submitLoc_cases (side : Side) (price qty : Int) (cid : Nat) :
    (b.submitLoc V side price qty cid).2 = b ∨ Act V .config b (b.submitLoc V side price qty cid).2 := by
  unfold Book.submitLoc
  split
  · exact .inl rfl
  · split
    · exact .inl rfl
    · split
      · exact .inl rfl
      · exact .inr (.config ⟨rfl, rfl, rfl, rfl, rfl, rfl, rfl, rfl, Nat.le_succ _⟩ rfl rfl rfl rfl id)

/-- A configuration call is one act, or nothing. -/
theorem exec_config {op : Op} (hc : op.config) (h : Book.exec V n op b = some (r, b')) : b' = b ∨ Act V .config b b' := by
  cases op with
  | submitMoc s q cid =>
    cases h
    exact submitMoc_cases s q cid
  | submitLoc s p q cid =>
    cases h
    exact submitLoc_cases s p q cid
  | setClientFirm c f =>
    cases h
    unfold Book.setClientFirm
    split
    · exact .inl rfl
    · exact .inr (.config (.of_core rfl rfl) rfl rfl rfl rfl id)
  | setMmp c k w =>
    cases h
    unfold Book.setMmp
    split
    · exact .inl rfl
    · exact .inr (.config (.of_core rfl rfl) rfl rfl rfl rfl id)
  | mmpReset c =>
    cases h
    unfold Book.mmpReset
    split
    · exact .inl rfl
    · exact .inr (.config (.of_core rfl rfl) rfl rfl rfl rfl id)
  | setAccountRateLimit c k r =>
    cases h
    unfold Book.setAccountRateLimit
    split
    · exact .inl rfl
    · exact .inr (.config (.of_core rfl rfl) rfl rfl rfl rfl id)
  | setIcebergRefreshJitterBps bps =>
    cases h
    split
    · exact .inr (.config (.of_core rfl rfl) rfl rfl rfl rfl id)
    · exact .inl rfl
  | cancelMoc | cancelLoc | setStpPolicy | setLuldBands | disableLuld | setLuldHaltToAuction | setTrailingRatchetOnMid
  | enableDeltaQueue | popDeltaQueue | halt | resume | haltForAuction | setAuctionMode | beginPreOpen | beginClosing =>
    cases h
    exact .inr (.config (.of_core rfl rfl) rfl rfl rfl rfl id)
  | _ => cases hc

theorem exec_config_does {op : Op} (hc : op.config) (h : Book.exec V n op b = some (r, b')) : Does V (calmKinds N) b b' := by
  rcases exec_config hc h with rfl | ha
  · exact Does.refl _
  · refine Does.one ha trivial ?_
    cases ha with
    | config hs _ _ _ _ _ => exact hs.inFlight

theorem tryRunAuction_does {k : Int} (hw : Wf V b) (hbr : N ∨ b.NoBracket) (h : b.tryRunAuction V n k = some (res, b')) :
    Does V (calmKinds N) b b' := by
  unfold Book.tryRunAuction at h
  dsimp only at h
  split at h
  · split at h
    · cases h
      exact Does.refl _
    · exact (runAuction_does hw hbr h).mono calmKinds_of_deal
  · cases h
    exact Does.refl _

/-- The auction that a change of the gates leads to. -/
theorem gatedAuction_does {g : Gates} (hw : Wf V b) (hbr : N ∨ b.NoBracket)
    (h : { b with gates := g }.runAuction V n = some (res, b')) : Does V (calmKinds N) b b' := by
  have h0 : Does V (calmKinds N) b { b with gates := g } :=
    Does.one (.config (.of_core rfl rfl) rfl rfl rfl rfl id) trivial rfl
  exact h0.next hw fun hw0 => (runAuction_does hw0 (h0.noBracket hbr) h).mono calmKinds_of_deal

/-- A call that writes an expiry touches one order; any other that knows nothing of stops and pegs touches none. -/
theorem exec_calm {op : Op} (hp : op.plain) (hx : ∀ id ts, op ≠ .setExpiry id ts) (hw : Wf V b) (hbr : N ∨ b.NoBracket)
    (hst : b.reducesStop op = false) (h : Book.exec V n op b = some (r, b')) : Does V (calmKinds N) b b' := by
  cases op with
  | submitStop | submitTrailingStop | checkStopTriggers | submitPeg | submitPegMid | repricePegs | submitBracket | clear =>
    cases hp
  | submit r =>
    obtain ⟨x, hs⟩ := Book.returned h fun _ => rfl
    exact (submit_does n _ _ _ _ hw hbr hs).mono calmKinds_of_submit
  | cancel id =>
    cases h
    exact (cancel_does id hw).mono calmKinds_of_tidy
  | modify id p q =>
    obtain ⟨x, hs⟩ := Book.returned h fun _ => rfl
    exact modify_does hw hbr hst hs
  | massCancel cid =>
    cases h
    exact (massCancel_does cid hw).mono calmKinds_of_tidy
  | massQuote qs cid =>
    obtain ⟨x, hs⟩ := Book.returned h fun _ => rfl
    exact massQuote_does hw hbr hs
  | linkOco x y =>
    cases h
    exact linkOco_does x y trivial
  | unlinkOco x =>
    cases h
    exact unlinkOco_does x trivial
  | runAuction =>
    obtain ⟨x, hs⟩ := Book.returned h fun _ => rfl
    exact (runAuction_does hw hbr hs).mono calmKinds_of_deal
  | tryRunAuction k =>
    obtain ⟨x, hs⟩ := Book.returned h fun _ => rfl
    exact tryRunAuction_does hw hbr hs
  | runClosingAuction =>
    obtain ⟨x, hs⟩ := Book.returned h fun _ => rfl
    exact runClosingAuction_does hw hbr hs
  | resumeWithAuction =>
    obtain ⟨x, hs⟩ := Book.returned h fun _ => rfl
    exact gatedAuction_does hw hbr hs
  | openMarket =>
    obtain ⟨x, hs⟩ := Book.returned h fun _ => rfl
    exact gatedAuction_does hw hbr hs
  | closeMarket =>
    obtain ⟨x, hs⟩ := Book.returned h fun _ => rfl
    obtain ⟨⟨y, b2⟩, hclose, he⟩ := Option.map_eq_some_iff.mp hs
    cases he
    exact (runClosingAuction_does hw hbr hclose).trans
      (Does.one (.config (.of_core rfl rfl) rfl rfl rfl rfl id) trivial rfl)
  | expireGtd now =>
    cases h
    exact (expireGtd_does (N := N) now hw).mono calmKinds_of_deal
  | setExpiry id ts => exact absurd rfl (hx id ts)
  | submitMoc | submitLoc | cancelMoc | cancelLoc | setStpPolicy | setClientFirm | setMmp | mmpReset | setAccountRateLimit
  | setLuldBands | disableLuld | setLuldHaltToAuction | setIcebergRefreshJitterBps | setTrailingRatchetOnMid
  | enableDeltaQueue | popDeltaQueue | halt | resume | haltForAuction | setAuctionMode | beginPreOpen | beginClosing =>
    exact exec_config_does rfl h

/-- A call that knows nothing of stops and pegs performs plain acts. -/
theorem exec_plain {op : Op} (hp : op.plain) (hw : Wf V b) (hbr : N ∨ b.NoBracket) (hst : b.reducesStop op = false)
    (h : Book.exec V n op b = some (r, b')) : Does V (plainKinds N) b b' := by
  by_cases hx : ∀ id ts, op ≠ .setExpiry id ts
  · exact (exec_calm hp hx hw hbr hst h).mono plainKinds_of_calm
  · simp only [not_forall, not_not] at hx
    obtain ⟨id, ts, rfl⟩ := hx
    cases h
    exact setExpiry_does trivial id ts

/-- A call that lowers no waiting stop in place performs tame acts. -/
theorem exec_tame {op : Op} (hw : Wf V b) (hst : b.reducesStop op = false) (h : Book.exec V n op b = some (r, b')) :
    Does V tameKinds b b' := by
  by_cases hp : op.plain
  · exact (exec_plain hp hw (.inl trivial) hst h).mono (tameKinds_of fun h => h)
  · cases op with
    | submitStop s t l q oid cid =>
      cases h
      exact submitStop_does s t l q oid cid trivial
    | submitTrailingStop s o l q oid cid =>
      cases h
      exact submitTrailingStop_does s o l q oid cid
    | checkStopTriggers =>
      obtain ⟨b1, hs, he⟩ := Option.map_eq_some_iff.mp h
      cases he
      exact (checkStopTriggers_does hw (.inl trivial) hs).mono (tameKinds_of fun h => h)
    | submitPeg s o q oid cid cap =>
      cases h
      exact submitPeg_does trivial s o q oid cid cap
    | submitPegMid s o q oid cid cap =>
      cases h
      exact submitPegMid_does trivial s o q oid cid cap
    | repricePegs =>
      cases h
      exact repricePegs_does trivial hw
    | submitBracket s e q tp sl cid =>
      obtain ⟨x, hs⟩ := Book.returned h fun _ => rfl
      exact (submitBracket_does hw hs).mono (tameKinds_of fun h => h)
    | clear =>
      cases h
      exact Does.one .clear trivial rfl
    | _ => exact absurd rfl hp

/-- Every call that returns performs acts. -/
theorem exec_does {op : Op} (hw : Wf V b) (h : Book.exec V n op b = some (r, b')) : Does V (fun _ => True) b b' := by
  by_cases hst : b.reducesStop op = false
  · exact (exec_tame hw hst h).mono fun _ _ => trivial
  · cases op with
    | modify id p q =>
      obtain ⟨x, hm⟩ := Book.returned h fun _ => rfl
      unfold Book.modify at hm
      cases hf : b.core.find id with
      | none => exact absurd (reducesStop_none hf) hst
      | some i =>
        rw [reducesStop_some hf] at hst
        rw [hf] at hm
        simp only [Bool.not_eq_false, Bool.and_eq_true, decide_eq_true_eq] at hst
        obtain ⟨⟨⟨hs, hp⟩, hlt⟩, hq⟩ := hst
        dsimp only at hm
        rw [if_pos ⟨hp, hlt, hq⟩] at hm
        split at hm
        · cases hm
          refine Does.one (.reduceStop id i q ?_ hf hlt hq) trivial rfl
          refine (hw.found hf).2.resolve_right fun hq' => ?_
          have hr : (b.order i).isPendingStop = false := ((hw.placed i).resting hq').not_pendingStop
          rw [hr] at hs
          cases hs
        · cases hm
    | _ => exact absurd rfl hst

end

/-! ## Reachable books -/

theorem seg_upto (f : Nat → Option Nat) (n : Nat) (hf : ∀ i, f i = if i + 1 < n then some (i + 1) else none) :
    ∀ k, k < n → Seg f (some (n - 1 - k)) ((List.range (k + 1)).map (· + (n - 1 - k))) none := by
  intro k
  induction k with
  | zero =>
    intro hk
    refine ⟨by simp, ?_⟩
    rw [hf]
    simp [Seg]
    omega
  | succ k ih =>
    intro hk
    have h1 := ih (by omega)
    rw [range_succ_eq_map, map_cons, map_map]
    refine ⟨by simp, ?_⟩
    rw [hf, if_pos (by omega)]
    have he : n - 1 - (k + 1) + 1 = n - 1 - k := by omega
    have hm : (List.range (k + 1)).map ((· + (n - 1 - (k + 1))) ∘ Nat.succ) = (List.range (k + 1)).map (· + (n - 1 - k)) := by
      refine map_congr_left fun i _ => ?_
      simp only [Function.comp_apply]
      omega
    rw [show 0 + (n - 1 - (k + 1)) + 1 = n - 1 - k by omega, hm]
    exact h1

/-- The constructor links every slot into the free list. -/
theorem fresh_wf (V : Env) : Wf V (fresh V) := by
  have hl : Layout V (fresh V).core (List.range V.MAX_ORDERS) (fun _ => []) [] := by
    refine ⟨fun _ => dlist_nil, ?_, ?_, by simp, by simp, by simp, by simp [fresh], ?_⟩
    · have hpos := V.max_orders_pos
      have := seg_upto (fresh V).core.nextFree V.MAX_ORDERS (fun i => rfl) (V.MAX_ORDERS - 1) (by omega)
      simp only [Nat.sub_self, Nat.add_zero, map_id', Nat.sub_add_cancel hpos] at this
      exact this
    · simpa [fresh] using nodup_range
    · simp [fresh]
  refine ⟨hl.links, ?_, ?_⟩
  · intro i
    refine ⟨?_, ?_, ?_, ?_⟩
    · rintro ⟨p, hi⟩
      rw [hl.queue_eq] at hi
      cases hi
    · exact fun hi => absurd hi not_mem_nil
    · exact fun hi => absurd hi not_mem_nil
    · intro k hk
      cases hk
  · exact fun i hi => absurd hi not_mem_nil

theorem Reach.wf {P : Book → Op → Book → Prop} (h : Book.Reach V P b) : Wf V b ∧ b.inFlight = [] := by
  induction h with
  | init => exact ⟨fresh_wf V, rfl⟩
  | step _ hs _ ih =>
    obtain ⟨n, hn⟩ := hs
    have hd := exec_does ih.1 hn
    exact ⟨hd.wf ih.1, hd.inFlight.trans ih.2⟩

/-! ## Running a list of calls -/

/-- The calls `ops` with fuel `n` each, as long as `chk` accepts them. -/
def Book.runIf (V : Env) (n : Nat) (chk : Book → Op → Book → Bool) : List Op → Book → Option Book
  | [], b => some b
  | op :: ops, b =>
    match Book.exec V n op b with
    | none => none
    | some (_, b') => if chk b op b' then Book.runIf V n chk ops b' else none

theorem Reach.runCalls {P : Book → Op → Book → Prop} {chk : Book → Op → Book → Bool}
    (hP : ∀ b op r b', Book.exec V n op b = some (r, b') → chk b op b' → P b op b') (ops : List Op) (hb : Book.Reach V P b)
    (h : Book.runIf V n chk ops b = some b') : Book.Reach V P b' := by
  induction ops generalizing b with
  | nil =>
    cases h
    exact hb
  | cons op ops ih =>
    unfold Book.runIf at h
    split at h
    · cases h
    · rename_i r b1 he
      split at h
      · rename_i hc
        exact ih (.step hb ⟨n, he⟩ (hP _ _ _ _ he hc)) h
      · cases h

theorem Reach.runIf {P : Book → Op → Book → Prop} {chk : Book → Op → Book → Bool} (hP : ∀ b op b', chk b op b' → P b op b')
    (ops : List Op) (hb : Book.Reach V P b) (h : Book.runIf V n chk ops b = some b') : Book.Reach V P b' :=
  Reach.runCalls (fun b op _ b' _ => hP b op b') ops hb h

/-- A run on a fresh book that ends in a book satisfying `f`. -/
theorem Reach.ofRun {P : Book → Op → Book → Prop} {chk : Book → Op → Book → Bool} {ops : List Op} {f : Book → Bool}
    (h : (Book.runIf V n chk ops (fresh V)).any f) (hP : ∀ b op b', chk b op b' → P b op b') :
    ∃ b, Book.runIf V n chk ops (fresh V) = some b ∧ Book.Reach V P b ∧ f b := by
  obtain ⟨b, hb, hf⟩ := (Option.any_eq_true _ _).mp h
  exact ⟨b, hb, Reach.runIf hP ops .init hb, hf⟩

/-- A run on a fresh book, then one call more. -/
theorem Reach.ofRunThen {P : Book → Op → Book → Prop} {chk : Book → Op → Book → Bool} {ops : List Op} {op : Op}
    {f : Book → Outcome → Book → Bool}
    (h : (Book.runIf V n chk ops (fresh V)).any (fun b => (Book.exec V n op b).any fun y => f b y.1 y.2))
    (hP : ∀ b op b', chk b op b' → P b op b') :
    ∃ b x b', Book.runIf V n chk ops (fresh V) = some b ∧ Book.Reach V P b ∧ Book.Step V b op x b' ∧ f b x b' := by
  obtain ⟨b, hb, hr, hf⟩ := Reach.ofRun h hP
  obtain ⟨⟨x, b'⟩, he, hf'⟩ := (Option.any_eq_true _ _).mp hf
  exact ⟨b, x, b', hb, hr, ⟨n, he⟩, hf'⟩

/-- A book of 8 prices and 4 slots, with a clock that counts. -/
def smallEnv : Env where
  LEVELS := 8
  MAX_ORDERS := 4
  levels_pos := by decide
  levels_int32 := by decide
  max_orders_pos := by decide
  max_orders_int32 := by decide
  clock := id
  clock_mono := fun _ _ h => h
  iter := fun _ l => l
  iter_perm := fun _ _ => List.Perm.refl _

end HftLab.OrderBook
