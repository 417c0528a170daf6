/-
  HftLab.OrderBook.Loops — the matching loops.

  `visitMaker_cases`: what one pass of the FIFO loop does. `matchAtLevel_rule`, `priceLoop_rule`: the
  proof rules of the two loops, an invariant carried from pass to pass. The loop reads the next maker
  before it handles this one, so the invariant carries the position (`At`: the maker to be visited
  heads a suffix of the queue). `priceLoop_acts`: a match is a sequence of acts.
-/

import HftLab.OrderBook.Acts

namespace HftLab.OrderBook

open Lib Function

section

variable {V : Env} {b b' : Book} {p q qty : Int} {t i ts : Nat} {A B : List Nat}

/-! ## One maker -/

/-- What a pass of the FIFO loop at the maker in slot `i` does. -/
inductive VisitCase (V : Env) (b : Book) (p : Int) (t ts i : Nat) (qty : Int) : Book.Visit → Prop
  | newest : b.gates.stpPolicy = .cancelNewest →
      b.sameTradingEntity (b.order i).clientId (b.order t).clientId = true →
      VisitCase V b p t ts i qty (.stop 0 (b.note (.stpAbort (b.order t) (b.order i))))
  | oldest : b.gates.stpPolicy = .cancelOldest →
      b.sameTradingEntity (b.order i).clientId (b.order t).clientId = true →
      VisitCase V b p t ts i qty
        (.next (b.core.next i) qty ((b.note (.stpCancel (b.order t) (b.order i) b.core)).cancelInternal V i true))
  | both : b.gates.stpPolicy = .cancelBoth →
      b.sameTradingEntity (b.order i).clientId (b.order t).clientId = true →
      VisitCase V b p t ts i qty (.stop 0 (((b.note (.stpCancel (b.order t) (b.order i) b.core)).note
        (.stpAbort (b.order t) (b.order i))).cancelInternal V i true))
  | exec : (b.gates.stpPolicy = .none ∨ b.gates.stpPolicy = .decrementAndCxl ∨
        b.sameTradingEntity (b.order i).clientId (b.order t).clientId = false) →
      VisitCase V b p t ts i qty (.next (b.core.next i) (qty - min qty (b.core.body i).displayedQty)
        (b.executed V p t ts i (min qty (b.core.body i).displayedQty)))

theorem Book.visitMaker_cases (V : Env) (b : Book) (p : Int) (ts : Nat) (qty : Int) (h : i ≠ t) :
    VisitCase V b p t ts i qty (b.visitMaker V p t ts i qty) := by
  unfold Book.visitMaker
  dsimp only
  split
  · rename_i hs
    cases hp : b.gates.stpPolicy with
    | none => exact absurd hp hs.1
    | cancelNewest => exact .newest hp hs.2
    | cancelOldest => exact .oldest hp hs.2
    | cancelBoth => exact .both hp hs.2
    | decrementAndCxl =>
      rw [Book.execMaker_eq h]
      exact .exec (.inr (.inl hp))
  · rename_i hs
    rw [Book.execMaker_eq h]
    refine .exec ?_
    by_cases hp : b.gates.stpPolicy = .none
    · exact .inl hp
    · right
      right
      by_contra hn
      exact hs ⟨hp, by simpa using hn⟩

/-- A taker with `qty` to match. -/
structure Taking (V : Env) (b : Book) (t : Nat) (qty : Int) : Prop where
  wf : Wf V b
  flying : t ∈ b.inFlight
  left : qty ≤ (b.core.body t).totalQty - (b.core.body t).filledQty

theorem Wf.next_eq (h : Wf V b) (hq : b.core.queue V p = A ++ i :: B) : b.core.next i = B.head? := by
  have hd := h.links.level p
  rw [hq] at hd
  exact hd.next_eq

theorem Wf.erase_eq (h : Wf V b) (hq : b.core.queue V p = A ++ i :: B) : (b.core.queue V p).erase i = A ++ B :=
  Layout.erase_split hq (h.links.level p).nodup

theorem Wf.cancelInternal_queue (h : Wf V b) (hi : i ∈ b.core.queue V p) (e : Bool) :
    (b.cancelInternal V i e).core.queue V =
      update (b.core.queue V) p ((b.core.queue V p).erase i) := by
  rw [Book.cancelInternal_core (h.resting hi).active]
  exact (h.links.leave hi).queue_eq

/-- The queue of the level after an execution: the iceberg goes to the end, a filled maker leaves. -/
theorem Wf.executed_queue (h : Wf V b) (ts : Nat) (q : Int) (hi : i ∈ b.core.queue V p) (ht : t ∈ b.inFlight) :
    (b.executed V p t ts i q).core.queue V =
      update (b.core.queue V) p ((b.core.queue V p).erase i ++ [i]) ∨
    (b.executed V p t ts i q).core.queue V = update (b.core.queue V) p ((b.core.queue V p).erase i) ∨
    (b.executed V p t ts i q).core.queue V = b.core.queue V := by
  have hl := h.links.fill (p := p) (t := t) (i := i) (q := q)
  have hs : Settled b p t i q (b.executed V p t ts i q) := Book.settled (h.flying_ne_queued hi ht)
  cases hs with
  | refresh shown _ _ _ _ hc =>
    rw [hc]
    exact .inl (hl.refresh hi _).queue_eq
  | complete _ hc =>
    rw [hc]
    exact .inr (.inl (hl.complete hi).queue_eq)
  | partial_ _ _ hc =>
    rw [hc]
    exact .inr (.inr (hl.setStatus i .partiallyFilled).queue_eq)

/-! ## Rules for the loops -/

/-- The FIFO loop: an invariant `I` of the position, the quantity left and the book. -/
theorem matchAtLevel_rule {I : Option Nat → Int → Book → Prop} {J : Int → Book → Prop}
    (hnext : ∀ i qty b m q' b', I (some i) qty b → 0 < qty → b.visitMaker V p t ts i qty = .next m q' b' → I m q' b')
    (hstop : ∀ i qty b q' b', I (some i) qty b → 0 < qty → b.visitMaker V p t ts i qty = .stop q' b' → J q' b')
    (hend : ∀ m qty b, I m qty b → m = none ∨ qty ≤ 0 → J qty b) :
    ∀ n m qty b q' b', I m qty b → Book.matchAtLevel V p t ts n m qty b = some (q', b') → J q' b' := by
  intro n
  induction n with
  | zero => intro m qty b q' b' _ h; cases h
  | succ n ih =>
    intro m qty b q' b' hI h
    unfold Book.matchAtLevel at h
    cases m with
    | none =>
      cases h
      exact hend _ _ _ hI (.inl rfl)
    | some i =>
      dsimp only at h
      split at h
      · rename_i hq
        cases h
        exact hend _ _ _ hI (.inr hq)
      · rename_i hq
        split at h
        · rename_i hv
          cases h
          exact hstop _ _ _ _ _ hI (by omega) hv
        · rename_i hv
          exact ih _ _ _ _ _ (hnext _ _ _ _ _ _ hI (by omega) hv) h

/-- The price loop: an invariant `I` of the quantity left and the book. -/
theorem priceLoop_rule {I : Int → Book → Prop} {J : Book → Prop}
    (hiter : ∀ n qty b p q' b', I qty b → 0 < qty → b.nextLevel t = some p →
      Book.matchAtLevel V p t ts n (b.core.levels p).head qty b = some (q', b') →
      I q' (b'.advanceBest V (b'.order t).side p))
    (hend : ∀ qty b, I qty b → qty ≤ 0 ∨ b.nextLevel t = none → J b) :
    ∀ n qty b b', I qty b → Book.priceLoop V t ts n qty b = some b' → J b' := by
  intro n
  induction n with
  | zero => intro qty b b' _ h; cases h
  | succ n ih =>
    intro qty b b' hI h
    unfold Book.priceLoop at h
    split at h
    · rename_i hq
      cases h
      exact hend _ _ hI (.inl hq)
    · rename_i hq
      split at h
      · rename_i hn
        cases h
        exact hend _ _ hI (.inr hn)
      · rename_i p hn
        split at h
        · cases h
        · rename_i q' b1 hm
          exact ih _ _ _ (hiter n _ _ _ _ _ hI (by omega) hn hm) h

/-! ## The loops are acts -/

/-- The acts of one match. -/
def matchKinds : Kind → Prop
  | .aux | .note | .exec | .cancel => True
  | _ => False

/-- The maker `m` to be visited heads a suffix of the queue of level `p`. -/
def At (V : Env) (c : Core) (p : Int) (m : Option Nat) : Prop := ∃ A B, c.queue V p = A ++ B ∧ m = B.head?

theorem executed_inFlight {q : Int} : (b.executed V p t ts i q).inFlight = b.inFlight := Book.settleMaker_inFlight

theorem executed_taker {q : Int} (h : Wf V b) (hi : i ∈ b.core.queue V p) (ht : t ∈ b.inFlight) :
    (b.executed V p t ts i q).core.body t = (b.core.body t).tookBy q := by
  have hne := h.flying_ne_queued hi ht
  have hs : Settled b p t i q (b.executed V p t ts i q) := Book.settled hne
  have hfill : (b.core.fill p t i q).body t = (b.core.body t).tookBy q := by
    rw [Core.fill_body hne, update_of_ne hne.symm, update_self]
  cases hs with
  | refresh shown _ _ _ _ hc => rw [hc, Core.refresh_body, update_of_ne hne.symm, hfill]
  | complete _ hc => rw [hc, Core.complete_body, update_of_ne hne.symm, hfill]
  | partial_ _ _ hc => rw [hc, Core.setStatus_body, update_of_ne hne.symm, hfill]

theorem At.after {c : Core} {A B : List Nat} {Q : Int → List Nat} (hQ : c.queue V = Q)
    (hq : Q p = A ++ B ∨ Q p = A ++ i :: B ∨ Q p = A ++ B ++ [i]) : At V c p B.head? := by
  unfold At
  rw [hQ]
  rcases hq with hq | hq | hq
  · exact ⟨A, B, hq, rfl⟩
  · exact ⟨A ++ [i], B, by simp [hq], rfl⟩
  · cases B with
    | nil => exact ⟨A ++ [i], [], by simpa using hq, rfl⟩
    | cons j B => exact ⟨A, j :: B ++ [i], by simp [hq], rfl⟩

/-- A pass of the FIFO loop: a few acts, and the loop goes on at the next maker of the queue. -/
theorem visit_acts (h : Taking V b t qty) (hpos : 0 < qty) (hat : At V b.core p (some i)) :
    (∀ q' b', b.visitMaker V p t ts i qty = .stop q' b' →
      Acts V matchKinds b b' ∧ b'.inFlight = b.inFlight ∧ Taking V b' t q') ∧
    (∀ m q' b', b.visitMaker V p t ts i qty = .next m q' b' →
      Acts V matchKinds b b' ∧ b'.inFlight = b.inFlight ∧ Taking V b' t q' ∧ At V b'.core p m) := by
  obtain ⟨A, C, hq, hm⟩ := hat
  obtain ⟨B, rfl⟩ : ∃ B, C = i :: B := by
    cases C with
    | nil => cases hm
    | cons j B => cases hm; exact ⟨B, rfl⟩
  have hi : i ∈ b.core.queue V p := by rw [hq]; simp
  have hne := h.wf.flying_ne_queued hi h.flying
  have hcancel : ∀ b1, Acts V matchKinds b b1 → b1.core = b.core → b1.inFlight = b.inFlight →
      Acts V matchKinds b (b1.cancelInternal V i true) ∧ (b1.cancelInternal V i true).inFlight = b.inFlight ∧
      Taking V (b1.cancelInternal V i true) t qty ∧ At V (b1.cancelInternal V i true).core p B.head? := by
    intro b1 ha hc hx
    have hw1 := ha.wf h.wf
    have hi1 : i ∈ b1.core.queue V p := hc ▸ hi
    have ha' := ha.trans (Acts.one (Act.cancel p i hi1) trivial)
    have hx' : (b1.cancelInternal V i true).inFlight = b.inFlight := Book.cancelInternal_inFlight.trans hx
    refine ⟨ha', hx', ⟨ha'.wf h.wf, hx'.symm ▸ h.flying, ?_⟩, ?_⟩
    · rw [(hw1.cancelInternal hi1 true).moves.body t (by simpa using hne.symm), hc]
      exact h.left
    · refine At.after (A := A) (i := i) (hw1.cancelInternal_queue hi1 true) (.inl ?_)
      rw [update_self, hc]
      exact h.wf.erase_eq hq
  have hcase := b.visitMaker_cases V p ts qty hne
  constructor
  · intro q' b' hv
    rw [hv] at hcase
    cases hcase with
    | newest hp hs =>
      have ha := Acts.one (V := V) (K := matchKinds) (Act.stpAbort (b := b) (b.order t) (b.order i)) trivial
      have hl := h.left
      exact ⟨ha, rfl, ha.wf h.wf, h.flying, by show 0 ≤ (b.core.body t).totalQty - (b.core.body t).filledQty; omega⟩
    | both hp hs =>
      have ha1 := Acts.one (V := V) (K := matchKinds) (Act.stpCancel (b := b) (b.order t) (b.order i)) trivial
      have ha2 := ha1.trans (Acts.one
        (Act.stpAbort (b.order t) (b.order i)) trivial)
      obtain ⟨ha, hx, ⟨hw, hf, hl⟩, -⟩ := hcancel _ ha2 rfl rfl
      exact ⟨ha, hx, hw, hf, by omega⟩
  · intro m q' b' hv
    rw [hv] at hcase
    cases hcase with
    | oldest hp hs =>
      have ha1 := Acts.one (V := V) (K := matchKinds) (Act.stpCancel (b := b) (b.order t) (b.order i)) trivial
      rw [h.wf.next_eq hq]
      exact hcancel _ ha1 rfl rfl
    | exec hp =>
      have hmeet : Meets V b p t i qty := ⟨hi, h.flying, hpos, h.left, hp⟩
      have ha := Acts.one (K := matchKinds) (Act.exec p t ts i qty hmeet) trivial
      refine ⟨ha, executed_inFlight, ⟨ha.wf h.wf, executed_inFlight.symm ▸ h.flying, ?_⟩, ?_⟩
      · rw [executed_taker h.wf hi h.flying]
        have := h.left
        show _ ≤ (b.core.body t).totalQty - ((b.core.body t).filledQty + min qty (b.core.body i).displayedQty)
        omega
      · rw [h.wf.next_eq hq]
        rcases h.wf.executed_queue ts (min qty (b.core.body i).displayedQty) hi h.flying with hQ | hQ | hQ
        · refine At.after (A := A) (i := i) hQ (.inr (.inr ?_))
          rw [update_self, h.wf.erase_eq hq]
        · refine At.after (A := A) (i := i) hQ (.inl ?_)
          rw [update_self, h.wf.erase_eq hq]
        · exact At.after hQ (.inr (.inl hq))

theorem mem_of_at {m : Option Nat} (h : At V b.core p m) (hm : m = some i) : i ∈ b.core.queue V p := by
  obtain ⟨A, B, hq, hB⟩ := h
  rw [hq]
  rw [hm] at hB
  exact List.mem_append_right _ (List.mem_of_mem_head? hB.symm)

/-- The quantity a pass leaves. -/
def Book.Visit.left : Book.Visit → Int
  | .stop q _ | .next _ q _ => q

/-- The book a pass leaves. -/
def Book.Visit.book : Book.Visit → Book
  | .stop _ b | .next _ _ b => b

/-- The FIFO loop with its taker: what every pass keeps, the loop keeps. -/
theorem matchAtLevel_passes {I : Int → Book → Prop} {n : Nat} {m : Option Nat} {q' : Int}
    (hpass : ∀ {i q b v}, Taking V b t q → I q b → 0 < q → i ∈ b.core.queue V p → Taking V v.book t v.left →
      VisitCase V b p t ts i q v → I v.left v.book)
    (h : Taking V b t qty) (hat : At V b.core p m) (hI : I qty b)
    (hm : Book.matchAtLevel V p t ts n m qty b = some (q', b')) : Taking V b' t q' ∧ I q' b' := by
  refine matchAtLevel_rule (I := fun m q b => Taking V b t q ∧ At V b.core p m ∧ I q b) (J := fun q b => Taking V b t q ∧ I q b)
    ?_ ?_ (fun _ _ _ h _ => ⟨h.1, h.2.2⟩) n m qty b q' b' ⟨h, hat, hI⟩ hm
  · rintro i q b m q1 b1 ⟨ht, hat, hI⟩ hpos hv
    have hi := mem_of_at hat rfl
    obtain ⟨-, -, ht', hat'⟩ := (visit_acts ht hpos hat).2 m q1 b1 hv
    have hcase := b.visitMaker_cases V p ts q (ht.wf.flying_ne_queued hi ht.flying)
    rw [hv] at hcase
    exact ⟨ht', hat', hpass (v := .next m q1 b1) ht hI hpos hi ht' hcase⟩
  · rintro i q b q1 b1 ⟨ht, hat, hI⟩ hpos hv
    have hi := mem_of_at hat rfl
    obtain ⟨-, -, ht'⟩ := (visit_acts ht hpos hat).1 q1 b1 hv
    have hcase := b.visitMaker_cases V p ts q (ht.wf.flying_ne_queued hi ht.flying)
    rw [hv] at hcase
    exact ⟨ht', hpass (v := .stop q1 b1) ht hI hpos hi ht' hcase⟩

theorem matchAtLevel_acts {n : Nat} {m : Option Nat} {q' : Int} (h : Taking V b t qty) (hat : At V b.core p m)
    (hm : Book.matchAtLevel V p t ts n m qty b = some (q', b')) :
    Acts V matchKinds b b' ∧ b'.inFlight = b.inFlight ∧ Taking V b' t q' := by
  refine matchAtLevel_rule
    (I := fun m q b1 => Acts V matchKinds b b1 ∧ b1.inFlight = b.inFlight ∧ Taking V b1 t q ∧ At V b1.core p m)
    (J := fun q b1 => Acts V matchKinds b b1 ∧ b1.inFlight = b.inFlight ∧ Taking V b1 t q)
    ?_ ?_ ?_ n m qty b q' b' ⟨Acts.refl b, rfl, h, hat⟩ hm
  · rintro i q b1 m q1 b2 ⟨ha, hx, ht, hat⟩ hpos hv
    obtain ⟨ha', hx', ht', hat'⟩ := (visit_acts ht hpos hat).2 m q1 b2 hv
    exact ⟨ha.trans ha', hx'.trans hx, ht', hat'⟩
  · rintro i q b1 q1 b2 ⟨ha, hx, ht, hat⟩ hpos hv
    obtain ⟨ha', hx', ht'⟩ := (visit_acts ht hpos hat).1 q1 b2 hv
    exact ⟨ha.trans ha', hx'.trans hx, ht'⟩
  · rintro m q b1 ⟨ha, hx, ht, -⟩ -
    exact ⟨ha, hx, ht⟩

/-- The head of a level is where the FIFO loop starts. -/
theorem Wf.at_head (h : Wf V b) (p : Int) : At V b.core p (b.core.levels p).head :=
  ⟨[], b.core.queue V p, rfl, h.links.head_eq p⟩

theorem advanceBest_eq (side : Side) : ∃ x y, b.advanceBest V side p =
    { b with core := { b.core with bestBid := x, bestAsk := y } } := by
  unfold Book.advanceBest
  split
  · cases side
    · exact ⟨_, _, rfl⟩
    · exact ⟨_, _, rfl⟩
  · exact ⟨b.core.bestBid, b.core.bestAsk, rfl⟩

theorem best_act (x y : Int) : Act V .aux b { b with core := { b.core with bestBid := x, bestAsk := y } } :=
  .aux ⟨rfl, rfl, rfl, rfl, rfl, rfl, rfl, rfl, le_rfl⟩ ⟨rfl, rfl, rfl, rfl, rfl, rfl⟩ id rfl

theorem Taking.best (h : Taking V b t qty) (x y : Int) :
    Taking V { b with core := { b.core with bestBid := x, bestAsk := y } } t qty :=
  ⟨(best_act x y).wf h.wf, h.flying, h.left⟩

/-- The price loop with its taker: what every pass keeps, and no cached price is needed for, the loop keeps. -/
theorem priceLoop_passes {I : Int → Book → Prop} {n : Nat}
    (hpass : ∀ {p i q b v}, Taking V b t q → I q b → 0 < q → i ∈ b.core.queue V p → VisitCase V b p t ts i q v → I v.left v.book)
    (hbest : ∀ {q b} x y, I q b → I q { b with core := { b.core with bestBid := x, bestAsk := y } })
    (h : Taking V b t qty) (hI : I qty b) (hm : Book.priceLoop V t ts n qty b = some b') : ∃ q', I q' b' := by
  refine priceLoop_rule (I := fun q b => Taking V b t q ∧ I q b) (J := fun b => ∃ q', I q' b) ?_ (fun q _ h _ => ⟨q, h.2⟩)
    n qty b b' ⟨h, hI⟩ hm
  rintro k q b p q1 b1 ⟨ht, hI⟩ _ _ hl
  obtain ⟨ht1, hI1⟩ := matchAtLevel_passes (fun ht hI hpos hi _ hcase => hpass ht hI hpos hi hcase) ht (ht.wf.at_head p) hI hl
  obtain ⟨x, y, hb⟩ := advanceBest_eq (b1.order t).side
  rw [hb]
  exact ⟨ht1.best x y, hbest x y hI1⟩

theorem priceLoop_acts {n : Nat} (h : Taking V b t qty) (hm : Book.priceLoop V t ts n qty b = some b') :
    Acts V matchKinds b b' ∧ b'.inFlight = b.inFlight := by
  refine priceLoop_rule
    (I := fun q b1 => Acts V matchKinds b b1 ∧ b1.inFlight = b.inFlight ∧ Taking V b1 t q)
    (J := fun b1 => Acts V matchKinds b b1 ∧ b1.inFlight = b.inFlight) ?_ ?_ n qty b b' ⟨Acts.refl b, rfl, h⟩ hm
  · rintro k q b1 p q1 b2 ⟨ha, hx, ht⟩ _ _ hl
    obtain ⟨ha2, hx2, ht2⟩ := matchAtLevel_acts ht (ht.wf.at_head p) hl
    obtain ⟨x, y, hb⟩ := advanceBest_eq (b2.order t).side
    rw [hb]
    exact ⟨(ha.trans ha2).trans (Acts.one (best_act x y) trivial), hx2.trans hx, ht2.best x y⟩
  · rintro q b1 ⟨ha, hx, -⟩ -
    exact ⟨ha, hx⟩

end

end HftLab.OrderBook
