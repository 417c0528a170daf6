/-
  HftLab.OrderBook.Streams — calls add to the events and to the reports, and leave the on-close queues alone.

  `Adds b b'`: `b'` has the events and the reports of `b`, perhaps more, and its on-close orders. Every function of the
  source is so, but `submit_moc`, `submit_loc`, their cancels and `run_closing_auction` (`exec_adds`).
-/

import HftLab.OrderBook.FillEvents
import HftLab.OrderBook.Walk

namespace HftLab.OrderBook

open Lib List

structure Adds (b b' : Book) : Prop where
  closing : b'.closing = b.closing
  events : b.tape.events <+: b'.tape.events
  log : b.log <:+ b'.log

section

variable {V : Env} {b b' b'' : Book} {p q : Int} {t ts i n : Nat} {r : Request}

theorem Adds.refl (b : Book) : Adds b b := ⟨rfl, prefix_rfl, suffix_rfl⟩

theorem Adds.trans (h : Adds b b') (h' : Adds b' b'') : Adds b b'' :=
  ⟨h'.closing.trans h.closing, h.events.trans h'.events, h.log.trans h'.log⟩

/-- Nothing is added. -/
theorem Adds.same (hc : b'.closing = b.closing) (he : b'.tape.events = b.tape.events) (hl : b'.log = b.log) : Adds b b' :=
  ⟨hc, he ▸ prefix_rfl, hl ▸ suffix_rfl⟩

/-- What is added from a book with the same on-close orders, events and reports. -/
theorem Adds.since {c : Book} (h : Adds c b') (hc : c.closing = b.closing) (he : c.tape.events = b.tape.events)
    (hl : c.log = b.log) : Adds b b' := Adds.trans (.same hc he hl) h

/-! ## One write -/

theorem note_adds (e : Report) : Adds b (b.note e) := ⟨rfl, prefix_rfl, suffix_cons e _⟩

theorem emit_adds (ev : EventType) (k m : Nat) (x y : Int) (s : OrderStatus) (why : RejectReason) (c : Nat) :
    Adds b (b.emit ev k m x y s why c) := ⟨rfl, prefix_append _ _, suffix_rfl⟩

theorem pushDelta_adds (d : DeltaType) (s : Side) (x y : Int) : Adds b (b.pushDelta d s x y) :=
  .same rfl (pushDelta_events d s x y) rfl

theorem mapCore_adds (f : Core → Core) : Adds b (b.mapCore f) := .same rfl rfl rfl

theorem cancelInternal_adds (i : Nat) (e : Bool) : Adds b (b.cancelInternal V i e) := by
  unfold Book.cancelInternal
  dsimp only
  split
  · exact .refl b
  · cases e with
    | false => exact ⟨rfl, (pushDelta_adds _ _ _ _).events, suffix_cons _ _⟩
    | true =>
      have he := (emit_adds (b := b) .cancel (b.order i).id 0 (b.order i).priceTicks (b.order i).remainingQty .cancelled .none
        (b.order i).clientId).events
      exact ⟨rfl, he.trans (pushDelta_adds _ _ _ _).events, suffix_cons _ _⟩

theorem fillMaker_adds (p : Int) (t i : Nat) (q : Int) (ts : Nat) : Adds b (b.fillMaker V p t i q ts) :=
  ⟨rfl, prefix_append _ _, suffix_cons _ _⟩

theorem settleMaker_adds (p : Int) (t i : Nat) (q : Int) : Adds b (b.settleMaker p t i q) := by
  unfold Book.settleMaker
  dsimp only
  split
  · exact .same rfl rfl rfl
  · split
    · exact ⟨rfl, prefix_append _ _, suffix_rfl⟩
    · exact mapCore_adds _

theorem execMaker_adds (p : Int) (t ts i : Nat) (q : Int) :
    Adds b ((b.fillMaker V p t i q ts).settleMaker p t i q) := (fillMaker_adds p t i q ts).trans (settleMaker_adds p t i q)

theorem accept_adds (h : b.accept V r = some (i, b')) : Adds b b' := by
  unfold Book.accept at h
  dsimp only at h
  split at h
  · cases h
  · cases h
    exact ⟨rfl, prefix_append _ _, suffix_cons _ _⟩

theorem finish_adds (h : b.finish V i = some b') : Adds b b' := by
  unfold Book.finish at h
  dsimp only at h
  split at h
  · cases h
    exact ⟨rfl, prefix_rfl, suffix_cons _ _⟩
  · split at h
    · cases h
      exact ⟨rfl, prefix_append _ _, suffix_cons _ _⟩
    · split at h
      · cases h
        refine ⟨?_, ?_, ?_⟩
        · unfold Book.restOrder
          dsimp only
          split <;> rfl
        · rw [restOrder_events]
        · unfold Book.restOrder
          dsimp only
          split <;> exact suffix_cons _ _
      · cases h

theorem cancelPendingStop_adds (i : Nat) : Adds b (b.cancelPendingStop i).2 := by
  unfold Book.cancelPendingStop
  split
  · exact .refl b
  · exact ⟨rfl, prefix_append _ _, suffix_cons _ _⟩

theorem expireOrder_adds (i : Nat) : Adds b (b.expireOrder V i) :=
  ⟨rfl, prefix_append _ _, suffix_cons _ _⟩

theorem auctionTake_adds (p clearing : Int) (i : Nat) (take : Int) (ts : Nat) : Adds b (b.auctionTake p clearing i take ts) := by
  unfold Book.auctionTake
  dsimp only
  split
  · refine ⟨rfl, ?_, suffix_cons _ _⟩
    split <;> exact prefix_append _ _
  · refine ⟨rfl, ?_, suffix_cons _ _⟩
    split <;> exact prefix_append _ _

theorem reduceInPlace_adds (k i : Nat) (q : Int) : Adds b (b.reduceInPlace k i q) :=
  ⟨rfl, prefix_append _ _, suffix_cons _ _⟩

theorem reject_adds (r : Request) (why : RejectReason) : Adds b (b.reject r why) := emit_adds _ _ _ _ _ _ _ _

/-! ## Entry -/

theorem submitStop_adds (s : Side) (x y q : Int) (k c : Nat) : Adds b (b.submitStop V s x y q k c).2 := by
  unfold Book.submitStop
  split
  · exact .refl b
  · split
    · exact .refl b
    · split
      · exact .refl b
      · dsimp only
        split
        · exact .refl b
        · exact ⟨rfl, prefix_append _ _, suffix_rfl⟩

theorem enterPeg_adds (s : Side) (x q : Int) (k c : Nat) (cap y m : Int) : Adds b (b.enterPeg V s x q k c cap y m).2 := by
  unfold Book.enterPeg
  split
  · exact .refl b
  · dsimp only
    split
    · exact .refl b
    · exact ⟨rfl, prefix_append _ _, suffix_rfl⟩

theorem admission_adds (r : Request) : Adds b (b.admission V r).2 := by
  obtain ⟨⟨g, a, he, -⟩, -⟩ := admission_spec
  rw [he]
  exact .same rfl rfl rfl

theorem releaseStop_adds (k i : Nat) : Adds b (b.releaseStop k i) := ⟨rfl, prefix_rfl, suffix_cons _ _⟩

theorem Adds.walk (V : Env) : Walk V Adds where
  refl := .refl
  trans := .trans
  silent _ hc he hl _ := .same hc he hl
  note _ := note_adds
  execute _ := execMaker_adds
  internal {b _} h := (h.since (b := b) rfl rfl rfl).trans (.same rfl rfl rfl)
  admission _ := admission_adds
  reject _ := reject_adds
  accept := accept_adds
  finish := finish_adds
  cancelInternal _ := cancelInternal_adds
  cancelPendingStop _ := cancelPendingStop_adds
  submitStop _ := submitStop_adds
  enterPeg _ := enterPeg_adds
  auctionTake _ := auctionTake_adds
  reduceInPlace _ := reduceInPlace_adds
  releaseStop _ := releaseStop_adds
  expireOrder _ := expireOrder_adds

end

end HftLab.OrderBook
