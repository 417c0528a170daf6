/-
  HftLab.OrderBook.Acts — the transitions of the book, one relation.

  `Act V k b b'`: one transition of kind `k`, with its guard. Whatever a call does is a sequence of
  acts (HftLab.OrderBook.Decompose), so a property of every run is a property of every act.
  `Acts V K b b'`: a sequence of acts whose kinds satisfy `K`.

  - `Act.lawful`: every act but `clear` touches a few slots and leaves them well placed;
  - `Acts.wf`: acts keep a book well formed.
-/

import HftLab.OrderBook.Fills

namespace HftLab.OrderBook

open Lib Function

/-- Nothing but the gates, the streams, the queues of on-close orders and what the environment was
    asked changed outside the core. A bracket may be dropped, or move to the pending ones. -/
structure Frozen (b b' : Book) : Prop where
  exposure : b'.exposure = b.exposure
  oco : b'.oco = b.oco
  log : b'.log = b.log
  trades : b'.tape.trades = b.tape.trades
  stpPolicy : b'.gates.stpPolicy = b.gates.stpPolicy
  clientToFirm : b'.gates.clientToFirm = b.gates.clientToFirm

/-- No bracket is registered or waits to be armed. -/
def Book.NoBracket (b : Book) : Prop := b.brackets.pending = [] ∧ ∀ k, b.brackets.specs k = none

inductive Kind where
  | aux
  | config
  | note
  | accept
  | wait
  | peg
  | exec
  | cancel
  | replace
  | unwait
  | finish
  | reduce
  | reduceStop
  | release
  | reprice
  | expire
  | auction
  | touch
  | oco
  | bracket
  | clear
  deriving DecidableEq

/-- The writes to the OCO records outside the completion hook. -/
inductive OcoWrite (c : Core) (o : Oco) : Oco → Prop
  | pop : OcoWrite c o { o with pendingCancel := o.pendingCancel.dropLast }
  | push (y : Nat) : OcoWrite c o { o with pendingCancel := o.pendingCancel ++ [y] }
  | link (x y : Nat) : x ≠ y → (c.find x).isSome = true → (c.find y).isSome = true → o.partner x = none → o.partner y = none →
      OcoWrite c o { o with partner := Function.update (Function.update o.partner x (some y)) y (some x) }
  | unlink (x y : Nat) : o.partner x = some y →
      OcoWrite c o { o with partner := Function.update (Function.update o.partner x none) y none }

/-- An execution between the taker in slot `t`, with `qty` left, and the maker in slot `i` of level `p`. -/
structure Meets (V : Env) (b : Book) (p : Int) (t i : Nat) (qty : Int) : Prop where
  queued : i ∈ b.core.queue V p
  flying : t ∈ b.inFlight
  pos : 0 < qty
  left : qty ≤ (b.core.body t).totalQty - (b.core.body t).filledQty
  stp : b.gates.stpPolicy = .none ∨ b.gates.stpPolicy = .decrementAndCxl ∨
    b.sameTradingEntity (b.core.body i).clientId (b.core.body t).clientId = false

/-- A new order with the id asked for, or the next automatic one, starts to wait in slot `i`, with no trail. -/
structure Waits (oid i : Nat) (f : Order → Order) (c : Core) (b b' : Book) : Prop where
  alloc : b.core.allocAs oid f = some (i, c)
  id : (f { id := b.core.newId oid }).id = b.core.newId oid
  waiting : (f { id := b.core.newId oid }).strip.Waiting
  plain : (f { id := b.core.newId oid }).pegOffsetTicks = 0
  core : b'.core = { c with stopOrders := c.stopOrders ++ [i] }.indexOrder i
  inFlight : b'.inFlight = b.inFlight
  frozen : Frozen b b'
  noBracket : b.NoBracket → b'.NoBracket

/-- A new order with the id asked for, or the next automatic one, joins a queue without matching. -/
structure Pegs (V : Env) (oid i : Nat) (f : Order → Order) (c : Core) (b b' : Book) : Prop where
  alloc : b.core.allocAs oid f = some (i, c)
  id : (f { id := b.core.newId oid }).id = b.core.newId oid
  resting : (f { id := b.core.newId oid }).strip.Resting
  grid : inRange V (f { id := b.core.newId oid }).priceTicks
  core : ∃ x y, b'.core = { c.settle i (c.pool i) with bestBid := x, bestAsk := y, pegOrders := c.pegOrders ++ [i] }
  inFlight : b'.inFlight = b.inFlight
  frozen : Frozen b b'
  noBracket : b.NoBracket → b'.NoBracket

inductive Act (V : Env) : Kind → Book → Book → Prop
  | aux {b b' : Book} : SameSlots b b' → Frozen b b' → (b.NoBracket → b'.NoBracket) →
      b'.core.nextOrderId = b.core.nextOrderId → Act V .aux b b'
  | config {b b' : Book} : SameSlots b b' → b'.exposure = b.exposure → b'.oco = b.oco → b'.log = b.log →
      b'.tape.trades = b.tape.trades → (b.NoBracket → b'.NoBracket) → Act V .config b b'
  | stpAbort {b : Book} (taker maker : Order) : Act V .note b (b.note (.stpAbort taker maker))
  | stpCancel {b : Book} (taker maker : Order) : Act V .note b (b.note (.stpCancel taker maker b.core))
  | accept {b b' : Book} (r : Request) (i : Nat) : 0 < r.qty → (r.orderId ≠ 0 → b.core.find r.orderId = none) →
      b.accept V r = some (i, b') → Act V .accept b b'
  | wait {b b' : Book} (oid i : Nat) (f : Order → Order) (c : Core) : Waits oid i f c b b' → Act V .wait b b'
  | peg {b b' : Book} (oid i : Nat) (f : Order → Order) (c : Core) : Pegs V oid i f c b b' → Act V .peg b b'
  | exec {b : Book} (p : Int) (t ts i : Nat) (qty : Int) : Meets V b p t i qty →
      Act V .exec b (b.executed V p t ts i (min qty (b.core.body i).displayedQty))
  | cancel {b : Book} (p : Int) (i : Nat) : i ∈ b.core.queue V p → Act V .cancel b (b.cancelInternal V i true)
  | replace {b : Book} (p : Int) (i : Nat) : i ∈ b.core.queue V p → Act V .replace b (b.cancelInternal V i false)
  | unwait {b : Book} (i : Nat) : i ∈ b.core.stopOrders → Act V .unwait b (b.cancelPendingStop i).2
  | finishFilled {b : Book} (i : Nat) : i ∈ b.inFlight → (b.core.body i).totalQty ≤ (b.core.body i).filledQty →
      Act V .finish b (b.finishFilled i)
  | finishIoc {b : Book} (i : Nat) : i ∈ b.inFlight → (b.core.body i).filledQty < (b.core.body i).totalQty →
      Act V .finish b (b.finishIoc i)
  | rest {b : Book} (i : Nat) : i ∈ b.inFlight → (b.core.body i).filledQty < (b.core.body i).totalQty →
      inRange V (b.core.body i).priceTicks → Act V .finish b (b.restOrder i)
  | reduce {b : Book} (p : Int) (id i : Nat) (q : Int) : i ∈ b.core.queue V p → b.core.find id = some i →
      q < (b.core.body i).totalQty → (b.core.body i).filledQty < q → Act V .reduce b (b.reduceInPlace id i q)
  | reduceStop {b : Book} (id i : Nat) (q : Int) : i ∈ b.core.stopOrders → b.core.find id = some i →
      q < (b.core.body i).totalQty → (b.core.body i).filledQty < q → Act V .reduceStop b (b.reduceInPlace id i q)
  | release {b : Book} (k i : Nat) : b.core.stopOrders[k]? = some i → Act V .release b (b.releaseStop k i)
  | reprice {b : Book} (p : Int) (i : Nat) (q x y : Int) : i ∈ b.core.queue V p → inRange V q →
      Act V .reprice b { b with core := { b.core.reprice V i q with bestBid := x, bestAsk := y } }
  | expire {b : Book} (p : Int) (i : Nat) : i ∈ b.core.queue V p → Act V .expire b (b.expireOrder V i)
  | auction {b : Book} (p clearing : Int) (i : Nat) (take : Int) (ts : Nat) : i ∈ b.core.queue V p → 0 < take →
      take ≤ (b.core.body i).totalQty - (b.core.body i).filledQty → Act V .auction b (b.auctionTake p clearing i take ts)
  | touch {b : Book} (k i : Nat) (o : Order) : i ∈ b.core.stopOrders ∨ b.core.find k = some i →
      o = { b.core.pool i with expireTsNs := o.expireTsNs, stopTriggerTicks := o.stopTriggerTicks,
                               pegOffsetTicks := o.pegOffsetTicks } →
      Act V .touch b (b.mapCore (·.setOrder i o))
  | oco {b : Book} (o : Oco) : OcoWrite b.core b.oco o → Act V .oco b { b with oco := o }
  | bracket {b : Book} (br : Brackets) : Act V .bracket b { b with brackets := br }
  | clear {b : Book} : Act V .clear b (b.clear V)

/-- Acts, one after another, of the kinds `K` allows. -/
def Acts (V : Env) (K : Kind → Prop) : Book → Book → Prop :=
  Relation.ReflTransGen fun b b' => ∃ k, K k ∧ Act V k b b'

section

variable {V : Env} {K L : Kind → Prop} {b b' b'' : Book} {k : Kind} {id ts i : Nat} {p q : Int}

theorem Acts.refl (b : Book) : Acts V K b b := Relation.ReflTransGen.refl

theorem Acts.one (h : Act V k b b') (hk : K k) : Acts V K b b' := Relation.ReflTransGen.single ⟨k, hk, h⟩

theorem Acts.trans (h : Acts V K b b') (h' : Acts V K b' b'') : Acts V K b b'' := Relation.ReflTransGen.trans h h'

theorem Acts.mono (hKL : ∀ k, K k → L k) (h : Acts V K b b') : Acts V L b b' :=
  Relation.ReflTransGen.mono (fun _ _ ⟨k, hk, ha⟩ => ⟨k, hKL k hk, ha⟩) _ _ h

/-- The induction rule: what every act keeps, a sequence of acts keeps. -/
theorem Acts.keeps {I : Book → Prop} (h : Acts V K b b') (hI : I b)
    (hact : ∀ {k b b'}, K k → Act V k b b' → I b → I b') : I b' := by
  induction h with
  | refl => exact hI
  | tail _ hs ih =>
    obtain ⟨k, hk, ha⟩ := hs
    exact hact hk ha ih

/-! ## Acts keep a book well formed -/

theorem Act.lawful (h : Act V k b b') (hk : k ≠ .clear) (hw : Wf V b) : ∃ T, Lawful V T b b' := by
  cases h with
  | aux hs _ _ _ => exact ⟨[], hs.lawful hw⟩
  | config hs _ _ _ _ _ => exact ⟨[], hs.lawful hw⟩
  | stpAbort => exact ⟨[], SameSlots.lawful (.of_core rfl rfl) hw⟩
  | stpCancel => exact ⟨[], SameSlots.lawful (.of_core rfl rfl) hw⟩
  | accept r i hq _ ha => exact ⟨[i], hw.accept hq ha⟩
  | wait oid i f c h =>
    obtain ⟨⟨G, hF, hl⟩, hb, hrest⟩ := hw.links.allocAs h.alloc
    exact ⟨[i], hw.wait hF hl hb hrest h.waiting h.core h.inFlight⟩
  | peg oid i f c h =>
    obtain ⟨x, y, hc⟩ := h.core
    exact ⟨[i], hw.peg h.alloc h.resting h.grid hc h.inFlight⟩
  | exec p t ts i qty hm =>
    have hsh := (hw.resting hm.queued).shown
    have h1 := hm.pos
    have h2 := hm.left
    exact ⟨[t, i], hw.executed hm.queued hm.flying (by omega) (by omega) (by omega)⟩
  | cancel p i hi => exact ⟨[i], (hw.cancelInternal hi true).lawful⟩
  | replace p i hi => exact ⟨[i], (hw.cancelInternal hi false).lawful⟩
  | unwait i hi =>
    rcases hw.cancelPendingStop with ⟨hn, _⟩ | ⟨_, _, hr⟩
    · exact absurd hi hn
    · exact ⟨[i], hr.lawful⟩
  | finishFilled i hi _ => exact ⟨[i], (hw.finishFilled hi).lawful⟩
  | finishIoc i hi _ => exact ⟨[i], (hw.finishIoc hi).lawful⟩
  | rest i hi hlt hr => exact ⟨[i], hw.restOrder hi hlt hr⟩
  | reduce p id i q _ hf _ hq => exact ⟨[i], hw.reduceInPlace hf hq⟩
  | reduceStop id i q _ hf _ hq => exact ⟨[i], hw.reduceInPlace hf hq⟩
  | release k i hk => exact ⟨[i], (hw.releaseStop hk).lawful⟩
  | reprice p i q x y hi hr => exact ⟨[i], hw.reprice hi hr rfl rfl⟩
  | expire p i hi => exact ⟨[i], (hw.expireOrder hi).lawful⟩
  | auction p clearing i take ts hi hpos hle => exact ⟨[i], hw.auctionTake hi (Int.le_of_lt hpos) hle⟩
  | touch k i o hf ho => exact ⟨[i], hw.touch hf ho rfl rfl⟩
  | oco o _ => exact ⟨[], SameSlots.lawful (.of_core rfl rfl) hw⟩
  | bracket br => exact ⟨[], SameSlots.lawful (.of_core rfl rfl) hw⟩
  | clear => exact absurd rfl hk

theorem Act.wf (h : Act V k b b') (hw : Wf V b) : Wf V b' := by
  by_cases hk : k = .clear
  · subst hk
    cases h
    exact hw.clear
  · obtain ⟨T, hl⟩ := h.lawful hk hw
    exact hl.wf hw

theorem Acts.wf (h : Acts V K b b') (hw : Wf V b) : Wf V b' := h.keeps hw fun _ ha hw => ha.wf hw

/-! ## Brackets are not created by the way -/

theorem Brackets.fullFill_none {br : Brackets} (h : br.specs id = none) : br.fullFill id = br := by
  unfold Brackets.fullFill
  rw [h]

theorem Book.NoBracket.congr (h : b.NoBracket) (hb : b'.brackets = b.brackets) : b'.NoBracket := by
  unfold Book.NoBracket
  rw [hb]
  exact h

theorem Book.NoBracket.eraseSpec (h : b.NoBracket) {k : Nat}
    (hb : b'.brackets = { b.brackets with specs := update b.brackets.specs k none }) : b'.NoBracket := by
  unfold Book.NoBracket
  rw [hb]
  refine ⟨h.1, fun j => ?_⟩
  dsimp only
  by_cases e : j = k
  · rw [e, update_self]
  · rw [update_of_ne e]
    exact h.2 j

theorem executed_brackets {t : Nat} (h : b.NoBracket) : (b.executed V p t ts i q).brackets = b.brackets := by
  unfold Book.executed Book.settleMaker
  dsimp only
  split
  · rfl
  · split
    · exact Brackets.fullFill_none (h.2 _)
    · rfl

theorem cancelInternal_brackets {e : Bool} : (b.cancelInternal V i e).brackets = b.brackets ∨
    (b.cancelInternal V i e).brackets =
      { b.brackets with specs := update b.brackets.specs (b.order i).id none } := by
  unfold Book.cancelInternal
  cases e <;> dsimp only <;> split
  · exact .inl rfl
  · exact .inr rfl
  · exact .inl rfl
  · exact .inr rfl

theorem auctionTake_brackets {clearing take : Int} (h : b.NoBracket) :
    (b.auctionTake p clearing i take ts).brackets = b.brackets := by
  unfold Book.auctionTake
  dsimp only
  split
  · exact Brackets.fullFill_none (h.2 _)
  · rfl

theorem accept_brackets {r : Request} (h : b.accept V r = some (i, b')) : b'.brackets = b.brackets := by
  unfold Book.accept at h
  dsimp only at h
  split at h
  · cases h
  · cases h
    rfl

theorem restOrder_brackets : (b.restOrder i).brackets = b.brackets := by
  unfold Book.restOrder
  dsimp only
  split <;> rfl

theorem reduceInPlace_brackets (h : b.NoBracket) : (b.reduceInPlace id i q).brackets = b.brackets := by
  have hs : (b.reduceInPlace id i q).brackets = { b.brackets with
    specs := update b.brackets.specs id ((b.brackets.specs id).map fun s => { s with qty := q }) } := rfl
  rw [hs, h.2 id, Option.map_none, update_eq_self_iff.mpr (h.2 id).symm]

/-- Only the `bracket` act adds a bracket. -/
theorem Act.noBracket (h : Act V k b b') (hk : k ≠ .bracket) (hb : b.NoBracket) : b'.NoBracket := by
  cases h with
  | aux _ _ hn _ => exact hn hb
  | config _ _ _ _ _ hn => exact hn hb
  | wait _ _ _ _ h => exact h.noBracket hb
  | peg _ _ _ _ h => exact h.noBracket hb
  | accept r i _ _ ha => exact hb.congr (accept_brackets ha)
  | exec p t ts i qty _ => exact hb.congr (executed_brackets hb)
  | cancel p i _ =>
    rcases cancelInternal_brackets with h | h
    · exact hb.congr h
    · exact hb.eraseSpec h
  | replace p i _ =>
    rcases cancelInternal_brackets with h | h
    · exact hb.congr h
    · exact hb.eraseSpec h
  | unwait i _ =>
    unfold Book.cancelPendingStop
    split
    · exact hb
    · exact hb.eraseSpec rfl
  | rest i _ _ _ => exact hb.congr restOrder_brackets
  | reduce p id i q _ _ _ _ => exact hb.congr (reduceInPlace_brackets hb)
  | reduceStop id i q _ _ _ _ => exact hb.congr (reduceInPlace_brackets hb)
  | expire p i _ => exact hb.eraseSpec rfl
  | auction p clearing i take ts _ _ _ => exact hb.congr (auctionTake_brackets hb)
  | bracket br => exact absurd rfl hk
  | stpAbort | stpCancel | finishFilled | finishIoc | release | reprice | touch | oco | clear => exact hb

theorem Acts.noBracket (h : Acts V K b b') (hK : ¬ K .bracket) (hb : b.NoBracket) : b'.NoBracket :=
  h.keeps hb fun hk ha hb => ha.noBracket (fun e => hK (e ▸ hk)) hb

/-- Until `clear`, an active order in a slot that was tracked is in a queue. -/
theorem Acts.tracked (h : Acts V K b b') (hK : ¬ K .clear) (hw : Wf V b) (ht : Tracked V b i) : Tracked V b' i := by
  refine (h.keeps (I := fun b => Wf V b ∧ Tracked V b i) ⟨hw, ht⟩ ?_).2
  rintro k b b' hk ha ⟨hw, ht⟩
  obtain ⟨T, hl⟩ := ha.lawful (fun e => hK (e ▸ hk)) hw
  exact ⟨hl.wf hw, hl.moves.tracked hl.tracked ht⟩

end

end HftLab.OrderBook
