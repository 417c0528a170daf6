/-
  HftLab.OrderBook.Wf — the well-formed books, and what it takes to stay one.

  `Wf V b`: every slot is in one place (`Links`), an order is in the state its place asks for
  (`Placed`: resting, waiting for its trigger, or in flight), an index entry leads to a live order
  with that id, and the peg list names no active order outside the queues.

  `Moves V T b b'`: the step from `b` to `b'` touched the slots of `T` only. A step keeps `Wf` when
  the touched slots are placed again (`Lawful.wf`); `Releases`: the one touched slot was freed.
-/

import HftLab.OrderBook.Layout
import HftLab.OrderBook.Operations

namespace HftLab.OrderBook

open Lib Function List

/-! ## The states of an order -/

/-- In a queue. -/
structure Order.Resting (o : Order) : Prop where
  active : o.isActive = true
  filled : 0 ≤ o.filledQty
  left : o.filledQty < o.totalQty
  shown : 0 ≤ o.displayedQty
  hidden : 0 ≤ o.hiddenQty

/-- In `stop_orders_`. -/
structure Order.Waiting (o : Order) : Prop where
  status : o.status = .new
  type : o.type = .stop
  filled : o.filledQty = 0
  qty : 0 < o.totalQty
  shown : o.displayedQty = o.totalQty

/-- Held by a running `submit`. -/
structure Order.Flying (o : Order) : Prop where
  status : o.status = .new
  filled : 0 ≤ o.filledQty
  left : o.filledQty ≤ o.totalQty
  shown : 0 ≤ o.displayedQty
  hidden : o.displayedQty ≤ o.totalQty

theorem Order.Resting.not_pendingStop {o : Order} (h : o.Resting) : o.isPendingStop = false := by
  have := h.active
  unfold Order.isActive at this
  unfold Order.isPendingStop
  cases hs : o.status <;> simp_all

theorem Order.Waiting.isPendingStop {o : Order} (h : o.Waiting) : o.isPendingStop := by
  simp [Order.isPendingStop, h.status, h.type]

theorem Order.not_active_of_new {o : Order} (h : o.status = .new) : o.isActive = false := by
  simp [Order.isActive, h]

/-! ## Well-formed books -/

def Core.Queued (V : Env) (c : Core) (i : Nat) : Prop := ∃ p, i ∈ c.queue V p

structure Placed (V : Env) (b : Book) (i : Nat) : Prop where
  resting : b.core.Queued V i → (b.core.body i).Resting
  waiting : i ∈ b.core.stopOrders → (b.core.body i).Waiting
  flying : i ∈ b.inFlight → (b.core.body i).Flying
  index : ∀ k, b.core.find k = some i → (b.core.body i).id = k ∧ (i ∈ b.core.stopOrders ∨ b.core.Queued V i)

/-- An active order in slot `i` is in a queue. (Not so of every slot: `clear` frees slots as they are.) -/
def Tracked (V : Env) (b : Book) (i : Nat) : Prop := (b.core.body i).isActive = true → b.core.Queued V i

structure Wf (V : Env) (b : Book) : Prop where
  links : Links V b.core b.inFlight
  placed : ∀ i, Placed V b i
  pegs : ∀ i ∈ b.core.pegOrders, Tracked V b i

section

variable {V : Env} {b b' b'' : Book} {T : List Nat} {i j k : Nat} {p : Int} {F : List Nat} {Q : Int → List Nat} {c : Core} {q : Int}

theorem Wf.resting (h : Wf V b) (hi : i ∈ b.core.queue V p) : (b.core.body i).Resting := (h.placed i).resting ⟨p, hi⟩

theorem Wf.price (h : Wf V b) (hi : i ∈ b.core.queue V p) : (b.core.body i).priceTicks = p := h.links.price p i hi

/-- `find` leads to a live order with that id. -/
theorem Wf.found (h : Wf V b) (hf : b.core.find k = some i) :
    (b.core.body i).id = k ∧ (i ∈ b.core.stopOrders ∨ b.core.Queued V i) := (h.placed i).index k hf

theorem Wf.tracked_of_found (h : Wf V b) (hf : b.core.find k = some i) : Tracked V b i := by
  intro ha
  rcases (h.found hf).2 with hs | hq
  · rw [Order.not_active_of_new ((h.placed i).waiting hs).status] at ha
    cases ha
  · exact hq

/-! ## Steps that touch a few slots -/

structure Moves (V : Env) (T : List Nat) (b b' : Book) : Prop where
  links : Links V b'.core b'.inFlight
  body : ∀ j, j ∉ T → b'.core.body j = b.core.body j
  queue : ∀ j, j ∉ T → ∀ p, j ∈ b'.core.queue V p ↔ j ∈ b.core.queue V p
  stops : ∀ j, j ∉ T → (j ∈ b'.core.stopOrders ↔ j ∈ b.core.stopOrders)
  flight : ∀ j, j ∉ T → (j ∈ b'.inFlight ↔ j ∈ b.inFlight)
  index : ∀ j, j ∉ T → ∀ k, b'.core.find k = some j → b.core.find k = some j
  pegs : ∀ j, j ∉ T → j ∈ b'.core.pegOrders → j ∈ b.core.pegOrders

theorem Layout.moves (hl : Layout V b'.core F Q b'.inFlight) (hb : ∀ j, j ∉ T → b'.core.body j = b.core.body j)
    (hq : ∀ j, j ∉ T → ∀ p, j ∈ Q p ↔ j ∈ b.core.queue V p)
    (hs : ∀ j, j ∉ T → (j ∈ b'.core.stopOrders ↔ j ∈ b.core.stopOrders))
    (hx : ∀ j, j ∉ T → (j ∈ b'.inFlight ↔ j ∈ b.inFlight))
    (hf : ∀ j, j ∉ T → ∀ k, b'.core.find k = some j → b.core.find k = some j)
    (hp : ∀ j, j ∉ T → j ∈ b'.core.pegOrders → j ∈ b.core.pegOrders) : Moves V T b b' := by
  refine ⟨hl.links, hb, ?_, hs, hx, hf, hp⟩
  rw [hl.queue_eq]
  exact hq

theorem Moves.queued (h : Moves V T b b') (hj : j ∉ T) : b'.core.Queued V j ↔ b.core.Queued V j := by
  unfold Core.Queued
  simp only [h.queue j hj]

theorem Moves.placed (h : Moves V T b b') (hj : j ∉ T) (hp : Placed V b j) : Placed V b' j := by
  refine ⟨?_, ?_, ?_, ?_⟩
  · rw [h.body j hj, h.queued hj]
    exact hp.resting
  · rw [h.body j hj, h.stops j hj]
    exact hp.waiting
  · rw [h.body j hj, h.flight j hj]
    exact hp.flying
  · intro k hk
    rw [h.body j hj, h.stops j hj, h.queued hj]
    exact hp.index k (h.index j hj k hk)

theorem Moves.tracked (h : Moves V T b b') (ht : ∀ i ∈ T, Tracked V b' i) (hj : Tracked V b j) : Tracked V b' j := by
  by_cases e : j ∈ T
  · exact ht j e
  · unfold Tracked at *
    rw [h.body j e, h.queued e]
    exact hj

/-- The step touched the slots of `T` only, and left each of them well placed. -/
structure Lawful (V : Env) (T : List Nat) (b b' : Book) : Prop where
  moves : Moves V T b b'
  placed : ∀ i ∈ T, Placed V b' i
  tracked : ∀ i ∈ T, Tracked V b' i

theorem Lawful.wf (hm : Lawful V T b b') (h : Wf V b) : Wf V b' := by
  refine ⟨hm.moves.links, ?_, ?_⟩
  · intro i
    by_cases e : i ∈ T
    · exact hm.placed i e
    · exact hm.moves.placed e (h.placed i)
  · intro i hi
    by_cases e : i ∈ T
    · exact hm.tracked i e
    · exact hm.moves.tracked hm.tracked (h.pegs i (hm.moves.pegs i e hi))

/-- A step that leaves every slot, the queues and the index alone; automatic ids may be used up. -/
structure SameSlots (b b' : Book) : Prop where
  pool : b'.core.pool = b.core.pool
  levels : b'.core.levels = b.core.levels
  freeHead : b'.core.freeHead = b.core.freeHead
  idIndex : b'.core.idIndex = b.core.idIndex
  activeOrders : b'.core.activeOrders = b.core.activeOrders
  stopOrders : b'.core.stopOrders = b.core.stopOrders
  pegOrders : b'.core.pegOrders = b.core.pegOrders
  inFlight : b'.inFlight = b.inFlight
  nextOrderId : b.core.nextOrderId ≤ b'.core.nextOrderId

theorem SameSlots.of_core (hc : b'.core = b.core) (hx : b'.inFlight = b.inFlight) : SameSlots b b' := by
  refine ⟨?_, ?_, ?_, ?_, ?_, ?_, ?_, hx, ?_⟩ <;> rw [hc]

theorem SameSlots.body (h : SameSlots b b') : b'.core.body = b.core.body := by
  funext j
  simp only [Core.body, h.pool]

theorem SameSlots.queue (h : SameSlots b b') : b'.core.queue V = b.core.queue V := by
  funext p
  simp only [Core.queue, h.pool, h.levels]

theorem SameSlots.find (h : SameSlots b b') (k : Nat) : b'.core.find k = b.core.find k := by
  simp only [Core.find, h.idIndex]

theorem SameSlots.lawful (h : SameSlots b b') (hw : Wf V b) : Lawful V [] b b' := by
  have hl : Layout V b'.core (b.core.freeList V) (b.core.queue V) b'.inFlight := by
    rw [h.inFlight]
    exact hw.links.same h.pool h.levels h.freeHead h.stopOrders h.activeOrders
  refine ⟨hl.moves ?_ (fun _ _ _ => Iff.rfl) ?_ ?_ ?_ ?_, by simp, by simp⟩
  · exact fun j _ => by rw [h.body]
  · exact fun j _ => by rw [h.stopOrders]
  · exact fun j _ => by rw [h.inFlight]
  · exact fun j _ k hk => by rwa [h.find] at hk
  · exact fun j _ hj => by rwa [h.pegOrders] at hj

theorem Wf.aside (hw : Wf V b) (h : SameSlots b b') : Wf V b' := (h.lawful hw).wf hw

/-- What is written beside the core and the orders in flight does not matter. -/
theorem Wf.of_core (hw : Wf V b) (hc : b'.core = b.core) (hx : b'.inFlight = b.inFlight) : Wf V b' := hw.aside (.of_core hc hx)

theorem Wf.clock (hw : Wf V b) : Wf V (b.monoNsNow V).2 := hw.of_core rfl rfl

theorem Wf.regated (hw : Wf V b) (g : Gates) (n : Nat) : Wf V { b with gates := g, asked := n } := hw.of_core rfl rfl

/-- Slot `i` is nowhere but in the free list. -/
structure Gone (V : Env) (b : Book) (i : Nat) : Prop where
  queued : ¬ b.core.Queued V i
  stops : i ∉ b.core.stopOrders
  flight : i ∉ b.inFlight
  index : ∀ k, b.core.find k ≠ some i
  inactive : (b.core.body i).isActive = false

theorem Gone.placed (h : Gone V b i) : Placed V b i :=
  ⟨fun hq => absurd hq h.queued, fun hs => absurd hs h.stops, fun hx => absurd hx h.flight,
    fun k hk => absurd hk (h.index k)⟩

theorem Gone.tracked (h : Gone V b i) : Tracked V b i := by
  intro ha
  rw [h.inactive] at ha
  cases ha

/-- A slot at the head of the free list is nowhere else. -/
theorem Layout.apart_of_free {X : List Nat} (h : Layout V c (i :: F) Q X) : (∀ p, i ∉ Q p) ∧ i ∉ c.stopOrders ∧ i ∉ X := by
  have hn := h.nodup
  simp only [cons_append, nodup_cons, mem_append, not_or] at hn
  exact ⟨fun p hi => h.apart p i hi (by simp), hn.1.1.2, hn.1.2⟩

theorem mem_update_erase (hj : j ≠ i) : j ∈ update Q p ((Q p).erase i) q ↔ j ∈ Q q := by
  by_cases e : q = p
  · subst e
    rw [update_self, mem_erase_of_ne hj]
  · rw [update_of_ne e]

theorem mem_update_push (hj : j ≠ i) : j ∈ update Q p (Q p ++ [i]) q ↔ j ∈ Q q := by
  by_cases e : q = p
  · subst e
    simp [hj]
  · rw [update_of_ne e]

theorem find_of_erase {id : Nat} (h : (c.eraseId id).find k = some j) : k ≠ id ∧ c.find k = some j := by
  have hk : k ≠ id := by
    rintro rfl
    simp [Core.find, Core.eraseId] at h
  refine ⟨hk, ?_⟩
  simpa [Core.find, Core.eraseId, hk] using h

/-- Once the entry of its id is erased, a slot has none. -/
theorem Wf.find_erase_ne (h : Wf V b) (hc : c.idIndex = b.core.idIndex) (k : Nat) :
    (c.eraseId (b.core.body i).id).find k ≠ some i := by
  intro hk
  obtain ⟨hne, hf⟩ := find_of_erase hk
  have hf' : b.core.find k = some i := by
    rw [← hf]
    simp only [Core.find, hc]
  exact hne (h.found hf').1.symm

/-- The step freed slot `i` and touched no other. -/
structure Releases (V : Env) (i : Nat) (b b' : Book) : Prop where
  moves : Moves V [i] b b'
  gone : Gone V b' i

theorem Releases.lawful (h : Releases V i b b') : Lawful V [i] b b' :=
  ⟨h.moves, fun _ hj => mem_singleton.mp hj ▸ h.gone.placed, fun _ hj => mem_singleton.mp hj ▸ h.gone.tracked⟩

theorem Layout.release (hl : Layout V b'.core (i :: F) Q b'.inFlight) (hq : ∀ j, j ≠ i → ∀ p, j ∈ Q p ↔ j ∈ b.core.queue V p)
    (hs : ∀ j, j ≠ i → (j ∈ b'.core.stopOrders ↔ j ∈ b.core.stopOrders))
    (hx : ∀ j, j ≠ i → (j ∈ b'.inFlight ↔ j ∈ b.inFlight))
    (hb : ∀ j, j ≠ i → b'.core.body j = b.core.body j) (ha : (b'.core.body i).isActive = false)
    (hf : ∀ k j, b'.core.find k = some j → j ≠ i ∧ b.core.find k = some j) (hp : b'.core.pegOrders = b.core.pegOrders) :
    Releases V i b b' := by
  obtain ⟨h1, h2, h3⟩ := hl.apart_of_free
  refine ⟨hl.moves (fun j hj => hb j (by simpa using hj)) (fun j hj => hq j (by simpa using hj))
    (fun j hj => hs j (by simpa using hj)) (fun j hj => hx j (by simpa using hj)) (fun j _ k hk => (hf k j hk).2)
    (fun j _ hj => hp ▸ hj), ⟨?_, h2, h3, fun k hk => (hf k i hk).1 rfl, ha⟩⟩
  rintro ⟨p, hi⟩
  rw [hl.queue_eq] at hi
  exact h1 p hi

end

end HftLab.OrderBook
